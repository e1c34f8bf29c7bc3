import ScopedIR.Instr
import ScopedIR.Text.Lines

/-!
# Rendered instructions

The readable form of instructions, chains and logical blocks. An instruction is one line; a chain or
a logical block goes on over several lines, with its nested lists between brackets. Chains and
logical blocks are rendered from chains and blocks of texts, so the layout is fixed without
recursion and `Instr.text` is a fold.
-/

namespace ScopedIR

open Text

namespace Case

/-- The lines of a case between brackets. The condition of a catch clause is left out. -/
def render (c : Case String) : String :=
  line "["
    ++ fieldLine? "case_scope_id" c.scope
    ++ line ("case_type: " ++ inQuotes c.kind.name)
    ++ (match c.kind with
      | .enumConstant constant ordinal =>
        line ("enum_constant: " ++ inQuotes constant)
          ++ line ("enum_ordinal: " ++ Nat.repr ordinal.toNat)
      | _ => "")
    ++ (match c.kind with
      | .handler exceptionType variableName =>
        line ("exception_type: " ++ inQuotes exceptionType)
          ++ line ("exception_variable: " ++ variableName)
      | _ =>
        listing "condition_evaluation" c.condition.evaluation
          ++ fieldLine? "condition_result" c.condition.result
          ++ line ("primitive_condition: " ++ c.condition.primitive))
    ++ fieldLine? "body_scope_id" c.bodyScope
    ++ listing "body_evaluation" c.body.evaluation
    ++ fieldLine? "body_result" c.body.result
    ++ (if c.updates.isEmpty then "" else listing "guard_updates" c.updates)
    ++ "]"

end Case

/-- The lines of a variable of a chain; `role` names it, and an empty setup is left out. -/
def ChainVariable.render (role : String) (v : ChainVariable String) : String :=
  line (role ++ ": " ++ v.name)
    ++ line (role ++ "_type: " ++ inQuotes v.type)
    ++ (if v.setup.isEmpty then "" else listing (role ++ "_setup") v.setup)

/-- The lines of the dispatch hints. -/
def EnumDispatch.render (d : EnumDispatch) : String :=
  line "enum_optimization_info:"
    ++ line "["
    ++ line ("enum_type: " ++ inQuotes d.enumType)
    ++ line ("enum_values: [" ++ String.intercalate ", " d.values ++ "]")
    ++ line ("enum_ordinals: ["
        ++ String.intercalate ", " (d.ordinals.map fun n => Nat.repr n.toNat) ++ "]")
    ++ line ("is_exhaustive: " ++ Text.ofBool d.exhaustive)
    ++ line ("is_dense: " ++ Text.ofBool d.isDense)
    ++ line "]"

namespace Chain

/-- The cases, each on lines of its own, with a comma between two. -/
def renderCases : List (Case String) → String
  | [] => ""
  | [c] => line c.render
  | c :: rest => line (c.render ++ ",") ++ renderCases rest

/-- The chain over several lines, with its location after the first word. -/
def render (location : Option Location) (c : Chain String) : String :=
  part c.result (fun r => r ++ " = ")
    ++ line ("CONTROL_FLOW_CHAIN" ++ Location.suffix location)
    ++ line "["
    ++ line ("chain_type: " ++ inQuotes c.kind.name)
    ++ part c.subject (ChainVariable.render "evaluation_variable")
    ++ part c.returning (ChainVariable.render "return_variable")
    ++ part c.tryBlock (fun b =>
        line ("try_scope_id: " ++ b.scope)
          ++ listing "try_body_evaluation" b.evaluation
          ++ line ("exception_name: " ++ b.exception))
    ++ line "condition_chain:"
    ++ line "["
    ++ renderCases c.cases
    ++ line "]"
    ++ part c.fallback (fun b =>
        listing "default_body_evaluation" b.evaluation ++ fieldLine? "default_result" b.result)
    ++ part c.finallyBlock (fun b =>
        line ("finally_scope_id: " ++ b.scope) ++ listing "finally_evaluation" b.evaluation)
    ++ part c.dispatch EnumDispatch.render
    ++ line ("scope_id: " ++ c.scope)
    ++ "]"

end Chain

namespace LogicalBlock

/-- A text that ends its line. -/
def endLine (s : String) : String := if s.toList.getLast? = some '\n' then s else line s

/-- A nested list between brackets. -/
def bracketed (items : List String) : String :=
  line "["
    ++ (if items.isEmpty then line "no instructions" else "")
    ++ String.join (items.map endLine)
    ++ line "]"

/-- What a logical block adds after its first line. -/
def render (b : LogicalBlock String) : String :=
  line ""
    ++ line "["
    ++ line "left_evaluation:" ++ bracketed b.leftEvaluation
    ++ line ("left_operand: " ++ b.left)
    ++ line ("left_condition: " ++ b.condition)
    ++ line "right_evaluation:" ++ bracketed b.rightEvaluation
    ++ line ("right_operand: " ++ b.right)
    ++ line "result_computation:" ++ bracketed b.computation
    ++ line ("logical_result: " ++ b.result)
    ++ line ("scope_id: " ++ b.scope)
    ++ "]"

end LogicalBlock

namespace Instr

/-- The first line of an instruction: result, opcode, operands and location. -/
def headText (i : Instr) : String :=
  part i.result (fun r => r ++ " = ")
    ++ i.opcode.name
    ++ (if i.operands.isEmpty then "" else " " ++ String.intercalate ", " i.operands)
    ++ Location.suffix i.location

/-- An instruction whose nested instructions are texts already. -/
def render (i : Instr) : Payload String → String
  | .chain c => c.render i.location
  | .logical b => i.headText ++ b.render
  | .plain | .call _ => i.headText

/-- The readable form of an instruction. -/
def text : Instr → String := fold render

end Instr

/-- The readable form of a chain. -/
def Chain.text (location : Option Location) (c : Chain Instr) : String :=
  (c.map Instr.text).render location

end ScopedIR
