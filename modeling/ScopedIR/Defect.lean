import ScopedIR.Chain
import ScopedIR.Opcode

/-!
# Defects

The ways in which the construction of code can break one of its own invariants. A defect is a bug of
whoever asked for the construction, never of a source program that type checks. Construction either
succeeds or answers with the first defect it meets.
-/

namespace ScopedIR

/-- A broken invariant of code construction. -/
inductive Defect where
  -- instructions
  /-- A name that plays a role in an instruction is empty. -/
  | emptyName (role : String)
  | emptyResult (opcode : Opcode)
  | notACall (opcode : Opcode)
  /-- A second escape fact for the instruction with the given text. -/
  | escapeAlreadySet (instr : String)
  | mergeWithoutValues
  -- cases and chains
  | conditionWithoutPrimitive
  | enumCaseWithoutConstant
  | incompleteHandler
  | ordinalsNotParallel (values ordinals : Nat)
  | chainWithoutScope (kind : ChainKind)
  | emptyChain (kind : ChainKind)
  | strayTryBlock (kind : ChainKind)
  | questionNeedsNullCheck
  | needsOneExpression (kind : ChainKind)
  | onlyExpressions (kind : ChainKind)
  | switchWithoutSubject
  | switchWithOtherCases
  | enumSwitchWithoutSubject
  | enumSwitchWithOtherCases
  | enumSwitchWithoutDispatch
  | tryWithoutBlock
  | tryWithoutHandlers
  | tryWithOtherCases
  | loopWithDefault (kind : ChainKind)
  -- blocks
  | emptyLabel
  | duplicateLabel (label : String)
  /-- A block position of another body. -/
  | foreignBlock
  -- scopes during lowering
  | crossedExit (scope innermost : String)
  | exitWithoutScope (scope : String)
  | noOpenScope
  | handlerNotOpen
  | finallyNotOpen
  | declaredOutsideScope
  -- lowering
  | voidValue (type : String)
  | unknownOperator (op : String)
  | operatorMismatch (op found expected : String)
  | returnsNothing (method : String)
  | assignedParameter (name : String)
  | ifWithoutCondition
  | notAConstant (constant enumType : String)
  | returnFromFinally
  | returnPastFinally
  | throwFromFinally
deriving DecidableEq, Inhabited

namespace Defect

/-- What is wrong, in one sentence. -/
def reason : Defect → String
  | emptyName role => role ++ " cannot be empty"
  | emptyResult opcode => opcode.name ++ " result name cannot be empty"
  | notACall opcode => opcode.name ++ " is not a call opcode"
  | escapeAlreadySet instr => "escape metadata of `" ++ instr ++ "` is already set"
  | mergeWithoutValues => "phi without incoming values"
  | conditionWithoutPrimitive => "case condition needs a primitive condition"
  | enumCaseWithoutConstant => "enum constant case without a constant"
  | incompleteHandler => "exception handler without a type or variable"
  | ordinalsNotParallel values ordinals =>
    Nat.repr values ++ " enum values but " ++ Nat.repr ordinals ++ " ordinals"
  | chainWithoutScope kind => kind.name ++ " chain without a scope id"
  | emptyChain kind => kind.name ++ " chain without cases or default"
  | strayTryBlock kind => kind.name ++ " chain with a try or finally block"
  | questionNeedsNullCheck => "question operator needs exactly one null check case"
  | needsOneExpression kind => kind.name ++ " needs exactly one expression case"
  | onlyExpressions kind => kind.name ++ " only takes expression cases"
  | switchWithoutSubject => "switch without an evaluation variable"
  | switchWithOtherCases => "switch only takes literal or expression cases"
  | enumSwitchWithoutSubject => "enum switch without an evaluation variable"
  | enumSwitchWithOtherCases => "enum switch only takes enum constant cases"
  | enumSwitchWithoutDispatch => "enum switch without enum optimization info"
  | tryWithoutBlock => "try chain without a try block"
  | tryWithoutHandlers => "try chain without handlers or finally"
  | tryWithOtherCases => "try chain only takes exception handler cases"
  | loopWithDefault kind => kind.name ++ " cannot have a default case"
  | emptyLabel => "basic block label cannot be empty"
  | duplicateLabel label => "duplicate basic block label `" ++ label ++ "`"
  | foreignBlock => "handle resolved against a foreign arena"
  | crossedExit scope innermost =>
    "exit of scope `" ++ scope ++ "` while `" ++ innermost ++ "` is innermost"
  | exitWithoutScope scope => "exit of scope `" ++ scope ++ "` with no open scope"
  | noOpenScope => "no scope is open"
  | handlerNotOpen => "exit of a try chain with none open"
  | finallyNotOpen => "exit of a finally block with none open"
  | declaredOutsideScope => "variable declared with no open scope"
  | voidValue type => "expression of type `" ++ type ++ "` used as a value"
  | unknownOperator op => "no method for operator `" ++ op ++ "`"
  | operatorMismatch op found expected =>
    "operator `" ++ op ++ "` resolved to `" ++ found ++ "` instead of `" ++ expected ++ "`"
  | returnsNothing method => "`" ++ method ++ "` returns nothing"
  | assignedParameter name => "assignment to parameter `" ++ name ++ "`"
  | ifWithoutCondition => "if without a condition"
  | notAConstant constant enumType =>
    "`" ++ constant ++ "` is not a constant of `" ++ enumType ++ "`"
  | returnFromFinally => "return out of a finally block"
  | returnPastFinally => "return out of a try block with a finally block"
  | throwFromFinally => "throw out of a finally block"

/-- The full message of a defect. -/
def message (d : Defect) : String := "internal compiler error: " ++ d.reason

end Defect

end ScopedIR
