import ScopedIR.Escape.Solution

/-!
# Placing objects on the stack

The last part of the escape analysis. Every heap allocation without an escape fact gets one. An
allocation that is confined moves to the stack: its opcode, and those that count references to it or
register it, change to their stack counterparts. Before a scope exits, the objects it holds on the
stack that may have references in their fields are cleaned up.

Main definitions: `Instr.place` for one instruction, as a fold, and `Operation.analyseEscape` for
the whole analysis of an operation.
-/

namespace ScopedIR

namespace Escape

/-- What placing has done so far. -/
structure Placed where
  /-- The objects moved to the stack. -/
  onStack : List String := []
  /-- Whether anything changed. -/
  changed : Bool := false
deriving DecidableEq, Inhabited

/-- Placing in some code: the code that takes its place, and what is done afterwards. -/
abbrev Place := StateM Placed

variable (sol : Solution)

/-- The objects that `scope` holds on the stack and that may hold references, in order of their
names. -/
def cleanups (placed : Placed) (scope : String) : List String :=
  (placed.onStack.filter fun object =>
      object ∈ sol.holders && sol.scopes.get? object = some scope).mergeSort

/-- What takes the place of an instruction, its payload left as it is: instructions to put before it,
and the instruction that stands for it. -/
def own (i : Instr) : Place (List Instr × Instr) := do
  match i.opcode with
  | .allocObject | .loadLiteral =>
    match i.escape, i.result with
    | none, some name =>
      let fact : EscapeFact := { level := sol.levels.level name, lifetime := sol.scopes.get? name }
      let placed ← get
      match i.opcode.stackCounterpart with
      | some opcode =>
        if fact.isStackCandidate then
          set { onStack := Holders.add placed.onStack name, changed := true : Placed }
          return ([], { i with opcode, escape := some fact })
        else
          set { placed with changed := true }
          return ([], { i with escape := some fact })
      | none =>
        set { placed with changed := true }
        return ([], { i with escape := some fact })
    | _, _ => return ([], i)
  | .retain | .release | .scopeRegister =>
    let placed ← get
    match i.object?, i.opcode.stackCounterpart with
    | some object, some marker =>
      if object ∈ placed.onStack then
        set { placed with changed := true }
        return ([], i.withOpcode marker)
      else return ([], i)
    | _, _ => return ([], i)
  | .scopeExit =>
    let placed ← get
    let objects := cleanups sol placed (i.scope?.getD "")
    if objects.isEmpty then return ([], i)
    else
      set { placed with changed := true }
      return (objects.map fun object => { opcode := .stackCleanup, operands := [object] }, i)
  | _ => return ([], i)

/-- The code that takes the place of a list, one instruction after the other. -/
def concat (l : List (Place (List Instr))) : Place (List Instr) := do
  return (← l.mapM id).flatten

/-- The code that takes the place of one instruction, whose nested instructions are placings
already. -/
def step (i : Instr) (p : Payload (Place (List Instr))) :
    Place (List Instr) := do
  let (before, i) ← own sol i
  let payload ← p.replaceListsM concat
  return before ++ [{ i with payload }]

end Escape

open Escape

variable (sol : Solution)

/-- The code that takes the place of an instruction. -/
def Instr.place : Instr → Place (List Instr) := Instr.fold (step sol)

theorem Instr.place_eq (i : Instr) :
    i.place sol = step sol i (i.payload.map (Instr.place sol)) := Instr.fold_eq _ i

/-- The code that takes the place of a list of instructions. -/
def Escape.placeAll (l : List Instr) : Place (List Instr) :=
  concat (l.map (Instr.place sol))

/-- The findings of all blocks of an operation, solved. -/
def Operation.escapeSolution (pureCalls : Bool) (op : Operation) : Solution :=
  (Findings.ofInstrs pureCalls op.body.instrs).solve

/-- Analyse an operation and place its objects; also answers whether anything changed. -/
def Operation.analyseEscape (pureCalls : Bool) (op : Operation) : Operation × Bool :=
  let (body, placed) := (op.body.replaceInstrsM (placeAll (op.escapeSolution pureCalls))).run {}
  ({ op with body }, placed.changed)

end ScopedIR
