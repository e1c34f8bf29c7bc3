import ScopedIR.CodeUnit
import ScopedIR.FinMap
import ScopedIR.FlowSummary
import ScopedIR.Text.Quoted

/-!
# Scope discipline

Instructions only record scope events; that the scopes nest is owed by whoever builds the code. The
check goes through an operation and accepts it when scopes close innermost first, no scope is
entered twice, registrations name an open scope, and nothing leaves the operation with a scope open.
Inside a try chain a throw must have as many scopes open as the chain has.

Main definitions:

* `ScopeCheck.Step`: what checking a list does to the open scopes;
* `Instr.checkScopes`: the check of one instruction, as a fold;
* `Operation.checkScopes` and `CodeUnit.checkScopes`.

Main statement: `CodeUnit.checkScopes_eq_ok_iff` reduces the check of a unit to its operations.
-/

namespace ScopedIR

/-- A way to break the discipline. -/
inductive ScopeViolation where
  | reentered (scope : String)
  | unbalancedExit (expected found : String)
  | exitWithoutEnter (scope : String)
  | registerOutside (object scope : String)
  /-- A departure that does not leave exactly the scopes it crosses; those still open are listed,
  the outermost first. -/
  | openAtDeparture (opcode : Opcode) (scopes : List String)
  | openAtEnd (block : String) (scopes : List String)
  | inconsistent (block : String)
  | unbalancedNested (context : String)
  | unprovenStackAllocation (instr : String)
deriving DecidableEq, Inhabited

/-- The name of the kind of a violation, for reports. -/
def ScopeViolation.kind : ScopeViolation → String
  | reentered _ => "ScopeReentered"
  | unbalancedExit .. => "UnbalancedExit"
  | exitWithoutEnter _ => "ExitWithoutEnter"
  | registerOutside .. => "RegisterOutsideScope"
  | openAtDeparture .. => "ScopesOpenAtDeparture"
  | openAtEnd .. => "ScopesOpenAtEnd"
  | inconsistent _ => "InconsistentScopes"
  | unbalancedNested _ => "UnbalancedNested"
  | unprovenStackAllocation _ => "UnprovenStackAllocation"

/-- What is wrong, in one sentence. -/
def ScopeViolation.reason : ScopeViolation → String
  | reentered scope => "scope `" ++ scope ++ "` entered more than once"
  | unbalancedExit expected found =>
    "exit of `" ++ found ++ "` while `" ++ expected ++ "` is innermost"
  | exitWithoutEnter scope => "exit of `" ++ scope ++ "` with no open scope"
  | registerOutside object scope =>
    "`" ++ object ++ "` registered to `" ++ scope ++ "`, which is not open"
  | openAtDeparture opcode scopes =>
    opcode.name ++ " does not leave exactly the scopes it crosses: " ++ Text.quotedList scopes
  | openAtEnd block scopes =>
    "block `" ++ block ++ "` ends with scopes open: " ++ Text.quotedList scopes
  | inconsistent block => "block `" ++ block ++ "` is reached with different open scopes"
  | unbalancedNested context => "nested " ++ context ++ " does not close the scopes it opens"
  | unprovenStackAllocation instr =>
    "`" ++ instr ++ "` is not backed by a non-escaping allocation"

/-- A violation in an operation. -/
structure ScopeError where
  operation : String
  violation : ScopeViolation
deriving DecidableEq, Inhabited

/-- The full message of an error. -/
def ScopeError.message (e : ScopeError) : String := e.operation ++ ": " ++ e.violation.reason

namespace ScopeCheck

/-- The scopes seen so far. -/
structure Scopes where
  /-- Every scope entered in the operation. -/
  entered : List String := []
  /-- The open scopes, innermost first. -/
  opened : List String := []
deriving DecidableEq, Inhabited

/-- How a list of instructions ends. -/
inductive Flow where
  /-- The list runs to its end. -/
  | fallThrough
  /-- A return or throw leaves the list. -/
  | departed
deriving DecidableEq, Inhabited

/-- A check of some code. The number is how many scopes are open at the innermost enclosing try
chain, which a throw unwinds to. -/
abbrev Step := Nat → Scopes → Except ScopeViolation (Flow × Scopes)

/-- Check one piece of code after the other, up to a departure. -/
def runAll : List Step → Step
  | [], _, s => .ok (.fallThrough, s)
  | step :: rest, boundary, s => do
    match ← step boundary s with
    | (.departed, s) => return (.departed, s)
    | (.fallThrough, s) => runAll rest boundary s

/-- A nested list starts with the enclosing scopes open and leaves them as it found them, unless it
departs. Either way the enclosing list goes on with its own scopes. -/
def nested (context : String) (list : List Step) (boundary : Nat) (s : Scopes) :
    Except ScopeViolation Scopes := do
  match ← runAll list boundary s with
  | (.departed, inner) => return { s with entered := inner.entered }
  | (.fallThrough, inner) =>
    if inner.opened = s.opened then return { s with entered := inner.entered }
    else .error (.unbalancedNested context)

/-- Check nested lists one after the other. -/
def nestedAll (context : String) : List (List Step) → Nat → Scopes → Except ScopeViolation Scopes
  | [], _, s => .ok s
  | list :: rest, boundary, s => do nestedAll context rest boundary (← nested context list boundary s)

/-- What the opcode of an instruction does to the open scopes. -/
def event (i : Instr) (boundary : Nat) (s : Scopes) : Except ScopeViolation (Flow × Scopes) :=
  let scope := i.scope?.getD ""
  match i.opcode with
  | .scopeEnter =>
    if scope ∈ s.entered then .error (.reentered scope)
    else .ok (.fallThrough, { entered := scope :: s.entered, opened := scope :: s.opened })
  | .scopeExit =>
    match s.opened with
    | [] => .error (.exitWithoutEnter scope)
    | top :: outer =>
      if top = scope then .ok (.fallThrough, { s with opened := outer })
      else .error (.unbalancedExit top scope)
  | .scopeRegister | .noScopeRegister =>
    if scope ∈ s.opened then .ok (.fallThrough, s)
    else .error (.registerOutside (i.object?.getD "") scope)
  | .ret =>
    if s.opened.length = 0 then .ok (.departed, s)
    else .error (.openAtDeparture .ret s.opened.reverse)
  | .throw =>
    if s.opened.length = boundary then .ok (.departed, s)
    else .error (.openAtDeparture .throw s.opened.reverse)
  | .stackAlloc | .stackAllocLiteral =>
    if i.escape.any (·.isStackCandidate) then .ok (.fallThrough, s)
    else .error (.unprovenStackAllocation i.text)
  | _ => .ok (.fallThrough, s)

/-- Check one instruction whose nested instructions are checks already. -/
def instr (i : Instr) (p : Payload Step) : Step := fun boundary s => do
  match ← event i boundary s with
  | (.departed, s) => return (.departed, s)
  | (.fallThrough, s) =>
    match p with
    | .plain | .call _ => return (.fallThrough, s)
    | .chain c =>
      let inside := if c.tryBlock.isSome then s.opened.length else boundary
      return (.fallThrough, ← nestedAll c.kind.name c.lists inside s)
    | .logical b => return (.fallThrough, ← nestedAll "logical block" b.lists boundary s)

end ScopeCheck

/-- The check of an instruction. -/
def Instr.checkScopes : Instr → ScopeCheck.Step := Instr.fold ScopeCheck.instr

theorem Instr.checkScopes_eq (i : Instr) :
    i.checkScopes = ScopeCheck.instr i (i.payload.map Instr.checkScopes) := Instr.fold_eq _ i

namespace ScopeCheck

/-- The check of a list of instructions. -/
def list (l : List Instr) : Step := runAll (l.map Instr.checkScopes)

/-- Hand the scopes open at the end of a block to its successors. A successor reached before must
have been reached with the same scopes. -/
def handOver (body : Body) (opened : List String) :
    List Nat → FinMap Nat (List String) → Except ScopeViolation (FinMap Nat (List String))
  | [], starts => .ok starts
  | b :: rest, starts =>
    match starts.get? b with
    | some known =>
      if known = opened then handOver body opened rest starts
      else .error (.inconsistent ((body.blocks.get? b).elim "" (·.label)))
    | none => handOver body opened rest (starts.insert b opened)

/-- Check blocks in the given order. A block starts with the scopes handed to it, or with none. -/
def blocks (body : Body) :
    List Nat → FinMap Nat (List String) → List String → Except ScopeViolation Unit
  | [], _, _ => .ok ()
  | b :: rest, starts, entered => do
    let block := (body.blocks.get? b).getD default
    match ← list block.instrs 0 { entered, opened := (starts.get? b).getD [] } with
    | (.departed, s) => blocks body rest starts s.entered
    | (.fallThrough, s) =>
      if block.succs.isEmpty && !s.opened.isEmpty then
        .error (.openAtEnd block.label s.opened.reverse)
      else
        let starts ← handOver body s.opened block.succs starts
        blocks body rest starts s.entered

/-- Check a body, from its entry in reverse postorder. -/
def body (body : Body) : Except ScopeViolation Unit :=
  let starts := body.entry?.elim .empty fun b => FinMap.empty.insert b []
  blocks body body.flow.order starts []

end ScopeCheck

/-- Check an operation. -/
def Operation.checkScopes (op : Operation) : Except ScopeError Unit :=
  match ScopeCheck.body op.body with
  | .ok () => .ok ()
  | .error violation => .error { operation := op.name, violation }

/-- An operation is accepted exactly when its body is. -/
theorem Operation.checkScopes_eq_ok_iff (op : Operation) :
    op.checkScopes = .ok () ↔ ScopeCheck.body op.body = .ok () := by
  unfold Operation.checkScopes
  cases ScopeCheck.body op.body <;> simp

/-- Check every operation of a unit; the first error counts. -/
def CodeUnit.checkScopes (u : CodeUnit) : Except ScopeError Unit :=
  u.operations.forM Operation.checkScopes

/-- A unit is accepted exactly when each of its operations is. -/
theorem CodeUnit.checkScopes_eq_ok_iff (u : CodeUnit) :
    u.checkScopes = .ok () ↔ ∀ op ∈ u.operations, op.checkScopes = .ok () := by
  unfold CodeUnit.checkScopes
  induction u.operations with
  | nil => simp [List.forM, pure, Except.pure]
  | cons op rest ih =>
    simp only [List.mem_cons, forall_eq_or_imp, ← ih]
    change (op.checkScopes >>= fun _ => rest.forM Operation.checkScopes) = .ok () ↔ _
    cases h : op.checkScopes with
    | error e => simp [bind, Except.bind]
    | ok _ => simp [bind, Except.bind]

end ScopedIR
