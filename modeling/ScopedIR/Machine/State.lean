import ScopedIR.FinMap
import ScopedIR.Machine.CallHandler
import ScopedIR.Machine.Heap

/-!
# The state of a run

Names are bound to objects, to primitives, or to nothing; open scopes remember what they have to
release; pending handlers wait for exceptions. An action changes this state and answers a value, or
halts the run.

Main definitions:

* `Machine`: the state;
* `Exec`: actions on it;
* `Exec.exitScope` and `Exec.unwind`: leaving scopes, which releases what they hold.
-/

namespace ScopedIR

/-- What a name is bound to. -/
inductive Binding where
  | null
  | object (id : ObjectId)
  | primitive (b : Bool)
deriving DecidableEq, Inhabited

/-- Where control goes after an instruction. -/
inductive Control where
  | next
  | jump (label : String)
  | ret (value : Option Binding)
  | throw (exception : Binding)
deriving DecidableEq, Inhabited

/-- A scope that was entered and not left. -/
structure OpenScope where
  id : String
  /-- The names registered to the scope, the latest first; they are resolved when it exits. -/
  registered : List String := []
deriving DecidableEq, Inhabited

/-- How lifetimes of objects are handled. -/
inductive MemoryModel where
  /-- Objects are counted as the scope instructions say. -/
  | arc
  /-- Scope and counting instructions are ignored. -/
  | gc
deriving DecidableEq, Inhabited

/-- The rules of a run: how lifetimes are handled, how many instructions may execute, and who
answers calls. -/
structure Config (σ : Type) where
  memory : MemoryModel := .arc
  maxSteps : Nat := 1000000
  handler : CallHandler σ

/-- The state of a run. -/
structure Machine (σ : Type) where
  heap : Heap := .empty
  vars : FinMap String Binding := .empty
  /-- The open scopes, innermost first. -/
  scopes : List OpenScope := []
  /-- The labels of the pending exception handlers, the latest first. -/
  handlers : List String := []
  /-- The block that control came from. -/
  previous : Option String := none
  /-- The number of instructions executed. -/
  steps : Nat := 0
  /-- The state of the call handler. -/
  calls : σ

/-- Why a run does not go on. -/
inductive Halt where
  | fault (f : Fault)
  /-- Control goes round forever and executes nothing. -/
  | diverged
deriving DecidableEq, Inhabited

/-- Actions of a run. -/
abbrev Exec (σ : Type) := EStateM Halt (Machine σ)

variable {σ : Type}

namespace Exec

/-- Halt with a fault. -/
def fail {α : Type} (f : Fault) : Exec σ α := throw (.fault f)

/-- The value of a computation that may fail. -/
def ofExcept {α : Type} : Except Fault α → Exec σ α
  | .ok a => return a
  | .error f => fail f

/-- The value of an optional answer; without one the run halts with a fault. -/
def ofOption {α : Type} (f : Fault) : Option α → Exec σ α
  | some a => return a
  | none => fail f

end Exec

/-- The parts of a name before and after its first dot: an object and one of its fields. -/
def fieldPath? (name : String) : Option (String × String) :=
  match name.toList.span (· ≠ '.') with
  | (holder, _ :: field) => some (String.ofList holder, String.ofList field)
  | (_, []) => none

namespace Machine

/-- The binding of a variable or temporary, or of a field written with a dot. -/
def lookup (m : Machine σ) (name : String) : Except Fault Binding :=
  match m.vars.get? name with
  | some binding => .ok binding
  | none =>
    match fieldPath? name with
    | some (holder, field) =>
      match m.vars.get? holder with
      | some (.object id) => do
        match ← m.heap.field id field with
        | some target => return .object target
        | none => return .null
      | _ => .error (.unbound name)
    | none => .error (.unbound name)

/-- The value of a binding; null has none, and a primitive is a Boolean. -/
def valueOf (m : Machine σ) : Binding → Except Fault (Option Value)
  | .null => .ok none
  | .object id => do return some (← m.heap.value id)
  | .primitive b => .ok (some (.boolean b))

/-- The name of the type of a binding; only objects have one. -/
def typeOf (m : Machine σ) : Binding → Except Fault String
  | .object id => do return (← m.heap.value id).typeName
  | .null | .primitive _ => .ok ""

/-- The scopes with `object` registered to the innermost one named `scope`. -/
def registerIn (scope object : String) : List OpenScope → Option (List OpenScope)
  | [] => none
  | s :: outer =>
    if s.id = scope then some ({ s with registered := object :: s.registered } :: outer)
    else (registerIn scope object outer).map (s :: ·)

end Machine

namespace Exec

/-- The binding of a name. -/
def lookup (name : String) : Exec σ Binding := do ofExcept ((← get).lookup name)

/-- The truth value of a name, which must be bound to a primitive. -/
def primitive (name : String) : Exec σ Bool := do
  match ← lookup name with
  | .primitive b => return b
  | .null | .object _ => fail (.notPrimitive name)

/-- Bind a name. -/
def assign (name : String) (binding : Binding) : Exec σ Unit :=
  modify fun m => { m with vars := m.vars.insert name binding }

/-- Bind the result of an instruction, if it has one. -/
def bindResult (result : Option String) (binding : Binding) : Exec σ Unit :=
  match result with
  | some name => assign name binding
  | none => return ()

/-- Update the heap. -/
def onHeap (f : Heap → Heap.Update) : Exec σ Unit := fun m =>
  match m with
  | { heap, vars, scopes, handlers, previous, steps, calls } =>
    match f heap with
    | (.ok (), heap) => .ok () { heap, vars, scopes, handlers, previous, steps, calls }
    | (.error fault, heap) =>
      .error (.fault fault) { heap, vars, scopes, handlers, previous, steps, calls }

/-- Add an object to the heap and answer its identity. -/
def allocate (f : Heap → Heap) : Exec σ ObjectId := fun m =>
  match m with
  | { heap, vars, scopes, handlers, previous, steps, calls } =>
    let id := heap.next
    .ok id { heap := f heap, vars, scopes, handlers, previous, steps, calls }

/-- Store a binding to a variable, or to a field written with a dot. A field holds an object or
nothing. -/
def store (target : String) (binding : Binding) : Exec σ Unit :=
  match fieldPath? target with
  | none => assign target binding
  | some (holder, field) => do
    match ← lookup holder with
    | .object id =>
      match binding with
      | .object value => onHeap (·.setField id field (some value))
      | .null => onHeap (·.setField id field none)
      | .primitive _ => fail (.unbound target)
    | .null | .primitive _ => fail (.nullHolder target)

/-- Release what the names of a scope are bound to, in the given order. -/
def releaseNames : List String → Exec σ Unit
  | [] => return ()
  | name :: rest => do
    match ← lookup name with
    | .object id => onHeap (·.release id)
    | .null | .primitive _ => pure ()
    releaseNames rest

/-- Leave the innermost scope, which must be the one named, and release what it holds, the latest
registration first. -/
def exitScope (scope : String) : Exec σ Unit := do
  match (← get).scopes with
  | [] => fail (.unknownScope scope)
  | innermost :: outer =>
    modify fun m => { m with scopes := outer }
    if innermost.id = scope then releaseNames innermost.registered
    else fail (.scopeMismatch innermost.id scope)

/-- Leave the given number of scopes, the innermost first, each by `leave`. -/
def exitScopes (leave : String → Exec σ Unit) : Nat → Exec σ Unit
  | 0 => return ()
  | n + 1 => do
    match (← get).scopes with
    | [] => return ()
    | innermost :: _ =>
      leave innermost.id
      exitScopes leave n

/-- Leave scopes until `depth` of them remain. -/
def unwind (leave : String → Exec σ Unit) (depth : Nat) : Exec σ Unit := do
  exitScopes leave ((← get).scopes.length - depth)

/-- Count an instruction, which must be within the limit. -/
def tick (limit : Nat) : Exec σ Unit := do
  modify fun m => { m with steps := m.steps + 1 }
  if limit < (← get).steps then fail (.stepLimit limit)

end Exec

end ScopedIR
