import ScopedIR.Defect
import ScopedIR.FinMap
import ScopedIR.Hierarchy
import ScopedIR.Location
import ScopedIR.Source.Module

/-!
# The state of lowering

What lowering keeps while it works on one operation: counters for fresh names, the scopes that are
open with the variables declared in them, and the try chains around. Every operation starts from the
state `{}`, so the same source always gets the same names.

Main definitions: `Setting`, which stays the same throughout, and `State` with its operations.
-/

namespace ScopedIR.Lowering

/-- What lowering is given and never changes. -/
structure Setting where
  /-- Whether to attach source locations. -/
  debug : Bool := false
  types : TypeOracle
  enums : List EnumType := []

/-- The enumeration with a name. -/
def Setting.enumType? (s : Setting) (name : String) : Option EnumType :=
  s.enums.find? fun e => e.name = name

/-- The location of a token, if locations are attached. -/
def Setting.location (s : Setting) (token : Option Location) : Option Location :=
  if s.debug then token else none

/-- A variable that is visible in a scope. -/
structure Variable where
  type : String
  isParam : Bool
deriving DecidableEq, Inhabited

/-- An open scope, with the variables declared in it. -/
structure ScopeFrame where
  id : String
  declared : FinMap String Variable := .empty
deriving DecidableEq, Inhabited

/-- An enclosing try chain. -/
structure HandlerFrame where
  /-- The number of scopes open at the chain, its own included. A throw exits those above. -/
  depth : Nat
  hasFinally : Bool
deriving DecidableEq, Inhabited

/-- The state of lowering one operation. -/
structure State where
  temps : Nat := 0
  scopeIds : Nat := 0
  labels : Nat := 0
  /-- The open scopes, innermost first. -/
  scopes : List ScopeFrame := []
  /-- The try chains around, innermost first. -/
  handlers : List HandlerFrame := []
  /-- How many finally blocks are around. -/
  finallyDepth : Nat := 0
deriving DecidableEq, Inhabited

namespace State

/-! ### Fresh names -/

variable (s : State)

/-- A fresh temporary. -/
def temp : String × State :=
  ("_temp" ++ Nat.repr (s.temps + 1), { s with temps := s.temps + 1 })

/-- A fresh scope. -/
def scopeId : String × State :=
  ("_scope_" ++ Nat.repr (s.scopeIds + 1), { s with scopeIds := s.scopeIds + 1 })

/-- A fresh label that begins with a given text. -/
def label (stem : String) : String × State :=
  (stem ++ "_" ++ Nat.repr (s.labels + 1), { s with labels := s.labels + 1 })

/-! ### Scopes -/

/-- Open a scope. -/
def enterScope (id : String) : State := { s with scopes := { id } :: s.scopes }

/-- Close a scope, which must be the innermost one. -/
def exitScope (id : String) : Except Defect State :=
  match s.scopes with
  | [] => .error (.exitWithoutScope id)
  | frame :: outer =>
    if frame.id = id then .ok { s with scopes := outer } else .error (.crossedExit id frame.id)

/-- The innermost scope. -/
def currentScope : Except Defect String :=
  match s.scopes with
  | [] => .error .noOpenScope
  | frame :: _ => .ok frame.id

/-- The open scopes, innermost first. -/
def openScopes : List String := s.scopes.map (·.id)

/-- The scopes a throw exits, innermost first: those opened since the innermost try chain, or all of
them outside one. -/
def scopesToHandler : List String :=
  match s.handlers with
  | [] => s.openScopes
  | handler :: _ => s.openScopes.take (s.scopes.length - handler.depth)

/-! ### Try chains -/

/-- Enter the protected part of a try chain whose scope is innermost. -/
def enterHandler (hasFinally : Bool) : State :=
  { s with handlers := { depth := s.scopes.length, hasFinally } :: s.handlers }

/-- Leave the protected part of a try chain. -/
def exitHandler : Except Defect State :=
  match s.handlers with
  | [] => .error .handlerNotOpen
  | _ :: outer => .ok { s with handlers := outer }

/-- Whether a return would skip a finally block. -/
def returnsPastFinally : Bool := s.handlers.any (·.hasFinally)

/-- Enter a finally block. -/
def enterFinally : State := { s with finallyDepth := s.finallyDepth + 1 }

/-- Leave a finally block. -/
def exitFinally : Except Defect State :=
  if s.finallyDepth = 0 then .error .finallyNotOpen
  else .ok { s with finallyDepth := s.finallyDepth - 1 }

/-- Whether a finally block is around. -/
def inFinally : Bool := s.finallyDepth ≠ 0

/-! ### Variables -/

/-- Declare a variable in the innermost scope. -/
def declare (name type : String) (isParam : Bool) : Except Defect State :=
  match s.scopes with
  | [] => .error .declaredOutsideScope
  | frame :: outer =>
    .ok { s with
      scopes := { frame with declared := frame.declared.insert name { type, isParam } } :: outer }

/-- The innermost declaration of a variable. -/
def lookup (name : String) : Option Variable :=
  s.scopes.findSome? fun frame => frame.declared.get? name

/-! ### The count of temporaries

Only `State.temp` changes it. -/

variable {s s' : State}

theorem temps_enterScope (s : State) (id : String) : (s.enterScope id).temps = s.temps := rfl

theorem temps_enterHandler (s : State) (hasFinally : Bool) :
    (s.enterHandler hasFinally).temps = s.temps := rfl

theorem temps_enterFinally (s : State) : s.enterFinally.temps = s.temps := rfl

theorem temps_exitScope {id : String} (h : s.exitScope id = .ok s') : s'.temps = s.temps := by
  unfold exitScope at h
  split at h
  · cases h
  · split at h <;> cases h
    rfl

theorem temps_exitHandler (h : s.exitHandler = .ok s') : s'.temps = s.temps := by
  unfold exitHandler at h
  split at h <;> cases h
  rfl

theorem temps_exitFinally (h : s.exitFinally = .ok s') : s'.temps = s.temps := by
  unfold exitFinally at h
  split at h <;> cases h
  rfl

theorem temps_declare {name type : String} {isParam : Bool}
    (h : s.declare name type isParam = .ok s') : s'.temps = s.temps := by
  unfold declare at h
  split at h <;> cases h
  rfl

end State

end ScopedIR.Lowering
