import ScopedIR.Escape.Placement
import ScopedIR.Pass.Registry

/-!
# The standard passes

The registry a compiler starts from, with the escape analysis, and scripted passes, which change
nothing and only report: they serve to watch the registry at work.
-/

namespace ScopedIR

/-- What the standard and the scripted passes keep. -/
structure PassStore where
  /-- Whether the escape analysis trusts calls marked as pure. -/
  pureCalls : Bool := true
  /-- The number of changes that each scripted pass has still to report. -/
  remaining : FinMap String Nat := .empty
  /-- What scripted passes wrote down, the latest first. -/
  log : List String := []
deriving DecidableEq, Inhabited

namespace PassStore

/-- The store before anything ran. -/
def start : PassStore := { remaining := .empty }

/-- Write something down. -/
def note (s : PassStore) (entry : String) : PassStore := { s with log := entry :: s.log }

end PassStore

namespace Pass

/-- The name of the escape analysis. -/
def escapeName : String := "escape-analysis"

/-- The parameter of the escape analysis: whether it trusts calls marked as pure. -/
def escapeParam : String := "escape-analysis-pure-calls"

/-- The escape analysis. A parameter that is no truth value leaves its setting as it was. -/
def escape : Pass PassStore where
  configure params s := { s with pureCalls := (params.getBool? escapeParam).getD s.pureCalls }
  transform op s :=
    let (op, changed) := op.analyseEscape s.pureCalls
    (.ok changed, op, s)

/-- A scripted pass. -/
structure Scripted where
  name : String
  /-- The number of changes to report. -/
  changes : Nat := 0
  /-- The operation to fail on. -/
  failOn : Option String := none
  /-- The parameter to read. -/
  reads : Option String := none
deriving DecidableEq, Inhabited

/-- The pass that a script describes. It writes down what it reads and what it is run on. -/
def scripted (script : Scripted) : Pass PassStore where
  configure params s :=
    match script.reads with
    | some param => s.note (script.name ++ " reads " ++ (params.get? param).getD "?")
    | none => s
  transform op s :=
    let s := s.note (script.name ++ " on " ++ op.name)
    if script.failOn = some op.name then (.error "scripted failure", op, s)
    else
      match s.remaining.get? script.name with
      | some (n + 1) => (.ok true, op, { s with remaining := s.remaining.insert script.name n })
      | _ => (.ok false, op, s)

end Pass

namespace Registry

/-- The registry with the standard passes. -/
def standard : Registry PassStore :=
  (empty.addParam Pass.escapeParam "true").register Pass.escapeName .escape []

/-- Register a scripted pass, which starts with all its changes to report. -/
def registerScripted (r : Registry PassStore) (script : Pass.Scripted) (requires : List String)
    (s : PassStore) : Registry PassStore × PassStore :=
  (r.register script.name (.scripted script) requires,
    { s with remaining := s.remaining.insert script.name script.changes })

end Registry

end ScopedIR
