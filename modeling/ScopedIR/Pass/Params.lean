import ScopedIR.FinMap
import ScopedIR.Text.Numeral

/-!
# Parameters of passes

Named parameters, kept as text the way they arrive from a command line. A parameter has a declared
default and a current value, which starts as the default.
-/

namespace ScopedIR

/-- A declared parameter. -/
structure Param where
  default : String
  value : String
deriving DecidableEq, Inhabited

/-- The declared parameters by name. -/
structure Params where
  entries : FinMap String Param := .empty
deriving DecidableEq, Inhabited

namespace Params

/-- No parameters. -/
def empty : Params := { entries := .empty }

variable (p : Params)

/-- Declare a parameter. One declared before is forgotten. -/
def declare (name default : String) : Params :=
  ⟨p.entries.insert name { default, value := default }⟩

/-- Give a declared parameter a value; an undeclared one is ignored. -/
def assign (name value : String) : Params :=
  match p.entries.get? name with
  | some param => ⟨p.entries.insert name { param with value }⟩
  | none => p

/-- The value of a parameter. -/
def get? (name : String) : Option String := (p.entries.get? name).map (·.value)

/-- The value of a parameter as a truth value, if it is one. -/
def getBool? (name : String) : Option Bool := (p.get? name).bind Text.readBool

/-- The value of a parameter as an integer, if it is one. -/
def getInt? (name : String) : Option Int64 := (p.get? name).bind Text.readInt64

/-- The names of the parameters, sorted. -/
def names : List String := p.entries.keys.mergeSort

/-- The names of the parameters with their defaults, sorted. -/
def defaults : List (String × String) :=
  p.names.filterMap fun name => (p.entries.get? name).map fun param => (name, param.default)

end Params

end ScopedIR
