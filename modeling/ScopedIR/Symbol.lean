import ScopedIR.Text.Numeral
import ScopedIR.TypeName

/-!
# Resolved callees

A symbol is a method, function or operator as semantic analysis resolved it, with what is known of
its purity and complexity.
-/

namespace ScopedIR

/-- How a callee is invoked. -/
inductive Dispatch where
  /-- On a receiver object. -/
  | method
  /-- On a type: functions, constructors and static members. -/
  | static
  /-- Through a dispatcher that selects the overload at run time. -/
  | dispatcher
deriving DecidableEq, Inhabited

namespace Dispatch

/-- Every way, in order. -/
def all : List Dispatch := [method, static, dispatcher]

/-- The name of a way. -/
def name : Dispatch → String
  | method => "method"
  | static => "static"
  | dispatcher => "dispatcher"

/-- The way with a given name. -/
def ofName? (s : String) : Option Dispatch := all.find? fun d => d.name = s

end Dispatch

/-- A resolved method, function or operator. -/
structure Symbol where
  name : String
  owner : String
  params : List String := []
  returns : String
  isPure : Bool := false
  complexity : Option UInt32 := none
  traitMember : Bool := false
  dispatch : Dispatch := .method
deriving DecidableEq, Inhabited

namespace Symbol

/-- The name that marks constructors. -/
def initName : String := "<init>"

/-- A method `name` of type `owner`. -/
def method (owner name returns : String) : Symbol := { name, owner, returns }

/-- A function, called through its `_call` method on the function type. -/
def function (owner returns : String) : Symbol :=
  { name := "_call", owner, returns, dispatch := .static }

/-- The constructor of `ty`. -/
def constructor (ty : String) : Symbol :=
  { name := initName, owner := ty, returns := ty, dispatch := .static }

/-- The symbol marked as pure. -/
def asPure (s : Symbol) : Symbol := { s with isPure := true }

/-- The symbol with the given parameter types. -/
def withParams (s : Symbol) (params : List String) : Symbol := { s with params }

/-- The symbol with the complexity read from an annotation. -/
def withAnnotation (s : Symbol) (raw : String) : Symbol :=
  { s with complexity := some (Text.readScore raw) }

/-- Whether calling the symbol constructs an object. -/
def isConstructor (s : Symbol) : Bool := s.name = initName

end Symbol

end ScopedIR
