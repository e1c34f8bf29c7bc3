import ScopedIR.Symbol
import ScopedIR.Hierarchy

/-!
# Call sites

The resolved target of a call instruction, together with the facts about the callee that analyses
use. That an effect is absent is certain; that it is present is only a hint.
-/

namespace ScopedIR

/-- An effect a call may have. -/
inductive SideEffect where
  /-- The callee belongs to the capability of input and output. -/
  | io
  /-- The callee may change state that the caller observes. -/
  | mutation
deriving DecidableEq, Inhabited

/-- The name of an effect in rendered facts. -/
def SideEffect.name : SideEffect → String
  | .io => "IO"
  | .mutation => "MUTATION"

/-- The effect with a given name. -/
def SideEffect.ofName? (s : String) : Option SideEffect :=
  [.io, .mutation].find? fun e => SideEffect.name e = s

/-- What is known about the callee of one call. -/
structure CallFacts where
  isPure : Bool := false
  complexity : UInt32 := 0
  doesIo : Bool := false
  mutates : Bool := false
deriving DecidableEq, Inhabited

namespace CallFacts

/-- The facts with a given set of effects. -/
def ofEffects (isPure : Bool) (complexity : UInt32) (effects : List SideEffect) : CallFacts :=
  { isPure, complexity, doesIo := effects.contains .io, mutates := effects.contains .mutation }

/-- Facts for calls nothing is known about: impure and possibly mutating. -/
def conservative : CallFacts := { mutates := true }

/-- The effects, in order. -/
def effects (f : CallFacts) : List SideEffect :=
  (if f.doesIo then [.io] else []) ++ (if f.mutates then [.mutation] else [])

/-- The facts in one line. -/
def text (f : CallFacts) : String :=
  "[pure=" ++ Text.ofBool f.isPure ++ ", complexity=" ++ Nat.repr f.complexity.toNat
    ++ ", effects="
    ++ (if f.effects.isEmpty then "NONE"
        else String.intercalate "," (f.effects.map SideEffect.name)) ++ "]"

/-- The facts of a call to `s`: purity is taken as declared, input and output follows from the
owner, and returning a value may hide a mutation. -/
def ofSymbol (types : TypeOracle) (s : Symbol) : CallFacts :=
  { isPure := s.isPure
    complexity := s.complexity.getD 0
    doesIo := types s.owner TypeName.io
    mutates := s.returns ≠ TypeName.void }

end CallFacts

/-- The resolved target of a call instruction. -/
structure CallSite where
  /-- The receiver variable, or the type name for static calls and functions. -/
  target : String
  targetType : String
  method : String
  paramTypes : List String := []
  returnType : String
  args : List String := []
  facts : CallFacts := {}
  /-- Whether the receiver type is a trait. -/
  traitCall : Bool := false
deriving DecidableEq, Inhabited

namespace CallSite

/-- A call of the symbol `s` on `target`. -/
def ofSymbol (types : TypeOracle) (target : String) (s : Symbol) (args : List String) : CallSite :=
  { target
    targetType := s.owner
    method := s.name
    paramTypes := s.params
    returnType := s.returns
    args
    facts := CallFacts.ofSymbol types s
    traitCall := s.traitMember }

variable (c : CallSite)

/-- The call with one more argument. -/
def withArgument (name ty : String) : CallSite :=
  { c with args := c.args ++ [name], paramTypes := c.paramTypes ++ [ty] }

/-- Whether the call runs a constructor. -/
def isConstructor : Bool := c.method = Symbol.initName

/-- Whether the call is of an operator method; those start with an underscore. -/
def isOperator : Bool := c.method.toList.head? = some '_'

/-- Whether the call has a value to bind. -/
def hasResult : Bool := c.returnType ≠ TypeName.void

/-- The call as one operand, `target.method(arg, arg)`. -/
def operand : String :=
  c.target ++ "." ++ c.method ++ "(" ++ String.intercalate ", " c.args ++ ")"

end CallSite

end ScopedIR
