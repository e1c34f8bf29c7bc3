import ScopedIR.Bijection

/-!
# Operators

The fixed table between the operators of the source language and the methods they stand for.
-/

namespace ScopedIR

/-- What is known about an operator whatever type defines it. -/
structure Operator where
  symbol : String
  method : String
  isPure : Bool
  takesArgument : Bool
  returnsValue : Bool
deriving DecidableEq, Inhabited

namespace Operator

/-- A pure operator of two operands. -/
def pureBinary (symbol method : String) : Operator := ⟨symbol, method, true, true, true⟩

/-- A pure operator of one operand. -/
def pureUnary (symbol method : String) : Operator := ⟨symbol, method, true, false, true⟩

/-- An operator that changes its receiver by an argument. -/
def mutator (symbol method : String) : Operator := ⟨symbol, method, false, true, false⟩

/-- An operator that moves its receiver by one. -/
def stepper (symbol method : String) : Operator := ⟨symbol, method, false, false, true⟩

/-- Every operator. -/
def all : List Operator :=
  -- comparison
  [pureBinary "<" "_lt", pureBinary "<=" "_lteq", pureBinary ">" "_gt", pureBinary ">=" "_gteq",
   pureBinary "==" "_eq", pureBinary "<>" "_neq", pureBinary "<=>" "_cmp",
   pureBinary "<~>" "_fuzzy",
   -- shifts
   pureBinary "<<" "_shftl", pureBinary ">>" "_shftr",
   -- mutation
   mutator ":=:" "_copy", mutator ":^:" "_replace", mutator ":~:" "_merge", mutator "|" "_pipe",
   mutator "+=" "_addAss", mutator "-=" "_subAss", mutator "*=" "_mulAss", mutator "/=" "_divAss",
   stepper "++" "_inc", stepper "--" "_dec",
   -- arithmetic
   pureBinary "+" "_add", pureBinary "-" "_sub", pureBinary "*" "_mul", pureBinary "/" "_div",
   pureBinary "^" "_pow", pureBinary "mod" "_mod", pureBinary "rem" "_rem",
   pureUnary "~" "_negate", pureUnary "!" "_fac", pureUnary "abs" "_abs", pureUnary "sqrt" "_sqrt",
   -- logic
   pureBinary "and" "_and", pureBinary "or" "_or", pureBinary "xor" "_xor",
   -- state and conversion
   pureUnary "?" "_isSet", pureUnary "$" "_string", pureUnary "$$" "_json",
   pureUnary "#?" "_hashcode", pureUnary "#^" "_promote", pureUnary "#<" "_prefix",
   pureUnary "#>" "_suffix", pureUnary "empty" "_empty", pureUnary "length" "_len",
   ⟨"close", "_close", true, false, false⟩,
   -- collections and queries
   pureUnary "sort" "_sort", pureUnary "filter" "_filter", pureUnary "collect" "_collect",
   pureUnary "map" "_map", pureUnary "group" "_group", pureUnary "split" "_split",
   pureUnary "head" "_head", pureUnary "tail" "_tail",
   pureBinary "contains" "_contains", pureBinary "matches" "_matches"]

/-- The table between operators and methods. -/
def table : Bijection String String := Bijection.ofList (all.map fun o => (o.symbol, o.method))

/-- The method an operator stands for. -/
def methodFor? (symbol : String) : Option String := table.get? symbol

/-- The operator a method implements. -/
def symbolFor? (method : String) : Option String := table.getRev? method

/-- What is known about an operator. -/
def find? (symbol : String) : Option Operator := all.find? fun o => o.symbol = symbol

/-- Whether an operator takes an argument beside its receiver. -/
def expectsArgument (symbol : String) : Bool :=
  match find? symbol with
  | some o => o.takesArgument
  | none => false

/-- Whether an operator changes its receiver: those that end in an equals sign and compare nothing,
and the explicit mutators. -/
def mutatesReceiver (symbol : String) : Bool :=
  let comparisons := [">=", "<=", "==", "<>"]
  let mutators := [":=:", ":^:", ":~:", "|", "++", "--"]
  (symbol.toList.getLast? = some '=' && symbol ∉ comparisons) || symbol ∈ mutators

end Operator

end ScopedIR
