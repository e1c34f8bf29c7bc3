import ScopedIR.Lowering.Code
import ScopedIR.Source.Expr

/-!
# Lowering expressions

The code of an expression, by recursion on its form.
-/

namespace ScopedIR

open Lowering

namespace Expr

mutual

/-- The code of an expression. -/
def lower : Expr → Code
  | literal info text =>
    ⟨info.type, do some <$> genLiteral (← Gen.location info.token) text info.type⟩
  | var info name => ⟨info.type, do some <$> genVar (← Gen.location info.token) name⟩
  | enumConstant info constant =>
    ⟨info.type, do some <$> genLiteral (← Gen.location info.token) constant info.type⟩
  | binary info op left right operator =>
    ⟨info.type, do
      genBinary (← Gen.location info.token) op (lower left) (lower right) operator⟩
  | unary info op operand operator =>
    ⟨info.type, do genUnary (← Gen.location info.token) op (lower operand) operator⟩
  | isSet info operand =>
    ⟨info.type, do
      let location ← Gen.location info.token
      let value ← (lower operand).value
      some <$> genIsSet location value operand.type⟩
  | logical info op left right =>
    ⟨info.type, do
      some <$> genLogical (← Gen.location info.token) op (lower left) (lower right)⟩
  | call info target symbol args =>
    ⟨info.type, do
      genApply (← Gen.location info.token) (lowerTarget target) symbol (lowerAll args)⟩
  | list info items =>
    ⟨info.type, do some <$> genList (← Gen.location info.token) (lowerAll items)⟩
  | field info object name =>
    ⟨info.type, do some <$> genVar (← Gen.location info.token) (object ++ "." ++ name)⟩

/-- The code of the target of a call. -/
def lowerTarget : Option Expr → Option Code
  | none => none
  | some e => some (lower e)

/-- The code of each expression of a list. -/
def lowerAll : List Expr → List Code
  | [] => []
  | e :: rest => lower e :: lowerAll rest

end

/-- The code of an expression has its type. -/
theorem type_lower (e : Expr) : (lower e).type = e.type := by
  cases e <;> simp [lower, type, info]

/-- Arguments are lowered one by one. -/
theorem lowerAll_eq_map (l : List Expr) : lowerAll l = l.map lower := by
  induction l with
  | nil => simp [lowerAll]
  | cons e rest ih => simp [lowerAll, ih]

/-- A target is lowered like any expression. -/
theorem lowerTarget_eq_map (t : Option Expr) : lowerTarget t = t.map lower := by
  cases t <;> simp [lowerTarget]

end Expr

end ScopedIR
