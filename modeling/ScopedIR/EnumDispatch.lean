/-!
# Dispatch over enumerations

Hints for a switch over an enumeration: the constants it tests with their ordinals, and whether the
ordinals lie close enough together for a jump table. The hints never change what a switch does.
-/

namespace ScopedIR

/-- The constants a switch tests, parallel to their ordinals. -/
structure EnumDispatch where
  enumType : String
  values : List String
  ordinals : List UInt32
  exhaustive : Bool
deriving DecidableEq, Inhabited

namespace EnumDispatch

variable (d : EnumDispatch)

/-- The number of ordinals between the least and the greatest, both included; zero without any. -/
def span : Nat :=
  match (d.ordinals.map UInt32.toNat).min?, (d.ordinals.map UInt32.toNat).max? with
  | some lo, some hi => hi - lo + 1
  | _, _ => 0

/-- The share of the span that the ordinals fill; zero without ordinals. -/
def density : Float :=
  if d.ordinals.isEmpty then 0 else Float.ofNat d.ordinals.length / Float.ofNat d.span

/-- Ordinals are dense when they fill at least half of their span. -/
def isDense : Bool :=
  !d.ordinals.isEmpty && d.span ≤ 2 * d.ordinals.length

/-- The least number of cases worth a jump table. -/
def jumpTableCases : Nat := 3

/-- Whether the switch could be a jump table. -/
def isJumpTableCandidate : Bool :=
  d.isDense && jumpTableCases ≤ d.ordinals.length

end EnumDispatch

end ScopedIR
