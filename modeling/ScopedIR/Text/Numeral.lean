import ScopedIR.Text.Blank

/-!
# Numerals

Readers for the decimal numerals and truth values that literals, parameters and annotations are
written in. A numeral is an optional sign followed by one or more decimal digits; a numeral whose
value lies outside the range of its type is refused.
-/

namespace ScopedIR.Text

/-- The value of one or more decimal digits. -/
def readDigits (ds : List Char) : Option Nat :=
  if ds ≠ [] ∧ ds.all Char.isDigit then some (Nat.ofDigitChars 10 ds 0) else none

/-- An unsigned numeral; a leading `+` is allowed, a `-` is not. -/
def readNat : List Char → Option Nat
  | '+' :: ds => readDigits ds
  | ds => readDigits ds

/-- A signed numeral. -/
def readInt : List Char → Option Int
  | '-' :: ds => (readDigits ds).map fun n => -(n : Int)
  | '+' :: ds => (readDigits ds).map fun n => (n : Int)
  | ds => (readDigits ds).map fun n => (n : Int)

/-- The 64-bit integer equal to `z`, if there is one. -/
def int64? (z : Int) : Option Int64 :=
  if Int64.minValue.toInt ≤ z ∧ z ≤ Int64.maxValue.toInt then some (Int64.ofInt z) else none

/-- The integer that is found is the one asked for. -/
theorem toInt_of_int64? {z : Int} {n : Int64} (h : int64? z = some n) : n.toInt = z := by
  unfold int64? at h
  split at h
  · next hz =>
    cases h
    exact Int64.toInt_ofInt_of_le hz.1 (Int.lt_of_le_of_lt hz.2 (by decide))
  · cases h

/-- The 32-bit unsigned integer equal to `n`, if there is one. -/
def uint32? (n : Nat) : Option UInt32 :=
  if n < UInt32.size then some (UInt32.ofNat n) else none

/-- A signed numeral of 64 bits. -/
def readInt64 (s : String) : Option Int64 := (readInt s.toList).bind int64?

/-- An unsigned numeral of 32 bits. -/
def readUInt32 (cs : List Char) : Option UInt32 := (readNat cs).bind uint32?

/-- A truth value, `true` or `false`. -/
def readBool (s : String) : Option Bool :=
  if s = "true" then some true else if s = "false" then some false else none

/-- The text of a truth value. -/
def ofBool (b : Bool) : String := if b then "true" else "false"

/-- The decimal text of a 64-bit integer. -/
def ofInt64 (n : Int64) : String := Int.repr n.toInt

/-- A score written in an annotation: blanks around the numeral do not count, and a text that is
no numeral of 32 bits has score zero. -/
def readScore (raw : String) : UInt32 := (readUInt32 (trimBlanks raw.toList)).getD 0

@[simp] theorem readBool_ofBool (b : Bool) : readBool (ofBool b) = some b := by
  cases b <;> decide

end ScopedIR.Text
