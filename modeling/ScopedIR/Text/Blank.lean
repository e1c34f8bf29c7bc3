import ScopedIR.Text.CodeRuns

/-!
# Blank characters

The characters with the Unicode property `White_Space`, and the removal of blanks at both ends of a
text.
-/

namespace ScopedIR.Text

/-- The code points of blanks. -/
def blankRuns : CodeRuns :=
  [9, 5, 18, 1, 100, 1, 26, 1, 5599, 1, 2431, 11, 29, 2, 5, 1, 47, 1, 4000, 1]

/-- Whether `c` is a blank. -/
def isBlank (c : Char) : Bool := blankRuns.covers c.toNat

/-- The characters between the first and the last that is no blank. -/
def trimBlanks (cs : List Char) : List Char :=
  ((cs.dropWhile isBlank).reverse.dropWhile isBlank).reverse

end ScopedIR.Text
