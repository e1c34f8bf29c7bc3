/-!
# Character classes by code points

A class of characters is written as the lengths of its runs: so many code points are outside of it, so
many inside, and so on in turn. The tables hold properties of the Unicode standard.
-/

namespace ScopedIR.Text

/-- Lengths of runs of code points, in turn outside and inside of a class, from code point zero on.
What comes behind the last run is outside. -/
abbrev CodeRuns := List Nat

/-- Whether the code point that is `n` behind the start of the runs is inside. -/
def CodeRuns.covers : CodeRuns → Nat → Bool
  | outside :: inside :: rest, n =>
    if n < outside then false
    else if n < outside + inside then true
    else covers rest (n - (outside + inside))
  | _, _ => false

end ScopedIR.Text
