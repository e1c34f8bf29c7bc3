/-!
# Source locations

The place of a token in a source file. Lines and columns count from one; line zero marks a token
that was synthesized and has no place.
-/

namespace ScopedIR

/-- A place in a source file, with the text written there if it is known. -/
structure Location where
  file : String
  line : Nat
  column : Nat
  text : Option String := none
deriving DecidableEq, Inhabited

namespace Location

/-- Whether the location refers to an actual place. -/
def isValid (l : Location) : Bool := l.line > 0 && !l.file.isEmpty

/-- The location as a trailing comment. -/
def comment (l : Location) : String :=
  "// " ++ l.file ++ ":" ++ Nat.repr l.line ++ ":" ++ Nat.repr l.column

/-- What a valid location adds to the end of a rendered line. -/
def suffix : Option Location → String
  | some l => if l.isValid then "  " ++ l.comment else ""
  | none => ""

end Location

end ScopedIR
