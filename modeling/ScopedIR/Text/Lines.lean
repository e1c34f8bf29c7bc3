/-!
# Lines

The pieces that rendered code is put together from.
-/

namespace ScopedIR.Text

/-- A text as a line of its own. -/
def line (s : String) : String := s ++ "\n"

/-- An optional line: a label and a text. -/
def fieldLine? (label : String) : Option String → String
  | some s => line (label ++ ": " ++ s)
  | none => ""

/-- A labelled list, one item per line between brackets. -/
def listing (label : String) (items : List String) : String :=
  line (label ++ ":") ++ line "[" ++ String.join (items.map line) ++ line "]"

/-- A text between quotation marks, nothing escaped. -/
def inQuotes (s : String) : String := "\"" ++ s ++ "\""

/-- The text of an optional part. -/
def part {α : Type} (o : Option α) (render : α → String) : String :=
  match o with
  | some a => render a
  | none => ""

end ScopedIR.Text
