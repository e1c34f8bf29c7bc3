import ScopedIR.Text.Combining
import ScopedIR.Text.Printable

/-!
# Quoted texts

How texts are quoted in messages: between double quotation marks, with the quotation mark, the
backslash, characters that are not printable and combining characters escaped.
-/

namespace ScopedIR.Text

/-- The hexadecimal digits of `n`, in lower case. -/
def hexDigits (n : Nat) : String := String.ofList (Nat.toDigits 16 n)

/-- Whether `c` is drawn by itself, and so needs no escape to be seen. -/
def isVisible (c : Char) : Bool := isPrintable c && !isCombining c

/-- One character inside quotation marks. Characters that are not visible and have no short escape
are written as their code points. -/
def quotedChar (c : Char) : String :=
  if c = '"' then "\\\""
  else if c = '\\' then "\\\\"
  else if c = '\n' then "\\n"
  else if c = '\t' then "\\t"
  else if c = '\r' then "\\r"
  else if c.toNat = 0 then "\\0"
  else if isVisible c then String.singleton c
  else "\\u\x7b" ++ hexDigits c.toNat ++ "\x7d"

/-- A text between quotation marks. -/
def quoted (s : String) : String := "\"" ++ String.join (s.toList.map quotedChar) ++ "\""

/-- A list of quoted texts between brackets. -/
def quotedList (l : List String) : String := "[" ++ String.intercalate ", " (l.map quoted) ++ "]"

end ScopedIR.Text
