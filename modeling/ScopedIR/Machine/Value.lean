import ScopedIR.Text.Numeral
import ScopedIR.TypeName

/-!
# Values

The values that objects hold while code runs, their types and texts, and the reading of literals.
-/

namespace ScopedIR

/-- The value of an object. -/
inductive Value where
  | boolean (b : Bool)
  | integer (n : Int64)
  | string (s : String)
  | list (items : List Value)
  /-- A position in a snapshot of a list. -/
  | iterator (items : List Value) (next : Nat)
  /-- An enumeration constant or an object of a type without built-in methods; such values are told
  apart by their type and text. -/
  | other (type text : String)
deriving Inhabited

namespace Value

/-- The name of the type of a value. -/
def typeName : Value → String
  | boolean _ => TypeName.boolean
  | integer _ => TypeName.integer
  | string _ => TypeName.string
  | list _ => TypeName.list
  | iterator _ _ => TypeName.iterator
  | other type _ => type

/-! ### Equality -/

mutual

/-- Whether two values are equal. -/
def same : Value → Value → Bool
  | boolean a, boolean b => a = b
  | integer a, integer b => a = b
  | string a, string b => a = b
  | list a, list b => sameAll a b
  | iterator a i, iterator b j => sameAll a b && i = j
  | other t a, other u b => t = u && a = b
  | _, _ => false

/-- Whether two lists of values are equal. -/
def sameAll : List Value → List Value → Bool
  | [], [] => true
  | a :: as, b :: bs => same a b && sameAll as bs
  | _, _ => false

end

mutual

theorem same_iff : ∀ a b : Value, same a b = true ↔ a = b
  | boolean _, b => by cases b <;> simp [same]
  | integer _, b => by cases b <;> simp [same]
  | string _, b => by cases b <;> simp [same]
  | list a, b => by cases b <;> simp [same, sameAll_iff a]
  | iterator a _, b => by cases b <;> simp [same, sameAll_iff a]
  | other _ _, b => by cases b <;> simp [same]

theorem sameAll_iff : ∀ a b : List Value, sameAll a b = true ↔ a = b
  | [], b => by cases b <;> simp [sameAll]
  | a :: as, b => by cases b <;> simp [sameAll, same_iff a, sameAll_iff as]

end

instance : DecidableEq Value := fun a b => decidable_of_iff _ (same_iff a b)

/-! ### Texts -/

mutual

/-- The readable form of a value. -/
def text : Value → String
  | boolean b => Text.ofBool b
  | integer n => Text.ofInt64 n
  | string s => "\"" ++ s ++ "\""
  | list items => "[" ++ String.intercalate ", " (texts items) ++ "]"
  | iterator items next =>
    "<iterator " ++ Nat.repr next ++ "/" ++ Nat.repr items.length ++ ">"
  | other _ text => text

/-- The readable forms of the values in a list. -/
def texts : List Value → List String
  | [] => []
  | v :: rest => text v :: texts rest

end

/-- The text between the quotation marks of a literal; a text that is not enclosed by a pair of
them stands for itself. -/
def unquote (s : String) : String :=
  match s.toList with
  | '"' :: rest => if rest.getLast? = some '"' then String.ofList rest.dropLast else s
  | _ => s

/-- The value of a literal of a given type. Every text is a literal of a type without built-in
literals. -/
def ofLiteral? (literal type : String) : Option Value :=
  if type = TypeName.integer then (Text.readInt64 literal).map .integer
  else if type = TypeName.boolean then (Text.readBool literal).map .boolean
  else if type = TypeName.string then some (.string (unquote literal))
  else some (.other type literal)

end Value

end ScopedIR
