import ScopedIR.Machine.CallHandler

/-!
# Built-in methods

The operator methods of Integer, Boolean and String, and the methods of List and Iterator that loops
over collections are lowered to. Objects of other types can be constructed, compared for equality,
asked whether they are set, and turned into text. Any other method is unknown.

Integer arithmetic is exact: a result outside the range of 64 bits is a failure, never a wrapped
value.
-/

namespace ScopedIR.Builtin

variable (site : CallSite)

/-- A failed call, with the call and what went wrong. -/
def failed {α : Type} (what : String) : Except Fault α :=
  .error (.callFailed ("`" ++ site.operand ++ "` " ++ what))

/-- The integer equal to `z`; there may be none of 64 bits. -/
def exact (z : Int) : Except Fault Int64 :=
  match Text.int64? z with
  | some n => .ok n
  | none => failed site "overflowed"

/-- The first argument, which must be an Integer. -/
def integerArg : List (Option Value) → Except Fault Int64
  | some (.integer n) :: _ => .ok n
  | _ => failed site "expects an Integer argument"

/-- The first argument, which must be a Boolean. -/
def booleanArg : List (Option Value) → Except Fault Bool
  | some (.boolean b) :: _ => .ok b
  | _ => failed site "expects a Boolean argument"

/-- The first argument, which must be a String. -/
def stringArg : List (Option Value) → Except Fault String
  | some (.string s) :: _ => .ok s
  | _ => failed site "expects a String argument"

/-- Division in one of its forms, given as a function on exact integers. The divisor must not be
zero, and the least integer cannot be divided by minus one. -/
def divide (op : Int → Int → Int) (a : Int64) (args : List (Option Value)) :
    Except Fault Int64 := do
  let b ← integerArg site args
  if b = 0 then failed site "divides by zero"
  else if a = Int64.minValue ∧ b = -1 then failed site "overflowed"
  else exact site (op a.toInt b.toInt)

/-- Three-way comparison: minus one, zero or one. -/
def compareInt (a b : Int64) : Int64 := if a < b then -1 else if a = b then 0 else 1

/-- The methods of Integer. -/
def integerCall (a : Int64) (args : List (Option Value)) :
    Except Fault Value :=
  match site.method with
  | "_add" => do return .integer (← exact site (a.toInt + (← integerArg site args).toInt))
  | "_sub" => do return .integer (← exact site (a.toInt - (← integerArg site args).toInt))
  | "_mul" => do return .integer (← exact site (a.toInt * (← integerArg site args).toInt))
  | "_div" => do return .integer (← divide site Int.tdiv a args)
  | "_mod" => do return .integer (← divide site Int.emod a args)
  | "_rem" => do return .integer (← divide site Int.tmod a args)
  | "_lt" => do return .boolean (a < (← integerArg site args))
  | "_lteq" => do return .boolean (a ≤ (← integerArg site args))
  | "_gt" => do return .boolean ((← integerArg site args) < a)
  | "_gteq" => do return .boolean ((← integerArg site args) ≤ a)
  | "_eq" => do return .boolean (a = (← integerArg site args))
  | "_neq" => do return .boolean (a ≠ (← integerArg site args))
  | "_cmp" => do return .integer (compareInt a (← integerArg site args))
  | "_negate" => do return .integer (← exact site (-a.toInt))
  | "_inc" => do return .integer (← exact site (a.toInt + 1))
  | "_dec" => do return .integer (← exact site (a.toInt - 1))
  | "_abs" => do return .integer (← exact site a.toInt.natAbs)
  | "_string" => .ok (.string (Text.ofInt64 a))
  | "_hashcode" => .ok (.integer a)
  | method => .error (.unknownMethod TypeName.integer method)

/-- The methods of Boolean. The two that yield primitives are what conditions branch on. A
conjunction that is decided by the receiver does not look at its argument, nor does a
disjunction. -/
def booleanCall (a : Bool) (args : List (Option Value)) :
    Except Fault CallOutcome :=
  match site.method with
  | "_true" => .ok (.primitive a)
  | "_false" => .ok (.primitive !a)
  | "_not" => .ok (.object (.boolean !a))
  | "_and" => if a then do return .object (.boolean (← booleanArg site args))
      else .ok (.object (.boolean false))
  | "_or" => if a then .ok (.object (.boolean true))
      else do return .object (.boolean (← booleanArg site args))
  | "_xor" => do return .object (.boolean (a != (← booleanArg site args)))
  | "_eq" => do return .object (.boolean (a == (← booleanArg site args)))
  | "_neq" => do return .object (.boolean (a != (← booleanArg site args)))
  | "_string" => .ok (.object (.string (Text.ofBool a)))
  | "_hashcode" => .ok (.object (.integer (if a then 1 else 0)))
  | method => .error (.unknownMethod TypeName.boolean method)

/-- The methods of String. Texts are compared by their code points. -/
def stringCall (a : String) (args : List (Option Value)) : Except Fault Value :=
  match site.method with
  | "_add" => do return .string (a ++ (← stringArg site args))
  | "_eq" => do return .boolean (a = (← stringArg site args))
  | "_neq" => do return .boolean (a ≠ (← stringArg site args))
  | "_lt" => do return .boolean (a < (← stringArg site args))
  | "_gt" => do return .boolean ((← stringArg site args) < a)
  | "_len" => .ok (.integer (Int64.ofNat a.length))
  | "_empty" => .ok (.boolean a.isEmpty)
  | "_string" => .ok (.string a)
  | method => .error (.unknownMethod TypeName.string method)

/-- The methods of List. Appending changes the receiver; an iterator works on a snapshot. -/
def listCall (items : List Value) (args : List (Option Value)) :
    Except Fault CallReply :=
  let unchanged (v : Value) : Except Fault CallReply :=
    .ok { outcome := .object v, receiver := .object (.list items) }
  match site.method with
  | "_addAss" =>
    match args with
    | some item :: _ => .ok { outcome := .void, receiver := .object (.list (items ++ [item])) }
    | _ => failed site "needs an item"
  | "_len" => unchanged (.integer (Int64.ofNat items.length))
  | "_empty" => unchanged (.boolean items.isEmpty)
  | "iterator" => unchanged (.iterator items 0)
  | "_string" => unchanged (.string (Value.list items).text)
  | method => .error (.unknownMethod TypeName.list method)

/-- The methods of Iterator. Taking the next item moves the receiver on. -/
def iteratorCall (items : List Value) (next : Nat) : Except Fault CallReply :=
  match site.method with
  | "hasNext" =>
    .ok { outcome := .object (.boolean (next < items.length))
          receiver := .object (.iterator items next) }
  | "next" =>
    match items[next]? with
    | some item =>
      .ok { outcome := .object item, receiver := .object (.iterator items (next + 1)) }
    | none => failed site "past the end"
  | method => .error (.unknownMethod TypeName.iterator method)

/-- The methods of objects without built-in methods of their own: equality of texts, and the text. -/
def otherCall (type text : String) (args : List (Option Value)) :
    Except Fault Value :=
  let equal : Bool :=
    match args with
    | some (.other _ text') :: _ => text' = text
    | _ => false
  match site.method with
  | "_eq" => .ok (.boolean equal)
  | "_neq" => .ok (.boolean !equal)
  | "_string" => .ok (.string text)
  | method => .error (.unknownMethod type method)

/-- Calls on a type: construction, and the identity on Booleans. -/
def staticCall (args : List (Option Value)) : Except Fault CallOutcome :=
  match site.method with
  | "<init>" => .ok (.object (.other site.targetType site.targetType))
  | "_of" =>
    if site.targetType = TypeName.boolean then
      match args with
      | some (.boolean b) :: _ => .ok (.object (.boolean b))
      | _ => .error (.callFailed site.operand)
    else .error (.unknownMethod site.targetType "_of")
  | method => .error (.unknownMethod site.targetType method)

/-- Calls on an object. Every object is set. Construction finds the object allocated already and
only turns an object of type List into an empty list. -/
def objectCall (v : Value) (args : List (Option Value)) :
    Except Fault CallReply :=
  let unchanged (outcome : CallOutcome) : CallReply := { outcome, receiver := .object v }
  if site.method = "_isSet" then .ok (unchanged (.object (.boolean true)))
  else if site.method = "<init>" then
    .ok { outcome := .void
          receiver := .object (if v.typeName = TypeName.list then .list [] else v) }
  else
    match v with
    | .list items => listCall site items args
    | .iterator items next => iteratorCall site items next
    | .integer n => do return unchanged (.object (← integerCall site n args))
    | .boolean b => do return unchanged (← booleanCall site b args)
    | .string s => do return unchanged (.object (← stringCall site s args))
    | .other type text => do return unchanged (.object (← otherCall site type text args))

/-- The answer to a call. A null receiver is not set and has no other method. -/
def respond (receiver : Receiver) (args : List (Option Value)) :
    Except Fault CallReply :=
  match receiver with
  | .static => do return { outcome := ← staticCall site args, receiver := .static }
  | .null =>
    if site.method = "_isSet" then .ok { outcome := .object (.boolean false), receiver := .null }
    else .error (.nullReceiver site.method)
  | .object v => objectCall site v args

/-- The handler that counts the calls it answers. -/
def handler : CallHandler Nat := fun site receiver args calls =>
  (respond site receiver args, calls + 1)

end ScopedIR.Builtin
