import ScopedIR.Instr
import ScopedIR.Location
import ScopedIR.Symbol

/-!
# Typed expressions

Expressions as semantic analysis leaves them: every expression has its type, and operators and calls
know what they were resolved to.
-/

namespace ScopedIR

/-- What every expression carries: its resolved type, and where it was written. -/
structure ExprInfo where
  type : String
  token : Option Location := none
deriving DecidableEq, Inhabited

/-- A typed expression. -/
inductive Expr where
  /-- The text of a literal as written. -/
  | literal (info : ExprInfo) (text : String)
  | var (info : ExprInfo) (name : String)
  /-- A constant of an enumeration type. -/
  | enumConstant (info : ExprInfo) (constant : String)
  /-- A binary operator, resolved to a method of the left operand. -/
  | binary (info : ExprInfo) (op : String) (left right : Expr) (operator : Symbol)
  /-- A unary operator, resolved to a method of the operand. -/
  | unary (info : ExprInfo) (op : String) (operand : Expr) (operator : Symbol)
  /-- Whether the operand has a value. -/
  | isSet (info : ExprInfo) (operand : Expr)
  /-- A conjunction or disjunction; the right operand is evaluated only if it matters. -/
  | logical (info : ExprInfo) (op : LogicalOp) (left right : Expr)
  /-- A method call on a target, or a function or constructor call without one. -/
  | call (info : ExprInfo) (target : Option Expr) (symbol : Symbol) (args : List Expr)
  /-- A new list of the items. -/
  | list (info : ExprInfo) (items : List Expr)
  | field (info : ExprInfo) (object field : String)

namespace Expr

instance : Inhabited Expr := ⟨.literal default ""⟩

/-- The type and place of an expression. -/
def info : Expr → ExprInfo
  | literal info _ | var info _ | enumConstant info _ | binary info .. | unary info ..
  | isSet info _ | logical info .. | call info .. | list info _ | field info .. => info

/-- The resolved type. -/
def type (e : Expr) : String := e.info.type

/-- The expression with another type and place. -/
def withInfo (info : ExprInfo) : Expr → Expr
  | literal _ text => literal info text
  | var _ name => var info name
  | enumConstant _ constant => enumConstant info constant
  | binary _ op left right operator => binary info op left right operator
  | unary _ op operand operator => unary info op operand operator
  | isSet _ operand => isSet info operand
  | logical _ op left right => logical info op left right
  | call _ target symbol args => call info target symbol args
  | list _ items => list info items
  | field _ object name => field info object name

/-- Whether the expression is a literal. -/
def isLiteral : Expr → Bool
  | literal .. => true
  | _ => false

/-! ### Building expressions -/

/-- The literal of an integer. -/
def ofInt (n : Int64) : Expr := literal { type := TypeName.integer } (Text.ofInt64 n)

/-- The literal of a truth value. -/
def ofBool (b : Bool) : Expr := literal { type := TypeName.boolean } (Text.ofBool b)

/-- The literal of a text: the text between quotation marks. -/
def ofString (s : String) : Expr := literal { type := TypeName.string } ("\"" ++ s ++ "\"")

/-- A variable of a type. -/
def ofVar (name type : String) : Expr := var { type } name

/-- A binary operator, of the type its method returns. -/
def ofBinary (op : String) (left right : Expr) (operator : Symbol) : Expr :=
  binary { type := operator.returns } op left right operator

/-- A unary operator, of the type its method returns. -/
def ofUnary (op : String) (operand : Expr) (operator : Symbol) : Expr :=
  unary { type := operator.returns } op operand operator

/-- The question whether an operand has a value. -/
def ofIsSet (operand : Expr) : Expr := isSet { type := TypeName.boolean } operand

/-- A conjunction or disjunction. -/
def ofLogical (op : LogicalOp) (left right : Expr) : Expr :=
  logical { type := TypeName.boolean } op left right

/-- A call, of the type it returns. -/
def ofCall (target : Option Expr) (symbol : Symbol) (args : List Expr) : Expr :=
  call { type := symbol.returns } target symbol args

/-- A constructor call. -/
def ofConstructor (type : String) (args : List Expr) : Expr :=
  ofCall none (.constructor type) args

/-- A list. -/
def ofItems (items : List Expr) : Expr := list { type := TypeName.list } items

end Expr

end ScopedIR
