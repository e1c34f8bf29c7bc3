import ScopedIR.Proofs.Scoping
import ScopedIR.Operator

/-!
# Well-formed modules

What semantic analysis owes to lowering. Names are not empty, operators are resolved to their own
methods, what returns nothing is not used as a value, parameters are not assigned, conditionals and
switches have something to choose from, and no return or throw leaves a finally block or skips one.

Main definitions:

* `Expr.WellFormed` and `Expr.IsValue`, an expression and one used for its value;
* `Surroundings`, what a statement needs to know about the statements around it;
* `Stmt.WellFormedIn` and `SourceModule.WellFormed`.
-/

namespace ScopedIR

/-- The operator was resolved to the method that it stands for. -/
def Operator.Resolved (op : String) (symbol : Symbol) : Prop :=
  Operator.methodFor? op = some symbol.name

/-- Whether the target of a call receives the call, so that its value is needed. -/
def Symbol.needsReceiver (symbol : Symbol) : Bool :=
  !symbol.isConstructor && symbol.dispatch != .static

/-! ### Expressions -/

namespace Expr

/-- Whether an expression has a value: everything has one except a call, or the call that an operator
stands for, that returns nothing. -/
def hasValue : Expr → Bool
  | binary _ _ _ _ operator | unary _ _ _ operator => operator.returns ≠ TypeName.void
  | call _ _ symbol _ => symbol.isConstructor || symbol.returns ≠ TypeName.void
  | _ => true

mutual

/-- Names and types are there, operators are resolved, and what is used as a value has one. -/
def WellFormed : Expr → Prop
  | literal info _ => info.type ≠ ""
  | var _ name => name ≠ ""
  | enumConstant info _ => info.type ≠ ""
  | binary _ op left right operator =>
    Operator.Resolved op operator ∧ (hasValue left = true ∧ WellFormed left)
      ∧ hasValue right = true ∧ WellFormed right
  | unary _ op operand operator =>
    Operator.Resolved op operator ∧ hasValue operand = true ∧ WellFormed operand
  | isSet _ operand => hasValue operand = true ∧ WellFormed operand
  | logical _ _ left right =>
    (hasValue left = true ∧ WellFormed left) ∧ hasValue right = true ∧ WellFormed right
  | call _ target symbol args =>
    (symbol.isConstructor = true → symbol.owner ≠ "")
      ∧ TargetWellFormed symbol.needsReceiver target ∧ AllValues args
  | list _ items => AllValues items
  | field .. => True

def TargetWellFormed (needed : Bool) : Option Expr → Prop
  | none => True
  | some e => WellFormed e ∧ (needed = true → hasValue e = true)

def AllValues : List Expr → Prop
  | [] => True
  | e :: rest => (hasValue e = true ∧ WellFormed e) ∧ AllValues rest

end

/-- A well-formed expression that has a value. -/
def IsValue (e : Expr) : Prop := e.hasValue = true ∧ e.WellFormed

end Expr

/-! ### Statements -/

/-- What a statement needs to know about the statements around it. -/
structure Surroundings where
  /-- The names whose innermost visible declaration is a parameter. -/
  params : List String := []
  /-- Whether a finally block is around. -/
  inFinally : Bool := false
  /-- Whether a return would skip a finally block. -/
  pastFinally : Bool := false

namespace Surroundings

/-- Other declarations hide parameters. -/
def hide (c : Surroundings) (names : List String) : Surroundings :=
  { c with params := c.params.filter (· ∉ names) }

/-- Inside the body or a catch clause of a try statement. -/
def protect (c : Surroundings) (hasFinally : Bool) : Surroundings :=
  { c with pastFinally := c.pastFinally || hasFinally }

/-- Inside a finally block. -/
def lastly (c : Surroundings) : Surroundings := { c with inFinally := true }

end Surroundings

/-- A guard declares a named variable with a value. -/
def Guard.WellFormed (g : Guard) : Prop := g.name ≠ "" ∧ g.type ≠ "" ∧ g.init.IsValue

/-- A test of a switch compares with a value. -/
def SwitchTest.WellFormed : SwitchTest → Prop
  | value e => e.IsValue
  | enumConstant _ => True

/-- Whether the test compares with a constant. -/
def SwitchTest.isConstant : SwitchTest → Bool
  | value _ => false
  | enumConstant _ => true

/-- When all cases of a switch are constants and the type of its subject is an enumeration of the
module, they are constants of that enumeration. -/
def ConstantsKnown {β : Type} (enums : List EnumType) (type : String) (cases : List (SwitchCase β)) :
    Prop :=
  (∀ c ∈ cases, c.test.isConstant = true) →
    ∀ enum, enums.find? (·.name = type) = some enum → ∀ c ∈ cases, ∀ constant,
      c.test = .enumConstant constant → constant ≠ "" ∧ constant ∈ enum.constants

namespace Stmt

variable (enums : List EnumType)

mutual

/-- The statement is well-formed where it stands. -/
def WellFormedIn (c : Surroundings) : Stmt → Prop
  | declare _ name type init => name ≠ "" ∧ type ≠ "" ∧ ∀ e ∈ init, e.IsValue
  | assign _ name value => name ≠ "" ∧ name ∉ c.params ∧ value.IsValue
  | assignField _ _ _ value => value.IsValue
  | assignUnset _ name value => name ≠ "" ∧ name ∉ c.params ∧ value.IsValue
  | expr _ e => e.WellFormed
  | ifElse _ guard branches otherwise =>
    (∀ g ∈ guard, g.WellFormed) ∧ branches ≠ []
      ∧ BranchesWellFormed (c.hide (guardNames guard)) branches
      ∧ BlockWellFormed? (c.hide (guardNames guard)) otherwise
  | switch _ guard subject cases otherwise returning =>
    (∀ g ∈ guard, g.WellFormed) ∧ (∀ g ∈ returning, g.WellFormed)
      ∧ (subject.IsValue ∧ subject.type ≠ "") ∧ (cases ≠ [] ∨ otherwise.isSome = true)
      ∧ ConstantsKnown enums subject.type cases
      ∧ CasesWellFormed ((c.hide (guardNames returning)).hide (guardNames guard)) cases
      ∧ BlockWellFormed? ((c.hide (guardNames returning)).hide (guardNames guard)) otherwise
  | whileLoop _ guard condition body =>
    (∀ g ∈ guard, g.WellFormed) ∧ condition.IsValue
      ∧ BlockWellFormed (c.hide (guardNames guard)) body
  | doWhile _ body condition => BlockWellFormed c body ∧ condition.IsValue
  | forIn _ name type collection body =>
    (name ≠ "" ∧ type ≠ "" ∧ type ≠ TypeName.void) ∧ collection.IsValue
      ∧ BlockWellFormed (c.hide [name]) body
  | forRange _ name type first last step body =>
    (name ≠ "" ∧ type ≠ "" ∧ type ≠ TypeName.void) ∧ first.IsValue ∧ last.IsValue
      ∧ (∀ e ∈ step, e.IsValue) ∧ BlockWellFormed (c.hide [name]) body
  | tryCatch _ body catches finallyBody =>
    (catches ≠ [] ∨ finallyBody.isSome = true)
      ∧ BlockWellFormed (c.protect finallyBody.isSome) body
      ∧ CatchesWellFormed (c.protect finallyBody.isSome) catches
      ∧ BlockWellFormed? c.lastly finallyBody
  | ret _ value => c.inFinally = false ∧ c.pastFinally = false ∧ ∀ e ∈ value, e.IsValue
  | throw _ value => c.inFinally = false ∧ value.IsValue
  | assert _ condition => condition.IsValue

/-- Each statement of a block is well-formed where it stands. -/
def BlockWellFormed (c : Surroundings) : List Stmt → Prop
  | [] => True
  | s :: rest => WellFormedIn c s ∧ BlockWellFormed (c.hide (declares s)) rest

def BlockWellFormed? (c : Surroundings) : Option (List Stmt) → Prop
  | some block => BlockWellFormed c block
  | none => True

def BranchesWellFormed (c : Surroundings) : List (Expr × List Stmt) → Prop
  | [] => True
  | b :: rest => BranchWellFormed c b ∧ BranchesWellFormed c rest

def BranchWellFormed (c : Surroundings) : Expr × List Stmt → Prop
  | (condition, block) => condition.IsValue ∧ BlockWellFormed c block

def CasesWellFormed (c : Surroundings) : List (SwitchCase (List Stmt)) → Prop
  | [] => True
  | k :: rest => CaseWellFormed c k ∧ CasesWellFormed c rest

def CaseWellFormed (c : Surroundings) : SwitchCase (List Stmt) → Prop
  | ⟨test, body⟩ => test.WellFormed ∧ BlockWellFormed c body

def CatchesWellFormed (c : Surroundings) : List (Catch (List Stmt)) → Prop
  | [] => True
  | k :: rest => CatchWellFormed c k ∧ CatchesWellFormed c rest

def CatchWellFormed (c : Surroundings) : Catch (List Stmt) → Prop
  | ⟨exceptionType, variableName, body⟩ =>
    exceptionType ≠ "" ∧ variableName ≠ "" ∧ BlockWellFormed (c.hide [variableName]) body

end

end Stmt

/-! ### Modules -/

/-- The body of a function is well-formed where its parameters are visible. -/
def FunctionDef.WellFormed (enums : List EnumType) (f : FunctionDef) : Prop :=
  Stmt.BlockWellFormed enums { params := paramNames f.params } f.body

/-- The functions of a construct are well-formed, and the initial values of fields are values. -/
def ConstructDef.WellFormed (enums : List EnumType) : ConstructDef → Prop
  | function f => f.WellFormed enums
  | type t => (∀ field ∈ t.fields, ∀ e ∈ field.init, e.IsValue) ∧ ∀ m ∈ t.methods, m.WellFormed enums
  | program p => Stmt.BlockWellFormed enums {} p.body

/-- Every construct of the module is well-formed. -/
def SourceModule.WellFormed (m : SourceModule) : Prop :=
  ∀ c ∈ m.constructs, c.WellFormed m.enums

end ScopedIR
