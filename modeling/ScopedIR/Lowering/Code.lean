import ScopedIR.Chain.Build
import ScopedIR.Lowering.Gen
import ScopedIR.Lowering.Ownership
import ScopedIR.Operator

/-!
# Code of expressions

How each form of expression is put together from the code of its operands. Every operator becomes a
call of its method, and every object that an expression creates is owned by the scope around it.

The code of an expression emits the instructions that compute it, and answers the name its value is
bound to, or nothing for a call that returns nothing.
-/

namespace ScopedIR.Lowering

/-- The code of an expression of a type. -/
structure Code where
  type : String
  gen : Gen (Option String)

namespace Code

/-- The value of an expression, which must have one. -/
def value (c : Code) : Gen String := do
  match ← c.gen with
  | some name => return name
  | none => Gen.fail (.voidValue c.type)

/-- The values of expressions in order. -/
def values : List Code → Gen (List String)
  | [] => return []
  | c :: rest => do
    let name ← c.value
    return name :: (← values rest)

end Code

/-! ### Operators -/

/-- The method an operator stands for. -/
def operatorMethod (op : String) : Except Defect String :=
  match Operator.methodFor? op with
  | some method => .ok method
  | none => .error (.unknownOperator op)

/-- Check that an operator was resolved to its own method. -/
def checkOperator (op : String) (operator : Symbol) : Except Defect Unit := do
  let method ← operatorMethod op
  if method ≠ operator.name then .error (.operatorMismatch op operator.name method)

/-! ### Objects, variables and calls -/

variable (location : Option Location)

/-- A new object is owned by the innermost scope. -/
def own (temp : String) : Gen Unit := do
  Gen.emitAll (Ownership.register location temp (← Gen.currentScope))

/-- A literal. -/
def genLiteral (text type : String) : Gen String := do
  let temp ← Gen.temp
  let scope ← Gen.currentScope
  Gen.emitAt location (Instr.loadLiteral temp text type)
  Gen.emitAll (Ownership.register location temp scope)
  return temp

/-- The object of a variable, which the variable goes on to own. -/
def genVar (name : String) : Gen String := do
  let temp ← Gen.temp
  Gen.emitAt location (Instr.load temp name)
  return temp

/-- Call a symbol on a target. A result is owned by the innermost scope. -/
def genCall (opcode : Opcode) (target : String) (symbol : Symbol)
    (args : List String) : Gen (Option String) := do
  let site := CallSite.ofSymbol (← Gen.setting).types target symbol args
  if site.hasResult then
    let result ← Gen.temp
    Gen.emitAt location (Instr.call opcode (some result) site)
    own location result
    return some result
  else
    Gen.emitAt location (Instr.call opcode none site)
    return none

/-- Call a method that must return a value. -/
def genCallValue (target : String) (symbol : Symbol) (args : List String) : Gen String := do
  match ← genCall none .call target symbol args with
  | some result => return result
  | none => Gen.fail (.returnsNothing symbol.name)

/-- The method that initialises an object of a constructor. -/
def initOf (symbol : Symbol) : Symbol :=
  { Symbol.method symbol.owner symbol.name TypeName.void with
    params := symbol.params, isPure := symbol.isPure }

/-- Evaluate the arguments, allocate an object, and initialise it. -/
def genConstruct (symbol : Symbol) (args : List Code) :
    Gen String := do
  let args ← Code.values args
  let object ← Gen.temp
  let scope ← Gen.currentScope
  Gen.emitAt location (Instr.allocObject object symbol.owner)
  Gen.emitAll (Ownership.register location object scope)
  let _ ← genCall location .call object (initOf symbol) args
  return object

/-- Add items to a list in order. -/
def genItems (list : String) : List Code → Gen Unit
  | [] => return ()
  | item :: rest => do
    let value ← item.value
    let add := (Symbol.method TypeName.list "_addAss" TypeName.void).withParams [item.type]
    let _ ← genCall location .call list add [value]
    genItems list rest

/-- A new list of items. -/
def genList (items : List Code) : Gen String := do
  let list ← genConstruct location (Symbol.constructor TypeName.list).asPure []
  genItems location list items
  return list

/-- The primitive truth value of an object. -/
def genPrimitive (value type : String) : Gen String := do
  let symbol := (Symbol.method type "_true" TypeName.boolean).asPure
  let primitive ← Gen.temp
  let site := CallSite.ofSymbol (← Gen.setting).types value symbol []
  Gen.emit (Instr.call .call (some primitive) site)
  return primitive

/-! ### Forms of expressions -/

/-- A binary operator. -/
def genBinary (op : String) (left right : Code) (operator : Symbol) :
    Gen (Option String) := do
  Gen.ofExcept (checkOperator op operator)
  let left ← left.value
  let right ← right.value
  genCall location .call left operator [right]

/-- A unary operator. -/
def genUnary (op : String) (operand : Code) (operator : Symbol) :
    Gen (Option String) := do
  Gen.ofExcept (checkOperator op operator)
  let operand ← operand.value
  genCall location .call operand operator []

/-- Whether an object is set: null is not, and any other object is asked. -/
def genIsSet (operand type : String) : Gen String := do
  let scope ← Gen.currentScope
  let isNull ← Gen.temp
  let test ← Gen.ofExcept (Instr.isNull isNull operand)
  let condition ← Gen.ofExcept (CaseCondition.build [test] none isNull)
  let (unset, nullBody) ← Gen.capture (genLiteral none "false" TypeName.boolean)
  let nullCase := Case.build .nullCheck (some scope) condition
    { evaluation := nullBody, result := some unset }
  let method ← Gen.ofExcept (operatorMethod "?")
  let symbol := (Symbol.method type method TypeName.boolean).asPure
  let (set, setBody) ← Gen.capture (genCallValue operand symbol [])
  let result ← Gen.temp
  let chain ← Gen.ofExcept
    (Chain.question result nullCase { evaluation := setBody, result := some set } scope)
  Gen.emitAt location (Instr.ofChain chain)
  return result

/-- The operator that a logical block computes with. -/
def logicalSymbol : LogicalOp → String
  | .and => "and"
  | .or => "or"

/-- A conjunction or disjunction; the right operand is evaluated only if it matters. -/
def genLogical (op : LogicalOp) (left right : Code) :
    Gen String := do
  let scope ← Gen.currentScope
  let ((leftValue, condition), leftEvaluation) ← Gen.capture do
    let value ← left.value
    return (value, ← genPrimitive value left.type)
  let (rightValue, rightEvaluation) ← Gen.capture right.value
  let method ← Gen.ofExcept (operatorMethod (logicalSymbol op))
  let symbol := ((Symbol.method left.type method TypeName.boolean).asPure).withParams [right.type]
  let (combined, computation) ← Gen.capture (genCallValue leftValue symbol [rightValue])
  let result ← Gen.temp
  Gen.emitAt location <| Instr.ofLogical result
    { op, leftEvaluation, left := leftValue, condition, rightEvaluation, right := rightValue,
      computation, result := combined, scope }
  return result

/-- The opcode and the target of a call. A target that does not receive the call is still
evaluated. -/
def genTarget (symbol : Symbol) : Option Code → Gen (Opcode × String)
  | none => return (.callStatic, symbol.owner)
  | some target =>
    match symbol.dispatch with
    | .static => do
      let _ ← target.gen
      return (.callStatic, symbol.owner)
    | .dispatcher => do return (.callDispatcher, ← target.value)
    | .method => do
      return (if symbol.traitMember then .callVirtual else .call, ← target.value)

/-- A constructor call, or a call of a function or method. -/
def genApply (target : Option Code) (symbol : Symbol)
    (args : List Code) : Gen (Option String) := do
  if symbol.isConstructor then
    match target with
    | some target =>
      let _ ← target.gen
    | none => pure ()
    return some (← genConstruct location symbol args)
  else
    let (opcode, target) ← genTarget symbol target
    let args ← Code.values args
    genCall location opcode target symbol args

/-! ### Code without a place in the source -/

namespace Code

/-- The code of a variable. -/
def ofVar (name type : String) : Code where
  type
  gen := some <$> genVar none name

/-- The code of a literal. -/
def ofLiteral (text type : String) : Code where
  type
  gen := some <$> genLiteral none text type

/-- The code of a method call. -/
def ofCall (target : Code) (symbol : Symbol) (args : List Code) : Code where
  type := symbol.returns
  gen := genApply none (some target) symbol args

/-- The code of a condition that holds only if a variable is set. -/
def guarded (name type : String) (condition : Code) : Code where
  type := TypeName.boolean
  gen :=
    let isSet : Code :=
      { type := TypeName.boolean
        gen := do
          let value ← (ofVar name type).value
          some <$> genIsSet none value type }
    some <$> genLogical none .and isSet condition

end Code

end ScopedIR.Lowering
