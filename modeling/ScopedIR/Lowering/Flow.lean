import ScopedIR.Lowering.Expr
import ScopedIR.Source.Stmt

/-!
# Code of statements

How each form of statement is put together from the code of its conditions and blocks. Conditionals
and loops become chains; each condition is evaluated in a scope of its own, and so is each block.

The code of a block emits its instructions and answers whether control departs in it. A departure
exits the scopes it leaves by itself, so the block around it must not exit them again.
-/

namespace ScopedIR.Lowering

/-- The code of a block. -/
abbrev BlockCode := Gen Bool

/-- A variable with the code of its value. -/
structure GuardCode where
  name : String
  type : String
  init : Code

/-! ### Scopes around blocks and conditions -/

/-- Emit a block in a new scope, which is exited unless control departs. -/
def genScoped (scope : String) (block : BlockCode) : Gen Unit := do
  Gen.emit (Instr.scopeEnter scope)
  Gen.enterScope scope
  let departs ← block
  Gen.exitScope scope
  if !departs then
    Gen.emit (Instr.scopeExit scope)

/-- A block in a new scope, with the scope. -/
def scopedBody (block : BlockCode) : Gen (String × List Instr) := do
  let scope ← Gen.scopeId
  let ((), instrs) ← Gen.capture (genScoped scope block)
  return (scope, instrs)

/-- A condition evaluated in a new scope, down to its primitive truth value, with the scope. The code
answers the object of the condition and the primitive. -/
def scopedCondition (code : Gen (String × String)) : Gen (CaseCondition Instr × String) := do
  let scope ← Gen.scopeId
  let ((result, primitive), evaluation) ← Gen.capture do
    Gen.emit (Instr.scopeEnter scope)
    Gen.enterScope scope
    let names ← code
    Gen.exitScope scope
    Gen.emit (Instr.scopeExit scope)
    return names
  return (← Gen.ofExcept (CaseCondition.build evaluation (some result) primitive), scope)

/-- The condition of a branch or loop. -/
def genCondition (condition : Code) : Gen (CaseCondition Instr × String) :=
  scopedCondition do
    let result ← condition.value
    return (result, ← genPrimitive result condition.type)

/-! ### Declarations and assignments -/

variable (location : Option Location)

/-- Declare a variable in a scope and bind it. -/
def genBind (scope name type : String) (init : Code) : Gen Unit := do
  Gen.emitAll (Ownership.declare location name type scope)
  let value ← init.value
  Gen.emitAll (Ownership.initialise location name value)

/-- Declare a variable in the innermost scope, and bind it if there is a value. -/
def genDeclare (name type : String) (init : Option Code) :
    Gen Unit := do
  let scope ← Gen.currentScope
  match init with
  | some init => genBind location scope name type init
  | none => Gen.emitAll (Ownership.declare location name type scope)
  Gen.declare name type

/-- A parameter cannot be assigned. -/
def checkAssignable (name : String) : Gen Unit := do
  match (← Gen.state).lookup name with
  | some { isParam := true, .. } => Gen.fail (.assignedParameter name)
  | _ => return ()

/-- Assign a variable. -/
def genAssign (name : String) (value : Code) : Gen Unit := do
  checkAssignable name
  let value ← value.value
  Gen.emitAll (Ownership.assign location name value)

/-- Assign a field. -/
def genAssignField (object field : String) (value : Code) :
    Gen Unit := do
  let value ← value.value
  Gen.emitAll (Ownership.assign location (object ++ "." ++ field) value)

/-- Assign a variable only if it is not set. -/
def genAssignUnset (name : String) (value : Code) : Gen Unit := do
  checkAssignable name
  let type := match (← Gen.state).lookup name with
    | some declared => declared.type
    | none => value.type
  let scope ← Gen.scopeId
  Gen.enterScope scope
  let (condition, conditionScope) ← scopedCondition do
    let current ← genVar none name
    let isSet ← genIsSet none current type
    let not := (Symbol.method TypeName.boolean "_not" TypeName.boolean).asPure
    let unset ← genCallValue isSet not []
    return (unset, ← genPrimitive unset TypeName.boolean)
  let (bodyScope, body) ← scopedBody do
    let value ← value.value
    Gen.emitAll (Ownership.assign location name value)
    return false
  let case := Case.build .expression (some conditionScope) condition { evaluation := body }
  Gen.exitScope scope
  let chain ← Gen.ofExcept
    (Chain.guardedAssignment { case with bodyScope := some bodyScope } scope)
  Gen.emitAll (chain.place none location)

/-! ### Guards -/

/-- Open the scope of a guard variable, which is left open for the chain. -/
def openGuard (guard : GuardCode) : Gen (GuardVariables Instr) := do
  let scope ← Gen.scopeId
  Gen.enterScope scope
  let ((), setup) ← Gen.capture (genBind none scope guard.name guard.type guard.init)
  Gen.declare guard.name guard.type
  return { names := [guard.name], setup, scope }

/-- Open the scope of a guard variable, if there is one. -/
def openGuard? : Option GuardCode → Gen (Option (GuardVariables Instr))
  | some guard => do return some (← openGuard guard)
  | none => return none

/-- Close the scope of a guard variable, if there is one. -/
def closeGuard? : Option (GuardVariables Instr) → Gen Unit
  | some guards => Gen.exitScope guards.scope
  | none => return ()

/-- Evaluate a guard again and bind its variable to the new value. -/
def genGuardUpdate (guard : GuardCode) : Gen (List Instr) := do
  let scope ← Gen.scopeId
  let ((), updates) ← Gen.capture <| genScoped scope do
    let value ← guard.init.value
    Gen.emitAll (Ownership.assign none guard.name value)
    return false
  return updates

/-! ### Conditionals -/

/-- One branch of a conditional. -/
def genBranch (condition : Code) (block : BlockCode) : Gen (Case Instr) := do
  let (condition, conditionScope) ← genCondition condition
  let (bodyScope, evaluation) ← scopedBody block
  let case := Case.build .expression (some conditionScope) condition { evaluation }
  return { case with bodyScope := some bodyScope }

/-- The branches of a conditional in order. -/
def genBranches : List (Code × BlockCode) → Gen (List (Case Instr))
  | [] => return []
  | (condition, block) :: rest => do
    let case ← genBranch condition block
    return case :: (← genBranches rest)

/-- The block for the case that nothing else holds. -/
def genFallback : Option BlockCode → Gen (Option (CaseBody Instr))
  | some block => do
    let (_, evaluation) ← scopedBody block
    return some { evaluation }
  | none => return none

/-- The branches when the first one depends on a guard: it is taken only if the guard is set. -/
def guardFirst (guard : Option GuardCode) (branches : List (Code × BlockCode)) :
    List (Code × BlockCode) :=
  match guard, branches with
  | some guard, (condition, block) :: rest =>
    (Code.guarded guard.name guard.type condition, block) :: rest
  | _, _ => branches

/-- A conditional. -/
def genIf (guard : Option GuardCode)
    (branches : List (Code × BlockCode)) (otherwise : Option BlockCode) : Gen Unit := do
  if branches.isEmpty then
    Gen.fail .ifWithoutCondition
  let guards ← openGuard? guard
  let scope ← Gen.scopeId
  Gen.enterScope scope
  let cases ← genBranches (guardFirst guard branches)
  let chain ← Gen.ofExcept (Chain.start (if cases.length = 1 then .ifElse else .ifElseIf) scope)
  let fallback ← genFallback otherwise
  Gen.exitScope scope
  closeGuard? guards
  let chain ← Gen.ofExcept (Chain.validate { chain with cases, fallback })
  Gen.emitAll (chain.place guards location)

/-! ### Switches -/

/-- Compare the subject of a switch with one case. -/
def genTest (subject subjectType : String) (test : SwitchTest) :
    Gen (CaseCondition Instr × String) :=
  scopedCondition do
    let candidate ← match test with
      | .value e => e.lower.value
      | .enumConstant constant => genLiteral none constant subjectType
    let method ← Gen.ofExcept (operatorMethod "==")
    let symbol :=
      ((Symbol.method subjectType method TypeName.boolean).asPure).withParams [subjectType]
    let result ← genCallValue subject symbol [candidate]
    return (result, ← genPrimitive result TypeName.boolean)

/-- The case of a switch, by what it compares with. Constants of a known enumeration have their
ordinals. -/
def switchCase (enum : Option EnumType) (test : SwitchTest) (scope : String)
    (condition : CaseCondition Instr) (body : CaseBody Instr) : Except Defect (Case Instr) :=
  match test, enum with
  | .enumConstant constant, some enum =>
    match enum.ordinal? constant with
    | some ordinal => Case.enumConstant (some scope) constant ordinal condition body
    | none => .error (.notAConstant constant enum.name)
  | .enumConstant _, none => .ok (Case.build .literal (some scope) condition body)
  | .value e, _ =>
    .ok (Case.build (if e.isLiteral then .literal else .expression) (some scope) condition body)

/-- The cases of a switch in order. -/
def genSwitchCases (subject subjectType : String) (enum : Option EnumType) :
    List (SwitchCase BlockCode) → Gen (List (Case Instr))
  | [] => return []
  | c :: rest => do
    let (condition, conditionScope) ← genTest subject subjectType c.test
    let (bodyScope, evaluation) ← scopedBody c.body
    let case ← Gen.ofExcept (switchCase enum c.test conditionScope condition { evaluation })
    return { case with bodyScope := some bodyScope }
      :: (← genSwitchCases subject subjectType enum rest)

/-- Whether a case compares with an enumeration constant. -/
def isConstantCase (c : SwitchCase BlockCode) : Bool :=
  match c.test with
  | .enumConstant _ => true
  | .value _ => false

/-- Whether there are cases and all of them compare with enumeration constants. -/
def overConstants (cases : List (SwitchCase BlockCode)) : Bool :=
  !cases.isEmpty && cases.all isConstantCase

/-- The dispatch hints of a switch over an enumeration. -/
def dispatchOf (enum : EnumType) (cases : List (Case Instr)) (hasFallback : Bool) :
    Except Defect EnumDispatch :=
  let constants := cases.filterMap fun c => c.kind.enumConstant?
  let values := constants.map (·.1)
  EnumDispatch.build enum.name values (constants.map (·.2))
    (!hasFallback && enum.constants.all (· ∈ values))

/-- The variable a switch returns, declared in the scope around it, so that its value outlives the
chain. -/
def genReturning : Option GuardCode → Gen (Option (ChainVariable Instr))
  | some v => do
    let scope ← Gen.currentScope
    let ((), setup) ← Gen.capture (genBind none scope v.name v.type v.init)
    Gen.declare v.name v.type
    return some { name := v.name, type := v.type, setup }
  | none => return none

/-- A switch. When all its cases are constants, and the type of the subject is a known enumeration,
it is a switch over that enumeration. -/
def genSwitch (guard : Option GuardCode) (subject : Code)
    (cases : List (SwitchCase BlockCode)) (otherwise : Option BlockCode)
    (returning : Option GuardCode) : Gen Unit := do
  let returning ← genReturning returning
  let guards ← openGuard? guard
  let scope ← Gen.scopeId
  Gen.enterScope scope
  let (name, setup) ← Gen.capture subject.value
  let setting ← Gen.setting
  let enum := if overConstants cases then setting.enumType? subject.type else none
  let chainCases ← genSwitchCases name subject.type enum cases
  let chain ← Gen.ofExcept (Chain.start (if enum.isSome then .switchEnum else .switch) scope)
  let dispatch ← match enum with
    | some enum => do
      pure (some (← Gen.ofExcept (dispatchOf enum chainCases otherwise.isSome)))
    | none => pure none
  let fallback ← genFallback otherwise
  Gen.exitScope scope
  closeGuard? guards
  let chain ← Gen.ofExcept <| Chain.validate
    { chain with
      subject := some { name, type := subject.type, setup }
      returning, cases := chainCases, fallback, dispatch }
  Gen.emitAll (chain.place guards location)

/-! ### Loops -/

/-- The condition and the block of a loop, generated in the order they run in. -/
def genLoopParts (bodyFirst : Bool) (condition : Code) (block : BlockCode) :
    Gen ((CaseCondition Instr × String) × (String × List Instr)) := do
  if bodyFirst then
    let body ← scopedBody block
    return (← genCondition condition, body)
  else
    let condition ← genCondition condition
    return (condition, ← scopedBody block)

/-- A loop. A guard is evaluated again after every round. -/
def genLoop (kind : ChainKind) (condition : Code) (block : BlockCode)
    (guard : Option GuardCode) : Gen Unit := do
  let scope ← Gen.scopeId
  Gen.enterScope scope
  let ((condition, conditionScope), (bodyScope, evaluation)) ←
    genLoopParts (kind = .doWhileLoop) condition block
  let updates ← match guard with
    | some guard => genGuardUpdate guard
    | none => pure []
  let case := Case.build .expression (some conditionScope) condition { evaluation }
  Gen.exitScope scope
  let chain ← Gen.ofExcept (Chain.start kind scope)
  let chain ← Gen.ofExcept <| Chain.validate
    { chain with cases := [{ case with bodyScope := some bodyScope, updates }] }
  Gen.emitAll (chain.place none location)

/-- A loop with the test first. A guarded loop runs only while its guard is set. -/
def genWhile (guard : Option GuardCode) (condition : Code)
    (block : BlockCode) : Gen Unit := do
  match guard with
  | none => genLoop location .whileLoop condition block none
  | some guard =>
    let guards ← openGuard guard
    let ((), chain) ← Gen.capture <| genLoop location .whileLoop
      (Code.guarded guard.name guard.type condition) block (some guard)
    Gen.exitScope guards.scope
    Gen.emit (Instr.scopeEnter guards.scope)
    Gen.emitAll (.ok (guards.setup ++ chain))
    Gen.emit (Instr.scopeExit guards.scope)

/-- A loop over the items of a collection: an iterator drives the loop, and every round begins with
taking the next item. -/
def genForIn (name type : String) (collection : Code)
    (block : BlockCode) : Gen Unit := do
  let scope ← Gen.scopeId
  genScoped scope do
    let items ← collection.value
    let iteratorOf := (Symbol.method collection.type "iterator" TypeName.iterator).asPure
    let iterator ← genCallValue items iteratorOf []
    Gen.emitAll (Ownership.declare location name type scope)
    Gen.declare name type
    let cursor := Code.ofVar iterator TypeName.iterator
    let hasNext := (Symbol.method TypeName.iterator "hasNext" TypeName.boolean).asPure
    let next := Symbol.method TypeName.iterator "next" type
    genLoop location .whileLoop (.ofCall cursor hasNext [])
      (do
        genAssign none name (.ofCall cursor next [])
        block)
      none
    return false

/-- An assertion. -/
def genAssert (condition : Code) : Gen Unit := do
  let value ← condition.value
  let primitive ← genPrimitive value condition.type
  Gen.emitAt location (Instr.assert primitive)

/-- One direction of a counting loop. -/
structure Direction where
  /-- The comparison of the direction with zero that holds in this direction. -/
  sign : String
  /-- The comparison of the loop variable with the end that holds while the loop goes on. -/
  bound : String
  /-- The method that moves the loop variable by one. -/
  unitStep : String
  /-- The comparison of the first stepped value with the first value that a step must pass. -/
  progress : String

/-- Counting up. -/
def Direction.up : Direction := ⟨"_lt", "_lteq", "_inc", "_gt"⟩

/-- Counting down. -/
def Direction.down : Direction := ⟨"_gt", "_gteq", "_dec", "_lt"⟩

/-- What a counting loop works with: the names that its ends and its step are bound to. -/
structure Range where
  name : String
  type : String
  first : String
  last : String
  step : Option String

namespace Range

/-- A pure method of the type of a range. -/
def method (r : Range) (name returns : String) (params : List String) : Symbol :=
  ((Symbol.method r.type name returns).asPure).withParams params

/-- The code of a variable of the type of a range. -/
def var (r : Range) (name : String) : Code := .ofVar name r.type

/-- The code of the next value of the loop variable. -/
def advance (r : Range) (d : Direction) : Code :=
  match r.step with
  | some step => .ofCall (r.var r.name) (r.method "_add" r.type [r.type]) [r.var step]
  | none => .ofCall (r.var r.name) (r.method d.unitStep r.type []) []

/-- The code of the condition that the loop variable has not passed the end. -/
def inRange (r : Range) (d : Direction) : Code :=
  .ofCall (r.var r.name) (r.method d.bound TypeName.boolean [r.type]) [r.var r.last]

/-- Assert that a step points towards the end. -/
def genCheckStep (r : Range) (d : Direction) : Gen Unit :=
  match r.step with
  | some step =>
    let stepped := Code.ofCall (r.var r.first) (r.method "_add" r.type [r.type]) [r.var step]
    genAssert none
      (.ofCall stepped (r.method d.progress TypeName.boolean [r.type]) [r.var r.first])
  | none => return ()

/-- The loop in one direction. -/
def genDirection (r : Range) (d : Direction) (block : BlockCode) : BlockCode := do
  r.genCheckStep d
  genWhile none none (r.inRange d) do
    if ← block then return true
    else
      genAssign none r.name (r.advance d)
      return false
  return false

end Range

/-- The code of a comparison of the direction of a range with zero. -/
def directionIs (direction comparison : String) : Code :=
  let symbol := (Symbol.method TypeName.integer comparison TypeName.boolean).asPure
  .ofCall (.ofVar direction TypeName.integer) (symbol.withParams [TypeName.integer])
    [.ofLiteral (Text.ofInt64 0) TypeName.integer]

/-- The value of an expression, if there is one. -/
def genOptional : Option Code → Gen (Option String)
  | some code => do return some (← code.value)
  | none => return none

/-- A loop that counts from one end towards the other, both included. The ends are compared once:
there is a loop for each direction, and equal ends run the block once. -/
def genForRange (name type : String) (first last : Code)
    (step : Option Code) (block : BlockCode) : Gen Unit := do
  let scope ← Gen.scopeId
  genScoped scope do
    let first ← first.value
    let last ← last.value
    let step ← genOptional step
    let r : Range := { name, type, first, last, step }
    Gen.emitAll (Ownership.declare location name type scope)
    Gen.emitAll (Ownership.initialise location name first)
    Gen.declare name type
    let compare := r.method "_cmp" TypeName.integer [type]
    let direction ← (Code.ofCall (r.var first) compare [r.var last]).value
    genIf location none
      [(directionIs direction Direction.up.sign, r.genDirection .up block),
       (directionIs direction Direction.down.sign, r.genDirection .down block)]
      (some block)
    return false

/-! ### Exceptions and departures -/

/-- A catch clause: its variable takes over the reference to the exception. -/
def genCatch (exception : String) (c : Catch BlockCode) : Gen (Case Instr) := do
  let scope ← Gen.scopeId
  let ((), evaluation) ← Gen.capture <| genScoped scope do
    Gen.emit (Instr.reference c.variableName c.exceptionType)
    Gen.emit (Instr.store c.variableName exception)
    Gen.emit (Instr.scopeRegister c.variableName scope)
    Gen.declare c.variableName c.exceptionType
    c.body
  let case ← Gen.ofExcept (Case.handler none c.exceptionType c.variableName { evaluation })
  return { case with bodyScope := some scope }

/-- The catch clauses in order. -/
def genCatches (exception : String) : List (Catch BlockCode) → Gen (List (Case Instr))
  | [] => return []
  | c :: rest => do
    let case ← genCatch exception c
    return case :: (← genCatches exception rest)

/-- The block that runs whatever happened. -/
def genFinally : Option BlockCode → Gen (Option (FinallyBlock Instr))
  | some block => do
    Gen.update (·.enterFinally) State.temps_enterFinally
    let (scope, evaluation) ← scopedBody block
    Gen.tryUpdate (·.exitFinally) State.temps_exitFinally
    return some { scope, evaluation }
  | none => return none

/-- A block with catch clauses and a block that runs whatever happened. -/
def genTry (block : BlockCode) (catches : List (Catch BlockCode))
    (finallyBlock : Option BlockCode) : Gen Unit := do
  let scope ← Gen.scopeId
  Gen.enterScope scope
  Gen.update (·.enterHandler finallyBlock.isSome) (·.temps_enterHandler _)
  let (tryScope, evaluation) ← scopedBody block
  let exception ← Gen.temp
  let cases ← genCatches exception catches
  Gen.tryUpdate (·.exitHandler) State.temps_exitHandler
  let chain ← Gen.ofExcept (Chain.start .tryCatchFinally scope)
  let finallyBlock ← genFinally finallyBlock
  Gen.exitScope scope
  let chain ← Gen.ofExcept <| Chain.validate
    { chain with
      cases, finallyBlock, tryBlock := some { scope := tryScope, evaluation, exception } }
  Gen.emitAll (chain.place none location)

/-- A return exits every open scope. It cannot leave a finally block, nor skip one. -/
def genReturn (value : Option Code) : Gen Unit := do
  if (← Gen.state).inFinally then
    Gen.fail .returnFromFinally
  if (← Gen.state).returnsPastFinally then
    Gen.fail .returnPastFinally
  let value ← genOptional value
  match value with
  | some name => Gen.emitAt location (Instr.retain name)
  | none => pure ()
  Gen.emitAll (Ownership.exits location (← Gen.state).openScopes)
  Gen.emitAt location (Instr.ret value)

/-- A throw exits the scopes opened since the innermost try chain. It cannot leave a finally
block. -/
def genThrow (value : Code) : Gen Unit := do
  if (← Gen.state).inFinally then
    Gen.fail .throwFromFinally
  let name ← value.value
  Gen.emitAt location (Instr.retain name)
  Gen.emitAll (Ownership.exits location (← Gen.state).scopesToHandler)
  Gen.emitAt location (Instr.throw name)

end ScopedIR.Lowering
