import ScopedIR.Lowering.Flow
import ScopedIR.Machine.Run
import ScopedIR.Source.Module

/-!
# Direct evaluation

What typed source code means, without instructions, temporaries or scopes of objects. Evaluation acts
on the same objects as a run: a variable is bound to an object or to nothing, a call is answered by a
handler, and a callee may throw. Operands and arguments are evaluated from left to right. A variable
starts unset when it is declared, and its name is forgotten at the end of the block around it.

A handler sees the method of a call, the receiver and the arguments, and never a name that an operand
is bound to. A loop is repeated a given number of rounds at most.

Main definitions: `Evaluation`, `Evaluator.expr` and `Evaluator.stmt`, and `Evaluator.run` for a
function with its arguments.
-/

namespace ScopedIR

variable {σ α : Type}

/-- Forget the keys that nothing is stored under in `outer`. -/
def FinMap.within {κ : Type} [DecidableEq κ] (m outer : FinMap κ α) : FinMap κ α :=
  ⟨m.entries.filter fun e => outer.contains e.1⟩

/-- Evaluation of source code: an action of a run that an exception may cut short. -/
abbrev Evaluation (σ : Type) := ExceptT Binding (Exec σ)

/-- How the evaluation of statements ends when no exception cuts it short. -/
inductive Completion where
  | next
  | ret (value : Option Binding)

namespace Evaluation

/-- Do something in the state of the run. -/
def act (a : Exec σ α) : Evaluation σ α := ExceptT.lift a

/-- Halt with a fault. -/
def fail (f : Fault) : Evaluation σ α := act (Exec.fail f)

/-- The binding of a variable, or of a field written with a dot. -/
def lookup (name : String) : Evaluation σ Binding := act (Exec.lookup name)

/-- A value that must be there. -/
def value : Option Binding → Evaluation σ Binding
  | some b => return b
  | none => fail (.callFailed "no value")

/-- A new object. -/
def create (v : Value) : Evaluation σ Binding := do
  return .object (← act (Exec.allocate (·.alloc v false)))

/-- A new object with the value of a literal. -/
def literal (text type : String) : Evaluation σ Binding :=
  match Value.ofLiteral? text type with
  | some v => create v
  | none => fail (.malformed text)

/-! ### Variables -/

/-- Declare a variable, which starts unset. -/
def declare (name : String) : Evaluation σ Unit := act (Exec.assign name .null)

/-- Assign a variable, which must be declared. -/
def assign (name : String) (b : Binding) : Evaluation σ Unit := act do
  match (← get).vars.get? name with
  | some _ => Exec.assign name b
  | none => Exec.fail (.unbound name)

/-- Evaluate a block; names that it declared are forgotten behind it. -/
def confined (a : Evaluation σ α) : Evaluation σ α := ExceptT.mk do
  let outer := (← get).vars
  let r ← a.run
  modify fun m => { m with vars := m.vars.within outer }
  return r

/-- Forget a variable behind an evaluation. -/
def forgetting (name : String) (a : Evaluation σ α) : Evaluation σ α := ExceptT.mk do
  let r ← a.run
  modify fun m => { m with vars := m.vars.erase name }
  return r

/-! ### Calls -/

/-- The receiver of a call, with the identity of its object if it is one. -/
def receiverOf : Option Binding → Exec σ (Receiver × Option ObjectId)
  | none => return (.static, none)
  | some (.object id) => do return (.object (← Exec.ofExcept ((← get).heap.value id)), some id)
  | some .null => return (.null, none)
  | some (.primitive _) => Exec.fail (.callFailed "primitive receiver")

/-- The values of arguments; null is absent, and a primitive is no argument. -/
def valuesOf : List Binding → Exec σ (List (Option Value))
  | [] => return []
  | .primitive _ :: _ => Exec.fail (.callFailed "primitive argument")
  | b :: rest => do
    let v ← Exec.ofExcept ((← get).valueOf b)
    return v :: (← valuesOf rest)

/-- The result of a call that has one. -/
def resultOf (site : CallSite) (b : Binding) : Option Binding :=
  if site.hasResult then some b else none

/-- The receiver takes the value that a call left in it. -/
def renew : Option ObjectId → Receiver → Exec σ Unit
  | some id, .object v => Exec.onHeap (·.setValue id v)
  | _, _ => return ()

/-- The end of a call. A call that has a result must not answer nothing. -/
def conclude (site : CallSite) : CallOutcome → Evaluation σ (Option Binding)
  | .void => if site.hasResult then fail (.callFailed site.method) else return none
  | .object v => resultOf site <$> create v
  | .primitive b => return resultOf site (.primitive b)
  | .throw v => do throw (.object (← act (Exec.allocate (·.allocOwned v))))

/-- Call a method: the handler is told the receiver and the arguments as they are now. -/
def call (handler : CallHandler σ) (receiver : Option Binding) (site : CallSite)
    (args : List Binding) : Evaluation σ (Option Binding) := do
  let target ← act (receiverOf receiver)
  let args ← act (valuesOf args)
  let reply ← act (Exec.ask handler site target.1 args)
  act (renew target.2 reply.receiver)
  conclude site reply.outcome

/-! ### Repetition -/

/-- Repeat a body while a test holds, a given number of rounds at most. -/
def repeatWhile (test : Evaluation σ Bool) (body : Evaluation σ Completion) :
    Nat → Evaluation σ Completion
  | 0 => act (throw .diverged)
  | n + 1 => do
    if ← test then
      match ← body with
      | .next => repeatWhile test body n
      | left => return left
    else return .next

end Evaluation

open Evaluation

/-- What evaluation is given: the facts on types and the handler of calls, and how often loops are
repeated at most. -/
structure Evaluator (σ : Type) where
  types : TypeOracle
  handler : CallHandler σ
  rounds : Nat

/-- A method that an operator stands for. -/
def Symbol.ofOperator (type op : String) (params : List String) : Symbol :=
  ((Symbol.method type ((Operator.methodFor? op).getD op) TypeName.boolean).asPure).withParams params

namespace Evaluator

variable (E : Evaluator σ)

/-- Call a symbol on a receiver, or on its type. -/
def send (receiver : Option Binding) (symbol : Symbol) (args : List Binding) :
    Evaluation σ (Option Binding) :=
  call E.handler receiver (CallSite.ofSymbol E.types "" symbol []) args

/-- Call a symbol that has a value. -/
def ask (receiver : Binding) (symbol : Symbol) (args : List Binding) : Evaluation σ Binding := do
  value (← E.send (some receiver) symbol args)

/-- The truth of an object. -/
def truth (type : String) (b : Binding) : Evaluation σ Bool := do
  match ← E.ask b (Symbol.method type "_true" TypeName.boolean).asPure [] with
  | .primitive p => return p
  | _ => fail (.notPrimitive type)

/-- Whether an object is set: null is not, and any other object is asked. -/
def isSet (type : String) (b : Binding) : Evaluation σ Binding :=
  if b = .null then literal "false" TypeName.boolean
  else E.ask b (Symbol.ofOperator type "?" []) []

/-- A conjunction or disjunction; the right operand is evaluated only if it matters. -/
def logical (op : LogicalOp) (leftType rightType : String) (left right : Evaluation σ Binding) :
    Evaluation σ Binding := do
  let l ← left
  if Exec.decides op (← E.truth leftType l) then return l
  else
    let r ← right
    E.ask l (Symbol.ofOperator leftType (Lowering.logicalSymbol op) [rightType]) [r]

/-- A new object, initialised with arguments. -/
def construct (symbol : Symbol) (args : List Binding) : Evaluation σ Binding := do
  let object ← create (.other symbol.owner symbol.owner)
  let _ ← E.send (some object) (Lowering.initOf symbol) args
  return object

/-! ### Expressions -/

mutual

/-- Evaluate an expression. A call that returns nothing has no value. -/
def expr : Expr → Evaluation σ (Option Binding)
  | .literal info text => some <$> literal text info.type
  | .var _ name => some <$> lookup name
  | .enumConstant info constant => some <$> literal constant info.type
  | .binary _ _ left right operator => do
    let l ← value (← expr left)
    let r ← value (← expr right)
    E.send (some l) operator [r]
  | .unary _ _ operand operator => do
    let b ← value (← expr operand)
    E.send (some b) operator []
  | .isSet _ operand => do
    let b ← value (← expr operand)
    some <$> E.isSet operand.type b
  | .logical _ op left right =>
    some <$> E.logical op left.type right.type (do value (← expr left)) (do value (← expr right))
  | .call _ target symbol args => do
    if symbol.isConstructor then
      let _ ← receiver false target
      let args ← exprs args
      some <$> E.construct symbol args
    else
      let receiver ← receiver (symbol.dispatch ≠ .static) target
      let args ← exprs args
      E.send receiver symbol args
  | .list _ elements => do
    let list ← E.construct (Symbol.constructor TypeName.list).asPure []
    items list elements
    return some list
  | .field _ object field => some <$> lookup (object ++ "." ++ field)

/-- Evaluate the target of a call, if there is one; it may not be needed as the receiver. -/
def receiver (needed : Bool) : Option Expr → Evaluation σ (Option Binding)
  | none => return none
  | some e => do
    let b ← expr e
    if needed then some <$> value b else return none

/-- Evaluate expressions in order. -/
def exprs : List Expr → Evaluation σ (List Binding)
  | [] => return []
  | e :: rest => do
    let b ← value (← expr e)
    return b :: (← exprs rest)

/-- Add items to a list in order. -/
def items (list : Binding) : List Expr → Evaluation σ Unit
  | [] => return ()
  | e :: rest => do
    let b ← value (← expr e)
    let add := (Symbol.method TypeName.list "_addAss" TypeName.void).withParams [e.type]
    let _ ← E.send (some list) add [b]
    items list rest

end

/-- The value of an expression. -/
def valueOf (e : Expr) : Evaluation σ Binding := do value (← E.expr e)

/-- The value of an expression, if there is one. -/
def valueOf? : Option Expr → Evaluation σ (Option Binding)
  | some e => some <$> E.valueOf e
  | none => return none

/-! ### Statements -/

/-- Whether a condition holds; under a guard it does so only if the guard is set. -/
def holds : Option Guard → Expr → Evaluation σ Bool
  | none, e => do E.truth e.type (← E.valueOf e)
  | some g, e => do
    E.truth TypeName.boolean (← E.logical .and TypeName.boolean e.type
      (do E.isSet g.type (← lookup g.name)) (E.valueOf e))

/-- Declare a variable with a value. -/
def bind (g : Guard) : Evaluation σ Unit := do
  declare g.name
  assign g.name (← E.valueOf g.init)

/-- Evaluate under a guard, if there is one. -/
def guarded (guard : Option Guard) (a : Evaluation σ α) : Evaluation σ α :=
  match guard with
  | none => a
  | some g => forgetting g.name do
    E.bind g
    a

end Evaluator

/-- What a counting loop works with: its variable, its ends and its step. -/
structure Counting where
  name : String
  type : String
  first : Binding
  last : Binding
  step : Option Binding

/-- A pure method of the type of a counting loop. -/
def Counting.method (c : Counting) (name returns : String) (params : List String) : Symbol :=
  ((Symbol.method c.type name returns).asPure).withParams params

namespace Evaluator

open Lowering (Direction)

variable (E : Evaluator σ)

/-- Whether a loop goes that way, from how its ends compare. -/
def goes (direction : Binding) (d : Direction) : Evaluation σ Bool := do
  let zero ← literal (Text.ofInt64 0) TypeName.integer
  let symbol := (Symbol.method TypeName.integer d.sign TypeName.boolean).asPure
  E.truth TypeName.boolean (← E.ask direction (symbol.withParams [TypeName.integer]) [zero])

/-- A step must point towards the end. -/
def checkStep (c : Counting) (d : Direction) : Evaluation σ Unit :=
  match c.step with
  | some step => do
    let stepped ← E.ask c.first (c.method "_add" c.type [c.type]) [step]
    let passed ← E.ask stepped (c.method d.progress TypeName.boolean [c.type]) [c.first]
    if ← E.truth TypeName.boolean passed then return () else fail (.assertionFailed "")
  | none => return ()

/-- Whether the variable has not passed the end. -/
def inRange (c : Counting) (d : Direction) : Evaluation σ Bool := do
  let bound := c.method d.bound TypeName.boolean [c.type]
  E.truth TypeName.boolean (← E.ask (← lookup c.name) bound [c.last])

/-- The value that the variable takes next. -/
def advance (c : Counting) (d : Direction) : Evaluation σ Binding := do
  let b ← lookup c.name
  match c.step with
  | some step => E.ask b (c.method "_add" c.type [c.type]) [step]
  | none => E.ask b (c.method d.unitStep c.type []) []

/-- Count in one direction, and evaluate a block in every round. -/
def count (c : Counting) (d : Direction) (block : Evaluation σ Completion) :
    Evaluation σ Completion := do
  E.checkStep c d
  repeatWhile (E.inRange c d)
    (confined do
      match ← block with
      | .next =>
        assign c.name (← E.advance c d)
        return .next
      | left => return left)
    E.rounds

/-- Count whichever way the ends compare. Equal ends are one round. -/
def countTowards (c : Counting) (direction : Binding) (block : Evaluation σ Completion) :
    Evaluation σ Completion := do
  if ← E.goes direction .up then confined (E.count c .up block)
  else if ← E.goes direction .down then confined (E.count c .down block)
  else confined block

/-- Count from the first value towards the last one. -/
def counts (c : Counting) (block : Evaluation σ Completion) : Evaluation σ Completion := do
  declare c.name
  assign c.name c.first
  let direction ← E.ask c.first (c.method "_cmp" TypeName.integer [c.type]) [c.last]
  E.countTowards c direction block

/-- Whether the subject of a switch is what a case compares it with. -/
def matching (type : String) (subject : Binding) (test : SwitchTest) : Evaluation σ Bool := do
  let candidate ← match test with
    | .value e => E.valueOf e
    | .enumConstant constant => literal constant type
  E.truth TypeName.boolean
    (← E.ask subject (Symbol.ofOperator type "==" [type]) [candidate])

end Evaluator

/-- The types of the variables that are visible. -/
abbrev Visible := FinMap String String

/-- What is visible behind a guard. -/
def Visible.guard (V : Visible) : Option Guard → Visible
  | some g => V.insert g.name g.type
  | none => V

/-- What is visible behind a statement. -/
def Visible.behind (V : Visible) : Stmt → Visible
  | .declare _ name type _ => V.insert name type
  | .switch _ _ _ _ _ returning => V.guard returning
  | _ => V

namespace Evaluator

variable (E : Evaluator σ)

/-- Evaluate a finally block after what happened before it, which is forgotten when control leaves
the finally block. -/
def lastly (pending : Evaluation σ Completion) (finallyBlock : Evaluation σ Completion) :
    Evaluation σ Completion := ExceptT.mk do
  let r ← pending.run
  match ← finallyBlock.run with
  | .ok .next => return r
  | left => return left

/-- Evaluate a block, and what handles the exception it throws. -/
def rescue (block : Evaluation σ Completion) (handle : Binding → Evaluation σ Completion) :
    Evaluation σ Completion := ExceptT.mk do
  match ← block.run with
  | .error e => (handle e).run
  | completed => return completed

mutual

/-- Evaluate a statement. -/
def stmt (V : Visible) : Stmt → Evaluation σ Completion
  | .declare _ name _ init => do
    declare name
    match init with
    | some e => assign name (← E.valueOf e)
    | none => pure ()
    return .next
  | .assign _ name e => do
    assign name (← E.valueOf e)
    return .next
  | .assignField _ object field e => do
    let b ← E.valueOf e
    act (Exec.store (object ++ "." ++ field) b)
    return .next
  | .assignUnset _ name e => do
    let isSet ← E.isSet ((V.get? name).getD e.type) (← lookup name)
    let unset ← E.ask isSet (Symbol.method TypeName.boolean "_not" TypeName.boolean).asPure []
    if ← E.truth TypeName.boolean unset then
      assign name (← E.valueOf e)
    return .next
  | .expr _ e => do
    let _ ← E.expr e
    return .next
  | .ifElse _ guard branchList otherwise =>
    E.guarded guard
      (branches (V.guard guard) (fallback (V.guard guard) otherwise) guard branchList)
  | .switch _ guard subject caseList otherwise returning =>
    E.guarded guard do
      let b ← E.valueOf subject
      match returning with
      | some g => E.bind g
      | none => pure ()
      cases ((V.guard returning).guard guard) subject.type b
        (fallback ((V.guard returning).guard guard) otherwise) caseList
  | .whileLoop _ guard condition body =>
    E.guarded guard do
      repeatWhile (E.holds guard condition)
        (do
          match ← confined (block (V.guard guard) body) with
          | .next =>
            match guard with
            | some g => assign g.name (← E.valueOf g.init)
            | none => pure ()
            return .next
          | left => return left)
        E.rounds
  | .doWhile _ body condition => do
    match ← confined (block V body) with
    | .next => repeatWhile (E.holds none condition) (confined (block V body)) E.rounds
    | left => return left
  | .forIn _ name type collection body => confined do
    let list ← E.valueOf collection
    let iterator ← E.ask list
      (Symbol.method collection.type "iterator" TypeName.iterator).asPure []
    declare name
    repeatWhile
      (do
        let next := (Symbol.method TypeName.iterator "hasNext" TypeName.boolean).asPure
        E.truth TypeName.boolean (← E.ask iterator next []))
      (confined do
        assign name (← E.ask iterator (Symbol.method TypeName.iterator "next" type) [])
        block (V.insert name type) body)
      E.rounds
  | .forRange _ name type first last step body => confined do
    let first ← E.valueOf first
    let last ← E.valueOf last
    let step ← E.valueOf? step
    E.counts { name, type, first, last, step } (block (V.insert name type) body)
  | .tryCatch _ body catchList finallyBody => do
    let attempt := rescue (confined (block V body)) fun e => do
      catches V e (← act do Exec.ofExcept ((← get).typeOf e)) catchList
    match finallyBody with
    | some body => lastly attempt (confined (block V body))
    | none => attempt
  | .ret _ e =>
    match e with
    | some e => do return .ret (some (← E.valueOf e))
    | none => return .ret none
  | .throw _ e => do throw (← E.valueOf e)
  | .assert _ condition => do
    if ← E.holds none condition then return .next else fail (.assertionFailed "")

/-- Evaluate the statements of a block in order. -/
def block (V : Visible) : List Stmt → Evaluation σ Completion
  | [] => return .next
  | s :: rest => do
    match ← stmt V s with
    | .next => block (V.behind s) rest
    | left => return left

/-- Evaluate the block of the case that nothing else holds, if there is one. -/
def fallback (V : Visible) : Option (List Stmt) → Evaluation σ Completion
  | some body => confined (block V body)
  | none => return .next

/-- Evaluate the first branch whose condition holds. Only the first condition depends on a guard. -/
def branches (V : Visible) (otherwise : Evaluation σ Completion) (guard : Option Guard) :
    List (Expr × List Stmt) → Evaluation σ Completion
  | [] => otherwise
  | b :: rest => do
    if ← E.holds guard b.1 then branch V b else branches V otherwise none rest

/-- Evaluate the block of a branch. -/
def branch (V : Visible) : Expr × List Stmt → Evaluation σ Completion
  | (_, body) => confined (block V body)

/-- Evaluate the first case that the subject of a switch matches. -/
def cases (V : Visible) (type : String) (subject : Binding) (otherwise : Evaluation σ Completion) :
    List (SwitchCase (List Stmt)) → Evaluation σ Completion
  | [] => otherwise
  | c :: rest => do
    if ← E.matching type subject c.test then case V c else cases V type subject otherwise rest

/-- Evaluate the block of a case. -/
def case (V : Visible) : SwitchCase (List Stmt) → Evaluation σ Completion
  | ⟨_, body⟩ => confined (block V body)

/-- Evaluate the first catch clause that takes an exception of a type. -/
def catches (V : Visible) (e : Binding) (type : String) :
    List (Catch (List Stmt)) → Evaluation σ Completion
  | [] => throw e
  | c :: rest =>
    if c.exceptionType = type ∨ c.exceptionType = TypeName.exception then clause V e c
    else catches V e type rest

/-- Evaluate a catch clause, whose variable is the exception. -/
def clause (V : Visible) (e : Binding) : Catch (List Stmt) → Evaluation σ Completion
  | ⟨type, name, body⟩ => confined do
    declare name
    assign name e
    block (V.insert name type) body

end

/-- Nothing behind a departure is evaluated. -/
theorem block_of_departs {V : Visible} {s : Stmt} (rest : List Stmt) (h : s.departs = true) :
    E.block V (s :: rest) = E.stmt V s := by
  cases s with
  | ret token value => cases value <;> simp [block, stmt]
  | throw token value => simp [block, stmt]
  | _ => cases h

/-- The values that a function returns and throws. -/
structure Outcome where
  returned : Option Value
  thrown : Option Value
deriving DecidableEq

/-- The types of parameters. -/
def paramTypes (params : List TypedName) : Visible :=
  params.foldl (fun V p => V.insert p.name p.type) .empty

/-- Evaluate a function, whose parameters are bound to arguments as far as there are some of both. -/
def function (f : FunctionDef) : Exec σ Outcome := do
  let left ← (E.block (paramTypes f.params) f.body).run
  let m ← get
  match left with
  | .ok (.ret (some b)) => return ⟨← Exec.ofExcept (m.valueOf b), none⟩
  | .ok _ => return ⟨none, none⟩
  | .error e => return ⟨none, ← Exec.ofExcept (m.valueOf e)⟩

/-- Evaluate a function with arguments. The state of the call handler is answered also when
evaluation halts. -/
def run (f : FunctionDef) (args : List Value) (calls : σ) : Except Halt Outcome × σ :=
  Exec.answer (E.function f)
    (Machine.start { name := f.name, params := f.params, returnType := f.returnType } args calls)

end Evaluator

end ScopedIR
