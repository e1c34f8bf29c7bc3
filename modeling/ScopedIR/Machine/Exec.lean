import ScopedIR.Instr.Text
import ScopedIR.Machine.State

/-!
# Executing instructions

What one instruction does to the state of a run. The lists nested in an instruction are given as
actions, so that the meaning of an instruction is put together from the meanings of its parts; so is
the action that leaves a scope.

Main definitions:

* `Exec.perform`: the effect of an instruction whose nested lists are actions;
* `Instr.nested`: an instruction in a nested list, which counts as a step and must not jump;
* `Instr.exec`: an instruction of a block.

A loop is repeated a given number of rounds at most; a loop that wants more halts as diverged.
-/

namespace ScopedIR

variable {σ : Type}

namespace Exec

/-! ### Sequences of actions -/

/-- Run `a`, and then `b` unless control left. -/
def andThen (a b : Exec σ Control) : Exec σ Control := do
  match ← a with
  | .next => b
  | left => return left

/-- Run actions in order until control leaves. -/
def runAll : List (Exec σ Control) → Exec σ Control
  | [] => return .next
  | a :: rest => andThen a (runAll rest)

/-- Running two lists in order is running one after the other. -/
theorem runAll_append (l r : List (Exec σ Control)) :
    runAll (l ++ r) = andThen (runAll l) (runAll r) := by
  induction l with
  | nil => simp [runAll, andThen]
  | cons a rest ih =>
    simp only [List.cons_append, runAll, ih, andThen, bind_assoc]
    congr 1
    funext control
    cases control <;> simp

/-- The setup of a variable, if there is one. -/
def runSetup : Option (ChainVariable (Exec σ Control)) → Exec σ Control
  | some v => runAll v.setup
  | none => return .next

/-- Repeat a round until it answers a control. -/
def repeatUntil (round : Exec σ (Option Control)) : Nat → Exec σ Control
  | 0 => throw .diverged
  | n + 1 => do
    match ← round with
    | some control => return control
    | none => repeatUntil round n

/-! ### Calls -/

variable (i : Instr)

/-- The receiver of a call, with the identity of its object if it is one. -/
def receiver (site : CallSite) : Exec σ (Receiver × Option ObjectId) := do
  if i.opcode = .callStatic then return (.static, none)
  match ← lookup site.target with
  | .object id => return (.object (← ofExcept ((← get).heap.value id)), some id)
  | .null => return (.null, none)
  | .primitive _ => fail (.malformed i.text)

/-- The values of the arguments of a call; null is absent, and a primitive is no argument. -/
def arguments : List String → Exec σ (List (Option Value))
  | [] => return []
  | name :: rest => do
    match ← lookup name with
    | .primitive _ => fail (.malformed i.text)
    | binding =>
      let value ← ofExcept ((← get).valueOf binding)
      return value :: (← arguments rest)

/-- Ask the handler. Its state is kept also when it fails. -/
def ask (handler : CallHandler σ) (site : CallSite) (receiver : Receiver)
    (args : List (Option Value)) : Exec σ CallReply := do
  let (reply, calls) := handler site receiver args (← get).calls
  modify fun m => { m with calls }
  ofExcept reply

/-- Call a method: find the receiver and the arguments, ask the handler, give the receiver the value
that the call left in it, and bind the outcome. -/
def call (cfg : Config σ) (i : Instr) (site : CallSite) : Exec σ Control := do
  let (receiver, target) ← receiver i site
  let args ← arguments i site.args
  let reply ← ask cfg.handler site receiver args
  match target, reply.receiver with
  | some id, .object v => onHeap (·.setValue id v)
  | _, _ => pure ()
  match reply.outcome with
  | .void => return .next
  | .object v =>
    bindResult i.result (.object (← allocate (·.alloc v false)))
    return .next
  | .primitive b =>
    bindResult i.result (.primitive b)
    return .next
  | .throw v => return .throw (.object (← allocate (·.allocOwned v)))

/-! ### Chains -/

/-- How the choice among the cases of a chain ended. -/
inductive Choice where
  /-- Control left while a case was tried. -/
  | left (control : Control)
  /-- A case was run; it may have a result. -/
  | taken (result : Option String)
  /-- No case held. -/
  | refused
deriving DecidableEq, Inhabited

/-- Run `a`, and go on with `k` unless control left. -/
def choose (a : Exec σ Control) (k : Exec σ Choice) : Exec σ Choice := do
  match ← a with
  | .next => k
  | left => return .left left

/-- Try the cases in order and run the first that holds. -/
def tryCases : List (Case (Exec σ Control)) → Exec σ Choice
  | [] => return .refused
  | c :: rest =>
    choose (runAll c.condition.evaluation) do
      if ← primitive c.condition.primitive then
        choose (andThen (runAll c.body.evaluation) (runAll c.updates))
          (return .taken c.body.result)
      else tryCases rest

/-- Run the first case that holds, or else the default, if there is one. -/
def select (c : Chain (Exec σ Control)) : Exec σ Choice := do
  match ← tryCases c.cases with
  | .refused =>
    match c.fallback with
    | some body => choose (runAll body.evaluation) (return .taken body.result)
    | none => return .refused
  | choice => return choice

/-- Bind the result of a chain that is not a loop: the returning variable, which the case that was
run may have given a value, or without one the value of that case. -/
def finishChain (returning : Option (ChainVariable (Exec σ Control)))
    (result : Option String) : Exec σ Control := do
  let value ← match result with
    | some name => do pure (some (← lookup name))
    | none => pure none
  match returning with
  | some v =>
    match value with
    | some binding => assign v.name binding
    | none => pure ()
    bindResult i.result (← lookup v.name)
  | none => bindResult i.result (value.getD .null)
  return .next

/-- The body and the updates of a loop. -/
def loopBody (c : Case (Exec σ Control)) : Exec σ Control :=
  andThen (runAll c.body.evaluation) (runAll c.updates)

/-- Evaluate the condition of a loop; the loop is over when it does not hold or control left. -/
def loopTest (c : Case (Exec σ Control)) : Exec σ (Option Control) := do
  match ← runAll c.condition.evaluation with
  | .next => if ← primitive c.condition.primitive then return none else return some .next
  | left => return some left

/-- Run the body of a loop and then its test. -/
def loopRound (c : Case (Exec σ Control)) : Exec σ (Option Control) := do
  match ← loopBody c with
  | .next => loopTest c
  | left => return some left

/-- Run a loop: the body and the test in turn, beginning with the body or the test. -/
def loop (rounds : Nat) (bodyFirst : Bool) (c : Case (Exec σ Control)) : Exec σ Control := do
  match ← if bodyFirst then pure none else loopTest c with
  | some control => return control
  | none => repeatUntil (loopRound c) rounds

variable (leave : String → Exec σ Unit)

/-- Run the handler of a try chain for an exception, if there is one. Scopes left open by an
exception are left down to the depth of the chain. -/
def handle (c : Chain (Exec σ Control)) (name : String)
    (depth : Nat) (exception : Binding) : Exec σ Control := do
  unwind leave depth
  let type ← ofExcept ((← get).typeOf exception)
  match c.handlerFor type TypeName.exception with
  | some case =>
    assign name exception
    let outcome ← runAll case.body.evaluation
    match outcome with
    | .throw _ => unwind leave depth
    | _ => pure ()
    return outcome
  | none => return .throw exception

/-- Run a try chain: the block, the handler of what it throws, and after that, whatever happened,
the finally block. When control leaves the finally block, what happened before is forgotten. -/
def runTry (c : Chain (Exec σ Control))
    (block : TryBlock (Exec σ Control)) : Exec σ Control := do
  let depth := (← get).scopes.length
  let pending ← match ← runAll block.evaluation with
    | .throw exception => handle leave c block.exception depth exception
    | control => pure control
  match c.finallyBlock with
  | some block => andThen (runAll block.evaluation) (return pending)
  | none => return pending

/-- Run a chain. -/
def runChain (rounds : Nat) (i : Instr)
    (c : Chain (Exec σ Control)) : Exec σ Control :=
  if c.kind = .tryCatchFinally then
    match c.tryBlock with
    | some block => runTry leave c block
    | none => fail (.malformed i.text)
  else
    andThen (runSetup c.subject) <|
    andThen (runSetup c.returning) <|
    if c.kind.isLoop then
      match c.cases with
      | case :: _ => loop rounds (c.kind = .doWhileLoop) case
      | [] => fail (.malformed i.text)
    else do
      match ← select c with
      | .left control => return control
      | .taken result => finishChain i c.returning result
      | .refused => finishChain i c.returning none

/-! ### Logical blocks -/

/-- Whether the left operand decides the outcome. -/
def decides : LogicalOp → Bool → Bool
  | .and, left => !left
  | .or, left => left

/-- Run a logical block: the right operand is evaluated only when the left one does not decide. -/
def runLogical (b : LogicalBlock (Exec σ Control)) : Exec σ Control :=
  andThen (runAll b.leftEvaluation) do
    if decides b.op (← primitive b.condition) then
      bindResult i.result (← lookup b.left)
      return .next
    else
      andThen (runAll b.rightEvaluation) <| andThen (runAll b.computation) do
        bindResult i.result (← lookup b.result)
        return .next

/-! ### Instructions -/

/-- A part of an instruction, which is malformed without it. -/
def required {α : Type} : Option α → Exec σ α
  | some part => return part
  | none => fail (.malformed i.text)

/-- An operand of an instruction, which must have it. -/
def operand (n : Nat) : Exec σ String := required i (i.operand? n)

/-- Do something with the object an operand is bound to, if it is bound to one. -/
def onObject (f : ObjectId → Heap → Heap.Update) : Exec σ Control := do
  match ← lookup (← operand i 0) with
  | .object id =>
    onHeap (f id)
    return .next
  | .null | .primitive _ => return .next

/-- Bind the result of an instruction and go on. -/
def yield (binding : Binding) : Exec σ Control := do
  bindResult i.result binding
  return .next

/-- Allocate the object that an instruction creates. -/
def create (value : Value) : Exec σ Control := do
  let onStack := i.opcode = .stackAlloc || i.opcode = .stackAllocLiteral
  yield i (.object (← allocate (·.alloc value onStack)))

/-- A scope or counting action, which counting of references alone performs. -/
def counted (cfg : Config σ) (a : Exec σ Control) : Exec σ Control :=
  match cfg.memory with
  | .arc => a
  | .gc => return .next

/-- The effect of an instruction, given the effects of its nested lists and of leaving a scope. -/
def perform (cfg : Config σ) (rounds : Nat) (i : Instr)
    (payload : Payload (Exec σ Control)) : Exec σ Control :=
  match i.opcode with
  | .loadLiteral | .stackAllocLiteral => do
    let (literal, type) ← required i i.literal?
    create i (← required i (Value.ofLiteral? literal type))
  | .allocObject | .stackAlloc => do
    let type ← required i i.type?
    create i (.other type type)
  | .load => do yield i (← lookup (← operand i 0))
  | .store => do
    let (target, value) ← required i i.storeParts?
    store target (← lookup value)
    return .next
  -- a declaration starts unset, also when a loop body runs it again
  | .reference => do
    assign (← operand i 0) .null
    return .next
  | .retain => counted cfg <| onObject i fun id h => h.retain id
  | .release => counted cfg <| onObject i fun id h => h.release id
  | .stackCleanup => counted cfg <| onObject i fun id h => h.cleanup id
  | .isNull => do yield i (.primitive ((← lookup (← operand i 0)) = .null))
  | .call | .callVirtual | .callStatic | .callDispatcher => do
    call cfg i (← required i i.callSite?)
  | .branch => do return .jump (← operand i 0)
  | .branchTrue | .branchFalse => do
    if (← primitive (← operand i 0)) = (i.opcode = .branchTrue : Bool) then
      return .jump (← operand i 1)
    else return .next
  | .assert => do
    let name ← operand i 0
    if ← primitive name then return .next else fail (.assertionFailed name)
  | .ret =>
    match i.returnValue? with
    | some name => do return .ret (some (← lookup name))
    | none => return .ret none
  | .throw => do return .throw (← lookup (← operand i 0))
  | .setupHandler => do
    let label ← operand i 0
    modify fun m => { m with handlers := label :: m.handlers }
    return .next
  | .scopeEnter => counted cfg do
    let id ← operand i 0
    modify fun m => { m with scopes := { id } :: m.scopes }
    return .next
  | .scopeExit => counted cfg do
    leave (← operand i 0)
    return .next
  | .scopeRegister => counted cfg do
    let object ← operand i 0
    let scope ← operand i 1
    let scopes ← ofOption (.unknownScope scope) (Machine.registerIn scope object (← get).scopes)
    modify fun m => { m with scopes }
    return .next
  | .phi => do
    let incoming ← required i i.incoming?
    let previous := (← get).previous
    match incoming.find? fun (_, label) => some label = previous with
    | some (name, _) => yield i (← lookup name)
    | none => fail (.phiWithoutEdge i.text)
  | .chain =>
    match payload with
    | .chain c => runChain leave rounds i c
    | _ => fail (.malformed i.text)
  | .logicalAnd | .logicalOr =>
    match payload with
    | .logical b => runLogical i b
    | _ => fail (.malformed i.text)
  | .label | .noRetain | .noRelease | .noScopeRegister => return .next

/-- Reject a jump out of a nested list. -/
def stayInside : Control → Exec σ Control
  | .jump _ => fail (.jumpOutOfStructure i.opcode)
  | control => return control

end Exec

namespace Instr

/-- An instruction in a nested list: it counts as a step and must not jump. -/
def nested (cfg : Config σ) (rounds : Nat) : Instr → Exec σ Control :=
  fold fun i payload => do
    Exec.tick cfg.maxSteps
    Exec.stayInside i (← Exec.perform Exec.exitScope cfg rounds i payload)

/-- An instruction of a block: it counts as a step. -/
def exec (cfg : Config σ) (rounds : Nat) (i : Instr) : Exec σ Control := do
  Exec.tick cfg.maxSteps
  Exec.perform Exec.exitScope cfg rounds i (i.payload.map (nested cfg rounds))

/-- A nested instruction does what it does in a block, and must not jump. -/
theorem nested_eq (cfg : Config σ) (rounds : Nat) (i : Instr) :
    nested cfg rounds i = exec cfg rounds i >>= Exec.stayInside i := by
  rw [nested, fold_eq]
  simp [exec, nested]

end Instr

end ScopedIR
