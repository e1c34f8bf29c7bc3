import ScopedIR.CodeUnit
import ScopedIR.Machine.Exec

/-!
# Running operations

An operation is run block by block from its entry, with one argument per parameter. Arguments are
owned by the caller, and so is what the operation returns or throws.

Main definitions:

* `Exec.runBlocks`: the walk from block to block;
* `Exec.runSteps`: a whole run, given what its instructions do;
* `Operation.runWithin`: a run with a given number of rounds for every loop and for the walk;
* `Operation.run`: a run with rounds enough for every run that ends.
-/

namespace ScopedIR

/-- The result of running an operation. -/
structure RunResult where
  returned : Option Value
  thrown : Option Value
  /-- The objects still referenced at the end; none when references are not counted. -/
  leaks : List Leak
  steps : Nat
deriving DecidableEq, Inhabited

variable {σ : Type}

/-- The block that control falls through to: the only successor, or else the next block. -/
def Body.fallThrough? (body : Body) (b : Nat) : Option Nat :=
  match body.succs b with
  | [single] => some single
  | _ => if b + 1 < body.size then some (b + 1) else none

namespace Exec

/-- The block with a label, which must exist. -/
def blockAt (body : Body) (label : String) : Exec σ Nat :=
  ofOption (.unknownLabel label) (body.find? label)

/-- Run one block, whose instructions are executed by `step`, and answer the block that control goes
to, or how the operation is left. A thrown exception goes to the latest pending handler. -/
def runBlock (step : Instr → Exec σ Control) (body : Body) (b : Nat) (block : Block) :
    Exec σ (Nat ⊕ Control) := do
  match ← runAll (block.instrs.map step) with
  | .next =>
    match body.fallThrough? b with
    | some next => return .inl next
    | none => return .inr (.ret none)
  | .jump label => return .inl (← blockAt body label)
  | .throw exception =>
    match (← get).handlers with
    | label :: outer =>
      modify fun m => { m with handlers := outer }
      assign "_exception" exception
      return .inl (← blockAt body label)
    | [] => return .inr (.throw exception)
  | .ret value => return .inr (.ret value)

/-- Run blocks from a given one on, a given number of them at most. -/
def runBlocks (step : Instr → Exec σ Control) (body : Body) : Nat → Nat → Exec σ Control
  | 0, _ => throw .diverged
  | n + 1, b =>
    match body.blocks.get? b with
    | none => return .ret none
    | some block => do
      match ← runBlock step body b block with
      | .inl next =>
        modify fun m => { m with previous := some block.label }
        runBlocks step body n next
      | .inr control => return control

end Exec

/-- The state before the first instruction: parameters are bound to arguments as far as there are
some of both. -/
def Machine.start (op : Operation) (args : List Value) (calls : σ) : Machine σ :=
  (op.params.zip args).foldl
    (fun m (param, value) =>
      { m with
        vars := m.vars.insert param.name (.object m.heap.next)
        heap := m.heap.allocExternal value })
    { calls }

/-- The result of an operation that was left by `control`. -/
def Machine.result (m : Machine σ) (memory : MemoryModel) (control : Control) :
    Except Fault RunResult := do
  let (returned, thrown) := match control with
    | .ret binding => (binding, none)
    | .throw binding => (none, some binding)
    | .next | .jump _ => (none, none)
  let handedOver := match returned <|> thrown with
    | some (.object id) => some id
    | _ => none
  let leaks := match memory with
    | .arc => m.heap.leaks handedOver
    | .gc => []
  let valueOf : Option Binding → Except Fault (Option Value)
    | some binding => m.valueOf binding
    | none => .ok none
  return { returned := ← valueOf returned, thrown := ← valueOf thrown, leaks, steps := m.steps }

namespace Exec

/-- Run an operation to its end, where instructions are executed by `step` and scopes are left by
`leave`. What nothing caught unwinds every scope still open. -/
def runSteps (leave : String → Exec σ Unit) (step : Instr → Exec σ Control) (memory : MemoryModel)
    (rounds : Nat) (op : Operation) : Exec σ RunResult := do
  let control ← runBlocks step op.body rounds 0
  match control with
  | .throw _ => unwind leave 0
  | _ => pure ()
  ofExcept ((← get).result memory control)

/-- Run an operation to its end. -/
def runOperation (cfg : Config σ) (rounds : Nat) (op : Operation) : Exec σ RunResult :=
  runSteps exitScope (Instr.exec cfg rounds) cfg.memory rounds op

/-- The answer of an action with the state of the call handler, also when it halts. -/
def answer {α : Type} (a : Exec σ α) (m : Machine σ) : Except Halt α × σ :=
  match a m with
  | .ok x m => (.ok x, m.calls)
  | .error halt m => (.error halt, m.calls)

end Exec

namespace Operation

/-- Run an operation, with a given number of rounds for every loop and for the walk from block to
block. The state of the call handler is answered also when the run halts. -/
def runWithin (cfg : Config σ) (rounds : Nat) (op : Operation) (args : List Value) (calls : σ) :
    Except Halt RunResult × σ :=
  Exec.answer (Exec.runOperation cfg rounds op) (Machine.start op args calls)

/-- Rounds enough for every run that ends: as many instructions as may execute, with a walk through
all blocks before each of them. -/
def enoughRounds (maxSteps : Nat) (op : Operation) : Nat := (maxSteps + 1) * (op.body.size + 1)

/-- Run an operation. -/
def run (cfg : Config σ) (op : Operation) (args : List Value) (calls : σ) :
    Except Halt RunResult × σ :=
  op.runWithin cfg (op.enoughRounds cfg.maxSteps) args calls

end Operation

end ScopedIR
