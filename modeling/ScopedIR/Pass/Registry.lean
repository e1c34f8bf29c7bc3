import ScopedIR.CodeUnit
import ScopedIR.Pass.Params

/-!
# Passes and their registry

A pass transforms operations one at a time. A registry holds passes by name together with the
parameters they read; it runs a pass over all operations of a unit until nothing changes, and
pipelines of passes in rounds.

Passes share a store, in which they keep what lasts from one operation to the next.

Parameters and passes are also flags of a command line. How one is parsed is not fixed here.

Main definitions: `Registry.runOnce`, `Registry.runTransform`, `Registry.runPipeline`, which act on a
`Workbench`, so that what was done before a failure stays done, and `Registry.pipelineFrom`.
-/

namespace ScopedIR

/-- A transformation of single operations, with a store of type `σ`. -/
structure Pass (σ : Type) where
  /-- Read the parameters, before a run over a unit. -/
  configure : Params → σ → σ := fun _ s => s
  /-- Transform an operation and tell whether it changed, or fail with a reason. A pass that fails
  may leave the operation half done. -/
  transform : Operation → σ → Except String Bool × Operation × σ

/-- What went wrong in a run of passes. -/
inductive PassError where
  /-- A pass could not transform an operation. -/
  | failed (pass operation reason : String)
  /-- No pass is registered under the name. -/
  | unknownPass (pass : String)
deriving DecidableEq, Inhabited

namespace PassError

/-- The name of the kind of an error, for reports. -/
def kind : PassError → String
  | failed .. => "Failed"
  | unknownPass _ => "UnknownPass"

/-- What went wrong, in two words. -/
def summary : PassError → String
  | failed .. => "pass failed"
  | unknownPass _ => "unknown pass"

/-- The name of the pass. -/
def pass : PassError → String
  | failed pass _ _ => pass
  | unknownPass pass => pass

/-- The operation that was being transformed. -/
def operation? : PassError → Option String
  | failed _ operation _ => some operation
  | unknownPass _ => none

/-- The message of an error. -/
def message (e : PassError) : String :=
  e.summary ++ " `" ++ e.pass ++ "`" ++
    match e with
    | failed _ operation reason => " on `" ++ operation ++ "`: " ++ reason
    | unknownPass _ => ": not registered"

end PassError

/-- A unit being transformed, and the store of the passes. -/
structure Workbench (σ : Type) where
  unit : CodeUnit
  store : σ

/-- Runs of passes. -/
abbrev PassRun (σ : Type) := EStateM PassError (Workbench σ)

/-- A pass under its name. -/
structure Registration (σ : Type) where
  pass : Pass σ
  /-- The passes to run before this one in every iteration. -/
  requires : List String := []

/-- The registered passes, and the parameters they read. -/
structure Registry (σ : Type) where
  params : Params := .empty
  passes : FinMap String (Registration σ) := .empty

variable {σ : Type}

namespace Pass

/-- Transform operations in order and tell whether any changed. After a failure the operations behind
the one it happened on stay as they are. -/
def onOperations (p : Pass σ) (name : String) :
    List Operation → σ → Except PassError Bool × List Operation × σ
  | [], s => (.ok false, [], s)
  | op :: rest, s =>
    match p.transform op s with
    | (.error reason, op, s) => (.error (.failed name op.name reason), op :: rest, s)
    | (.ok changed, op, s) =>
      match p.onOperations name rest s with
      | (outcome, rest, s) => (outcome.map (changed || ·), op :: rest, s)

/-- Transform the operations of constructs in order and tell whether any changed. -/
def onConstructs (p : Pass σ) (name : String) :
    List Construct → σ → Except PassError Bool × List Construct × σ
  | [], s => (.ok false, [], s)
  | c :: rest, s =>
    match p.onOperations name c.operations s with
    | (.error e, operations, s) => (.error e, { c with operations } :: rest, s)
    | (.ok changed, operations, s) =>
      match p.onConstructs name rest s with
      | (outcome, rest, s) => (outcome.map (changed || ·), { c with operations } :: rest, s)

/-- Transform every operation of the unit and tell whether any changed. -/
def onUnit (p : Pass σ) (name : String) : PassRun σ Bool := fun w =>
  match p.onConstructs name w.unit.constructs w.store with
  | (.ok changed, constructs, store) =>
    .ok changed { unit := { w.unit with constructs }, store }
  | (.error e, constructs, store) => .error e { unit := { w.unit with constructs }, store }

end Pass

namespace Registry

/-- The registry without passes and parameters. -/
def empty : Registry σ := { params := .empty, passes := .empty }

variable (r : Registry σ)

/-- Register a pass under a name, in place of one registered before. -/
def register (name : String) (pass : Pass σ) (requires : List String) :
    Registry σ :=
  { r with passes := r.passes.insert name { pass, requires } }

/-- Declare a parameter. -/
def addParam (name default : String) : Registry σ :=
  { r with params := r.params.declare name default }

/-- Give a declared parameter a value. -/
def setParam (name value : String) : Registry σ :=
  { r with params := r.params.assign name value }

/-- The names of the passes, sorted. -/
def passNames : List String := r.passes.keys.mergeSort

/-- The pass registered under a name. -/
def find (name : String) : PassRun σ (Registration σ) :=
  match r.passes.get? name with
  | some registration => return registration
  | none => throw (.unknownPass name)

/-- Run one pass over every operation. -/
def runOnce (name : String) : PassRun σ Bool := do
  let { pass, .. } ← r.find name
  modify fun w => { w with store := pass.configure r.params w.store }
  pass.onUnit name

/-- Run passes one after the other and tell whether any changed something. -/
def runEach : List String → PassRun σ Bool
  | [] => return false
  | name :: rest => do
    let changed ← r.runOnce name
    return (← runEach rest) || changed

/-- Repeat a list of passes until an iteration changes nothing, a given number of times at most, and
answer the number of iterations. -/
def iterate (names : List String) : Nat → PassRun σ Nat
  | 0 => return 0
  | n + 1 => do
    if ← r.runEach names then return (← iterate names n) + 1 else return 1

/-- Run a pass, each time after the passes it requires, until an iteration changes nothing, and
answer the number of iterations: one means that the unit was stable already. -/
def runTransform (name : String) (maxIterations : Nat) : PassRun σ Nat := do
  let { requires, .. } ← r.find name
  r.iterate (requires ++ [name]) maxIterations

/-- Run each pass of a pipeline, and tell whether one needed a second iteration. -/
def runRound (maxIterations : Nat) : List String → PassRun σ Bool
  | [] => return false
  | name :: rest => do
    let iterations ← r.runTransform name maxIterations
    return (← runRound maxIterations rest) || 1 < iterations

/-- Run one round of a pipeline, and up to `n` more while a pass needed a second iteration. -/
def runRounds (pipeline : List String) (maxIterations : Nat) : Nat → PassRun σ Nat
  | 0 => do
    let _ ← r.runRound maxIterations pipeline
    return 1
  | n + 1 => do
    if ← r.runRound maxIterations pipeline then
      return (← runRounds pipeline maxIterations n) + 1
    else return 1

/-- Run a pipeline in rounds, each pass up to `maxIterations` iterations, until no pass needs a
second iteration or the rounds are used up, and answer the number of rounds. There is at least one
round. -/
def runPipeline (pipeline : List String) (maxIterations maxRounds : Nat) :
    PassRun σ Nat :=
  r.runRounds pipeline maxIterations (maxRounds - 1)

end Registry

/-! ### Command line flags -/

/-- A flag of a command line. -/
inductive Flag where
  /-- A flag with a value, and the value it has if it is not given. -/
  | valued (name default : String)
  /-- A flag that counts how often it is given. -/
  | counted (name : String)
deriving DecidableEq, Inhabited

/-- What a parser of command lines made of the flags. -/
structure FlagMatches where
  value? : String → Option String
  count : String → Nat

namespace Registry

variable (r : Registry σ)

/-- The flags of a registry: those of its parameters, then those of its passes. -/
def flags : List Flag :=
  r.params.defaults.map (fun p => .valued p.1 p.2) ++ r.passNames.map .counted

/-- Set the parameters from parsed flags, and answer the pipeline of the passes that were asked for, in
order of their names. -/
def pipelineFrom (found : FlagMatches) : Registry σ × List String :=
  (r.params.names.foldl (fun r name => (found.value? name).elim r (r.setParam name)) r,
    r.passNames.filter fun name => 0 < found.count name)

end Registry

end ScopedIR
