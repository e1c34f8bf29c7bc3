import ScopedIR.Call
import ScopedIR.Chain
import ScopedIR.EscapeFact
import ScopedIR.Location
import ScopedIR.Opcode

/-!
# Instructions

An instruction is an opcode with operand names in an order fixed per opcode, an optional result, an
optional location, and a payload: the site of a call, a chain or a logical block. Chains and logical
blocks hold nested lists of instructions.

Operand layouts:

| opcode | operands |
|---|---|
| literal loads | value, type |
| allocations | type |
| load, null check | source |
| store | target, value |
| declaration | name, type |
| counting | object |
| calls | the call as one operand |
| label, jump | label |
| conditional jump | condition, label |
| assertion | condition |
| return | value, if any |
| throw | value |
| handler setup | label, exception type |
| scope enter and exit | scope |
| registration | object, scope |
| merge | value, label, value, label, … |
| chain | form, scope, subject if any, returned variable if any |
| logical block | left, condition, right, result, scope |

Main definitions:

* `Instr`: the instruction, and `Payload`, its structured part;
* `Instr.fold`: the only recursion over nested instructions. Everything that descends into chains
  and logical blocks is a fold, so it is determined by what it does with one instruction whose
  nested instructions are done already.

Main statements: `Instr.fold_eq` is the equation of the fold, and `Instr.preorder_eq` lists an
instruction before everything nested in it.
-/

namespace ScopedIR

/-- The operator of a logical block. -/
inductive LogicalOp where
  | and
  | or
deriving DecidableEq, Inhabited

/-- The evaluation of a short-circuit conjunction or disjunction. When the primitive truth of the
left side decides the outcome the block yields the left operand; otherwise the right side and the
computation run and the block yields the computed result. -/
structure LogicalBlock (ι : Type) where
  op : LogicalOp
  leftEvaluation : List ι := []
  left : String
  condition : String
  rightEvaluation : List ι := []
  right : String
  computation : List ι := []
  result : String
  scope : String
deriving BEq, Inhabited

/-- The structured part of an instruction. -/
inductive Payload (ι : Type) where
  /-- Everything is in the operands. -/
  | plain
  | call (site : CallSite)
  | chain (c : Chain ι)
  | logical (b : LogicalBlock ι)
deriving BEq, Inhabited

/-- An instruction. -/
structure Instr where
  opcode : Opcode
  operands : List String := []
  result : Option String := none
  location : Option Location := none
  escape : Option EscapeFact := none
  payload : Payload Instr := .plain

instance : Inhabited Instr := ⟨{ opcode := .label }⟩

/-- Two instructions are the same when opcode, result and operands agree; location, escape fact and
payload do not count. -/
instance : BEq Instr where
  beq a b := a.opcode == b.opcode && a.result == b.result && a.operands == b.operands

variable {ι κ : Type}

/-- The name of the form of a payload. -/
def Payload.form : Payload ι → String
  | plain => "plain"
  | call _ => "call"
  | chain _ => "chain"
  | logical _ => "logical"

/-! ### Changing the items of a payload -/

def LogicalBlock.map (f : ι → κ) (b : LogicalBlock ι) : LogicalBlock κ :=
  { op := b.op
    leftEvaluation := b.leftEvaluation.map f
    left := b.left
    condition := b.condition
    rightEvaluation := b.rightEvaluation.map f
    right := b.right
    computation := b.computation.map f
    result := b.result
    scope := b.scope }

/-- The nested lists of a logical block. -/
def LogicalBlock.lists (b : LogicalBlock ι) : List (List ι) :=
  [b.leftEvaluation, b.rightEvaluation, b.computation]

namespace Payload

/-- Change every nested item, keeping the shape. -/
def map (f : ι → κ) : Payload ι → Payload κ
  | plain => plain
  | call site => call site
  | chain c => chain (c.map f)
  | logical b => logical (b.map f)

/-- The nested lists, in the order of evaluation. -/
def lists : Payload ι → List (List ι)
  | plain => []
  | call _ => []
  | chain c => c.lists
  | logical b => b.lists

/-- Replace the nested lists, one after the other in the order of evaluation. -/
def replaceListsM {m : Type → Type} [Monad m] (f : List ι → m (List κ)) :
    Payload ι → m (Payload κ)
  | plain => return plain
  | call site => return call site
  | chain c => return chain (← c.replaceListsM f)
  | logical b => do
    let leftEvaluation ← f b.leftEvaluation
    let rightEvaluation ← f b.rightEvaluation
    let computation ← f b.computation
    return logical
      { op := b.op, leftEvaluation, left := b.left, condition := b.condition, rightEvaluation,
        right := b.right, computation, result := b.result, scope := b.scope }

theorem lists_map (f : ι → κ) (p : Payload ι) : (p.map f).lists = p.lists.map (·.map f) := by
  cases p with
  | plain => rfl
  | call _ => rfl
  | chain c => exact c.lists_map f
  | logical b => rfl

end Payload

/-! ### The fold over nested instructions -/

namespace Instr

variable {α : Type} (f : Instr → Payload α → α)

mutual

/-- The value of an instruction under `f`, which is given the instruction and its payload with every
nested instruction replaced by its value. -/
def fold : Instr → α
  | ⟨opcode, operands, result, location, escape, payload⟩ =>
    f ⟨opcode, operands, result, location, escape, payload⟩ (foldPayload payload)

/-- The fold of every instruction in a payload. -/
def foldPayload : Payload Instr → Payload α
  | .plain => .plain
  | .call site => .call site
  | .chain c => .chain (foldChain c)
  | .logical b => .logical (foldLogical b)

/-- The fold of every instruction in a logical block. -/
def foldLogical : LogicalBlock Instr → LogicalBlock α
  | ⟨op, leftEvaluation, left, condition, rightEvaluation, right, computation, result, scope⟩ =>
    ⟨op, foldList leftEvaluation, left, condition, foldList rightEvaluation, right,
      foldList computation, result, scope⟩

/-- The fold of every instruction in a chain. -/
def foldChain : Chain Instr → Chain α
  | ⟨kind, scope, result, subject, returning, cases, fallback, dispatch, tryBlock, finallyBlock⟩ =>
    ⟨kind, scope, result, foldVariable? subject, foldVariable? returning, foldCases cases,
      foldBody? fallback, dispatch, foldTry? tryBlock, foldFinally? finallyBlock⟩

/-- The fold of every instruction in an optional variable. -/
def foldVariable? : Option (ChainVariable Instr) → Option (ChainVariable α)
  | none => none
  | some v => some (foldVariable v)

/-- The fold of every instruction in a variable. -/
def foldVariable : ChainVariable Instr → ChainVariable α
  | ⟨name, type, setup⟩ => ⟨name, type, foldList setup⟩

/-- The fold of every instruction in a list of cases. -/
def foldCases : List (Case Instr) → List (Case α)
  | [] => []
  | c :: rest => foldCase c :: foldCases rest

/-- The fold of every instruction in a case. -/
def foldCase : Case Instr → Case α
  | ⟨scope, kind, condition, body, bodyScope, updates⟩ =>
    ⟨scope, kind, foldCondition condition, foldBody body, bodyScope, foldList updates⟩

/-- The fold of every instruction in a condition. -/
def foldCondition : CaseCondition Instr → CaseCondition α
  | ⟨evaluation, result, primitive⟩ => ⟨foldList evaluation, result, primitive⟩

/-- The fold of every instruction in a body. -/
def foldBody : CaseBody Instr → CaseBody α
  | ⟨evaluation, result⟩ => ⟨foldList evaluation, result⟩

/-- The fold of every instruction in an optional body. -/
def foldBody? : Option (CaseBody Instr) → Option (CaseBody α)
  | none => none
  | some b => some (foldBody b)

/-- The fold of every instruction in an optional protected block. -/
def foldTry? : Option (TryBlock Instr) → Option (TryBlock α)
  | none => none
  | some b => some (foldTry b)

/-- The fold of every instruction in a protected block. -/
def foldTry : TryBlock Instr → TryBlock α
  | ⟨scope, evaluation, exception⟩ => ⟨scope, foldList evaluation, exception⟩

/-- The fold of every instruction in an optional finally block. -/
def foldFinally? : Option (FinallyBlock Instr) → Option (FinallyBlock α)
  | none => none
  | some b => some (foldFinally b)

/-- The fold of every instruction in a finally block. -/
def foldFinally : FinallyBlock Instr → FinallyBlock α
  | ⟨scope, evaluation⟩ => ⟨scope, foldList evaluation⟩

/-- The fold of every instruction in a list. -/
def foldList : List Instr → List α
  | [] => []
  | i :: rest => fold i :: foldList rest

end

theorem foldList_eq_map (l : List Instr) :
    foldList f l = l.map (fold f) := by
  induction l with
  | nil => rfl
  | cons i rest ih => simp only [foldList, ih, List.map_cons]

theorem foldVariable_eq_map (v : ChainVariable Instr) :
    foldVariable f v = v.map (fold f) := by
  obtain ⟨name, type, setup⟩ := v
  simp only [foldVariable, foldList_eq_map, ChainVariable.map]

theorem foldCondition_eq_map (c : CaseCondition Instr) :
    foldCondition f c = c.map (fold f) := by
  obtain ⟨evaluation, result, primitive⟩ := c
  simp only [foldCondition, foldList_eq_map, CaseCondition.map]

theorem foldBody_eq_map (b : CaseBody Instr) :
    foldBody f b = b.map (fold f) := by
  obtain ⟨evaluation, result⟩ := b
  simp only [foldBody, foldList_eq_map, CaseBody.map]

theorem foldTry_eq_map (b : TryBlock Instr) :
    foldTry f b = b.map (fold f) := by
  obtain ⟨scope, evaluation, exception⟩ := b
  simp only [foldTry, foldList_eq_map, TryBlock.map]

theorem foldFinally_eq_map (b : FinallyBlock Instr) :
    foldFinally f b = b.map (fold f) := by
  obtain ⟨scope, evaluation⟩ := b
  simp only [foldFinally, foldList_eq_map, FinallyBlock.map]

theorem foldCase_eq_map (c : Case Instr) :
    foldCase f c = c.map (fold f) := by
  obtain ⟨scope, kind, condition, body, bodyScope, updates⟩ := c
  simp only [foldCase, foldCondition_eq_map, foldBody_eq_map, foldList_eq_map, Case.map]

theorem foldCases_eq_map (l : List (Case Instr)) :
    foldCases f l = l.map (·.map (fold f)) := by
  induction l with
  | nil => rfl
  | cons c rest ih => simp only [foldCases, foldCase_eq_map, ih, List.map_cons]

theorem foldChain_eq_map (c : Chain Instr) :
    foldChain f c = c.map (fold f) := by
  obtain ⟨kind, scope, result, subject, returning, cases, fallback, dispatch, tryBlock, last⟩ := c
  simp only [foldChain, Chain.map, foldCases_eq_map]
  congr 1
  · cases subject <;> simp [foldVariable?, foldVariable_eq_map]
  · cases returning <;> simp [foldVariable?, foldVariable_eq_map]
  · cases fallback <;> simp [foldBody?, foldBody_eq_map]
  · cases tryBlock <;> simp [foldTry?, foldTry_eq_map]
  · cases last <;> simp [foldFinally?, foldFinally_eq_map]

theorem foldLogical_eq_map (b : LogicalBlock Instr) :
    foldLogical f b = b.map (fold f) := by
  obtain ⟨op, leftEvaluation, left, condition, rightEvaluation, right, computation, result, scope⟩ := b
  simp only [foldLogical, foldList_eq_map, LogicalBlock.map]

theorem foldPayload_eq_map (p : Payload Instr) :
    foldPayload f p = p.map (fold f) := by
  cases p with
  | plain => rfl
  | call _ => rfl
  | chain c => simp only [foldPayload, foldChain_eq_map, Payload.map]
  | logical b => simp only [foldPayload, foldLogical_eq_map, Payload.map]

/-- The equation of the fold. -/
theorem fold_eq (i : Instr) :
    fold f i = f i (i.payload.map (fold f)) := by
  obtain ⟨opcode, operands, result, location, escape, payload⟩ := i
  rw [fold, foldPayload_eq_map]

/-! ### What an instruction holds -/

variable (i : Instr)

/-- The nested lists of an instruction, in the order of evaluation. -/
def lists : List (List Instr) := i.payload.lists

/-- The instruction followed by everything nested in it. -/
def preorder : Instr → List Instr :=
  fold fun i p => i :: p.lists.flatMap List.flatten

theorem preorder_eq :
    i.preorder = i :: i.lists.flatMap fun l => l.flatMap preorder := by
  rw [preorder, fold_eq, Payload.lists_map, List.flatMap_map]
  rfl

/-- The instructions of a list, each followed by everything nested in it. -/
def preorderAll (l : List Instr) : List Instr := l.flatMap preorder

/-- The instruction with another location. -/
def withLocation (location : Option Location) : Instr := { i with location }

/-- The instruction under another opcode; all else is kept. -/
def withOpcode (opcode : Opcode) : Instr := { i with opcode }

/-- The operand at a position. -/
def operand? (n : Nat) : Option String := i.operands[n]?

/-- Whether the instruction binds a result. -/
def hasResult : Bool := i.result.isSome

/-- The site of a call. -/
def callSite? : Option CallSite :=
  match i.payload with
  | .call site => some site
  | _ => none

/-- The chain the instruction holds. -/
def chain? : Option (Chain Instr) :=
  match i.payload with
  | .chain c => some c
  | _ => none

/-- The logical block the instruction holds. -/
def logical? : Option (LogicalBlock Instr) :=
  match i.payload with
  | .logical b => some b
  | _ => none

/-- The label a branch, label or handler names. -/
def targetLabel? : Option String :=
  match i.opcode with
  | .branch | .setupHandler | .label => i.operand? 0
  | .branchTrue | .branchFalse => i.operand? 1
  | _ => none

/-- The condition a branch or assertion tests. -/
def condition? : Option String :=
  match i.opcode with
  | .branchTrue | .branchFalse | .assert => i.operand? 0
  | _ => none

/-- The value a return hands back. -/
def returnValue? : Option String :=
  match i.opcode with
  | .ret => i.operand? 0
  | _ => none

/-- The value a throw raises. -/
def thrownValue? : Option String :=
  match i.opcode with
  | .throw => i.operand? 0
  | _ => none

/-- The scope an instruction enters, exits, registers to or runs in. -/
def scope? : Option String :=
  match i.opcode with
  | .scopeEnter | .scopeExit => i.operand? 0
  | .scopeRegister | .noScopeRegister | .chain => i.operand? 1
  | .logicalAnd | .logicalOr => i.operand? 4
  | _ => none

/-- The object a memory instruction acts on. -/
def object? : Option String :=
  match i.opcode with
  | .retain | .release | .noRetain | .noRelease | .scopeRegister | .noScopeRegister | .isNull
  | .stackCleanup => i.operand? 0
  | _ => none

/-- The value and type of a literal load. -/
def literal? : Option (String × String) :=
  match i.opcode with
  | .loadLiteral | .stackAllocLiteral => do return (← i.operand? 0, ← i.operand? 1)
  | _ => none

/-- The type an instruction allocates or declares. -/
def type? : Option String :=
  match i.opcode with
  | .allocObject | .stackAlloc => i.operand? 0
  | .loadLiteral | .stackAllocLiteral | .reference => i.operand? 1
  | _ => none

/-- The target and value of a store. -/
def storeParts? : Option (String × String) :=
  match i.opcode with
  | .store => do return (← i.operand? 0, ← i.operand? 1)
  | _ => none

/-- Neighbouring elements in pairs; a last one without partner is left out. -/
def pairUp : List String → List (String × String)
  | value :: label :: rest => (value, label) :: pairUp rest
  | _ => []

/-- The values of a merge with the labels they come from. -/
def incoming? : Option (List (String × String)) :=
  match i.opcode with
  | .phi => some (pairUp i.operands)
  | _ => none

/-- The names an instruction reads, not counting nested instructions. -/
def usedNames : List String :=
  match i.opcode with
  | .call | .callVirtual | .callStatic | .callDispatcher =>
    match i.callSite? with
    | some site => site.target :: site.args
    | none => []
  | .store => (i.operand? 1).toList
  | .phi => (pairUp i.operands).map (·.1)
  | .load | .retain | .release | .isNull | .scopeRegister | .ret | .throw | .noRetain | .noRelease
  | .noScopeRegister | .stackCleanup => (i.operand? 0).toList
  | .branchTrue | .branchFalse | .assert => i.condition?.toList
  | .chain => (i.chain?.bind (·.subject)).toList.map (·.name)
  | .logicalAnd | .logicalOr => []
  | .allocObject | .reference | .loadLiteral | .label | .branch | .setupHandler | .scopeEnter
  | .scopeExit | .stackAlloc | .stackAllocLiteral => []

end Instr

end ScopedIR
