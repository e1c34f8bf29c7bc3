import ScopedIR.Defect
import ScopedIR.Instr.Text

/-!
# Building instructions

One constructor per instruction form. A constructor refuses empty names where the form needs a name,
and reports the first one in the order of its arguments.
-/

namespace ScopedIR.Instr

/-- The name itself, unless it is empty. -/
def named (role name : String) : Except Defect String :=
  if name.isEmpty then .error (.emptyName role) else .ok name

theorem named_eq_ok_iff (role name s : String) : named role name = .ok s ↔ name ≠ "" ∧ s = name := by
  unfold named
  by_cases h : name = ""
  · simp [h]
  · simp only [String.isEmpty_iff, h, if_false, Except.ok.injEq, ne_eq, not_false_eq_true,
      true_and]
    exact eq_comm

/-- An instruction without payload. A result, if there is one, needs a name. -/
def bare (opcode : Opcode) (result : Option String) (operands : List String) :
    Except Defect Instr :=
  if result = some "" then .error (.emptyResult opcode) else .ok { opcode, operands, result }

/-- The instruction with one more operand. -/
def addOperand (i : Instr) (operand : String) : Instr :=
  { i with operands := i.operands ++ [operand] }

/-- Attach an escape fact; an instruction takes only one. -/
def setEscape (i : Instr) (fact : EscapeFact) : Except Defect Instr :=
  if i.escape.isSome then .error (.escapeAlreadySet i.text) else .ok { i with escape := some fact }

/-! ### Memory -/

def allocObject (result type : String) : Except Defect Instr := do
  let result ← named "allocation result" result
  bare .allocObject (some result) [← named "allocated type" type]

def load (result source : String) : Except Defect Instr := do
  let result ← named "load result" result
  bare .load (some result) [← named "load source" source]

def store (target value : String) : Except Defect Instr := do
  let target ← named "store target" target
  bare .store none [target, ← named "stored value" value]

def reference (name type : String) : Except Defect Instr := do
  let name ← named "variable name" name
  bare .reference none [name, ← named "variable type" type]

def retain (object : String) : Except Defect Instr := do
  bare .retain none [← named "retained object" object]

def release (object : String) : Except Defect Instr := do
  bare .release none [← named "released object" object]

def isNull (result object : String) : Except Defect Instr := do
  let result ← named "null check result" result
  bare .isNull (some result) [← named "null checked object" object]

/-- Load a literal; its text may be empty. -/
def loadLiteral (result value type : String) : Except Defect Instr := do
  let result ← named "literal result" result
  bare .loadLiteral (some result) [value, ← named "literal type" type]

/-! ### Calls -/

/-- A call; without a result its value is discarded. -/
def call (opcode : Opcode) (result : Option String) (site : CallSite) : Except Defect Instr := do
  if !opcode.isCall then
    .error (.notACall opcode)
  let i ← bare opcode result [site.operand]
  return { i with payload := .call site }

/-! ### Branches -/

def label (label : String) : Except Defect Instr := do
  bare .label none [← named "label" label]

def branch (label : String) : Except Defect Instr := do
  bare .branch none [← named "branch target" label]

/-- A branch taken when `condition` is `sense`. -/
def branchOn (sense : Bool) (condition label : String) : Except Defect Instr := do
  let condition ← named "branch condition" condition
  bare (if sense then .branchTrue else .branchFalse) none
    [condition, ← named "branch target" label]

def assert (condition : String) : Except Defect Instr := do
  bare .assert none [← named "assert condition" condition]

/-- A return; the name of its value is not checked. -/
def ret (value : Option String) : Except Defect Instr := bare .ret none value.toList

def throw (value : String) : Except Defect Instr := do
  bare .throw none [← named "thrown value" value]

def setupHandler (label exceptionType : String) : Except Defect Instr := do
  let label ← named "handler label" label
  bare .setupHandler none [label, ← named "exception type" exceptionType]

/-! ### Scopes -/

def scopeEnter (scope : String) : Except Defect Instr := do
  bare .scopeEnter none [← named "scope id" scope]

def scopeExit (scope : String) : Except Defect Instr := do
  bare .scopeExit none [← named "scope id" scope]

def scopeRegister (object scope : String) : Except Defect Instr := do
  let object ← named "registered object" object
  bare .scopeRegister none [object, ← named "scope id" scope]

def stackCleanup (object : String) : Except Defect Instr := do
  bare .stackCleanup none [← named "stack object" object]

/-! ### Merges and structured instructions -/

/-- A merge of values by the label control comes from. -/
def phi (result : String) (incoming : List (String × String)) : Except Defect Instr := do
  if incoming.isEmpty then
    .error .mergeWithoutValues
  else
    let result ← named "phi result" result
    bare .phi (some result) (incoming.flatMap fun p => [p.1, p.2])

/-- The instruction of a chain. The operands sum it up: form, scope, and the variables if any. -/
def ofChain (c : Chain Instr) : Except Defect Instr := do
  let i ← bare .chain c.result
    ([c.kind.name, c.scope] ++ (c.subject.map (·.name)).toList ++ (c.returning.map (·.name)).toList)
  return { i with payload := .chain c }

/-- The instruction of a logical block. -/
def ofLogical (result : String) (b : LogicalBlock Instr) : Except Defect Instr := do
  let opcode :=
    match b.op with
    | .and => .logicalAnd
    | .or => .logicalOr
  let left ← named "left operand" b.left
  let condition ← named "left condition" b.condition
  let right ← named "right operand" b.right
  let computed ← named "logical result" b.result
  let scope ← named "scope id" b.scope
  let result ← named "logical block result" result
  let i ← bare opcode (some result) [left, condition, right, computed, scope]
  return { i with payload := .logical b }

end ScopedIR.Instr
