/-!
# Opcodes

The closed set of instruction opcodes. There are no arithmetic opcodes: every operator is lowered to
a call of its method.
-/

namespace ScopedIR

/-- The family an opcode belongs to. -/
inductive OpcodeGroup where
  /-- Allocation, loads, stores and reference counting. -/
  | memory
  /-- Loading a literal value. -/
  | literal
  /-- Calls of every kind. -/
  | call
  /-- Labels, branches, returns and exception flow. -/
  | branch
  /-- Lexical memory regions. -/
  | scope
  /-- The merge of values from several edges. -/
  | phi
  /-- Constructs that carry nested instruction lists. -/
  | structured
  /-- Markers that only an optimization emits. -/
  | marker
deriving DecidableEq, Inhabited

/-- The name of a family. -/
def OpcodeGroup.name : OpcodeGroup → String
  | memory => "Memory"
  | literal => "Literal"
  | call => "Call"
  | branch => "Branch"
  | scope => "Scope"
  | phi => "Phi"
  | structured => "Structured"
  | marker => "OptimizationMarker"

/-- What an instruction does. -/
inductive Opcode where
  | allocObject
  | load
  | store
  | reference
  | retain
  | release
  | isNull
  | loadLiteral
  | call
  | callVirtual
  | callStatic
  | callDispatcher
  | label
  | branch
  | branchTrue
  | branchFalse
  | assert
  | ret
  | throw
  | setupHandler
  | scopeEnter
  | scopeExit
  | scopeRegister
  | phi
  | chain
  | logicalAnd
  | logicalOr
  | noRetain
  | noRelease
  | noScopeRegister
  | stackAlloc
  | stackAllocLiteral
  | stackCleanup
deriving DecidableEq, Inhabited

namespace Opcode

/-- Every opcode, in order. -/
def all : List Opcode :=
  [allocObject, load, store, reference, retain, release, isNull, loadLiteral, call, callVirtual,
   callStatic, callDispatcher, label, branch, branchTrue, branchFalse, assert, ret, throw,
   setupHandler, scopeEnter, scopeExit, scopeRegister, phi, chain, logicalAnd, logicalOr, noRetain,
   noRelease, noScopeRegister, stackAlloc, stackAllocLiteral, stackCleanup]

/-- The family of an opcode. -/
def group : Opcode → OpcodeGroup
  | allocObject | load | store | reference | retain | release | isNull => .memory
  | loadLiteral => .literal
  | call | callVirtual | callStatic | callDispatcher => .call
  | label | branch | branchTrue | branchFalse | assert | ret | throw | setupHandler => .branch
  | scopeEnter | scopeExit | scopeRegister => .scope
  | phi => .phi
  | chain | logicalAnd | logicalOr => .structured
  | noRetain | noRelease | noScopeRegister | stackAlloc | stackAllocLiteral | stackCleanup =>
    .marker

/-- The name of an opcode in rendered code. -/
def name : Opcode → String
  | allocObject => "ALLOC_OBJECT"
  | load => "LOAD"
  | store => "STORE"
  | reference => "REFERENCE"
  | retain => "RETAIN"
  | release => "RELEASE"
  | isNull => "IS_NULL"
  | loadLiteral => "LOAD_LITERAL"
  | call => "CALL"
  | callVirtual => "CALL_VIRTUAL"
  | callStatic => "CALL_STATIC"
  | callDispatcher => "CALL_DISPATCHER"
  | label => "LABEL"
  | branch => "BRANCH"
  | branchTrue => "BRANCH_TRUE"
  | branchFalse => "BRANCH_FALSE"
  | assert => "ASSERT"
  | ret => "RETURN"
  | throw => "THROW"
  | setupHandler => "SETUP_HANDLER"
  | scopeEnter => "SCOPE_ENTER"
  | scopeExit => "SCOPE_EXIT"
  | scopeRegister => "SCOPE_REGISTER"
  | phi => "PHI"
  | chain => "CONTROL_FLOW_CHAIN"
  | logicalAnd => "LOGICAL_AND_BLOCK"
  | logicalOr => "LOGICAL_OR_BLOCK"
  | noRetain => "NO_RETAIN"
  | noRelease => "NO_RELEASE"
  | noScopeRegister => "NO_SCOPE_REGISTER"
  | stackAlloc => "STACK_ALLOC"
  | stackAllocLiteral => "STACK_ALLOC_LITERAL"
  | stackCleanup => "STACK_CLEANUP_REFS"

/-- The opcode with a given name. -/
def ofName? (s : String) : Option Opcode := all.find? fun op => op.name = s

/-- Jumps to a label. -/
def isBranch : Opcode → Bool
  | branch | branchTrue | branchFalse => true
  | _ => false

/-- Jumps taken on a condition. -/
def isConditionalBranch : Opcode → Bool
  | branchTrue | branchFalse => true
  | _ => false

/-- Calls of every kind. -/
def isCall (op : Opcode) : Bool := op.group = .call

/-- Scope events. -/
def isScope (op : Opcode) : Bool := op.group = .scope

/-- Opcodes that only an optimization emits. -/
def isMarker (op : Opcode) : Bool := op.group = .marker

/-- Opcodes that leave the operation, and with it every scope open at that point. -/
def departs : Opcode → Bool
  | ret | throw => true
  | _ => false

/-- Opcodes that make a fresh object, which a later scope exit must release. -/
def isHeapAllocation : Opcode → Bool
  | allocObject | loadLiteral => true
  | _ => false

/-- What replaces an opcode once its object lives on the stack. -/
def stackCounterpart : Opcode → Option Opcode
  | allocObject => some stackAlloc
  | loadLiteral => some stackAllocLiteral
  | retain => some noRetain
  | release => some noRelease
  | scopeRegister => some noScopeRegister
  | _ => none

end Opcode

end ScopedIR
