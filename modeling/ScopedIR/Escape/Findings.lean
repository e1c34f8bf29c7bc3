import ScopedIR.CodeUnit
import ScopedIR.FinMap

/-!
# Findings of the escape analysis

What single instructions say about how far objects travel. A finding is a lower bound for one name,
an edge along which levels or objects pass, or the scope an object was registered to.

Main definitions:

* `Instr.findings`: what one instruction says, nested instructions apart;
* `Escape.Findings`: the findings of some code, sorted by kind.
-/

namespace ScopedIR

namespace Escape

/-- What one instruction says about the objects it touches. -/
inductive Finding where
  /-- `name` escapes at least as far as `level`. -/
  | floor (name : String) (level : EscapeLevel)
  /-- `target` escapes at least as far as `source`. -/
  | flow (source target : String)
  /-- `target` may be the object bound to `source`. -/
  | aliasing (source target : String)
  /-- `value` is stored to a variable. -/
  | store (target value : String)
  /-- `object` is released by `scope`. -/
  | scope (object scope : String)
  /-- `name` holds a reference in one of its fields. -/
  | holder (name : String)
deriving DecidableEq, Inhabited

/-- The part of a name before its first dot, if it has one: the object whose field is named. -/
def fieldHolder? (name : String) : Option String :=
  if '.' ∈ name.toList then some (String.ofList (name.toList.takeWhile (· ≠ '.'))) else none

/-- What a call says. An impure call, or one that does input or output, may publish everything it
is given. The result of a pure call may be one of its operands, and a constructor may keep its
arguments in the new object. -/
def ofCall (pureCalls : Bool) (i : Instr) (site : CallSite) : List Finding :=
  if !site.facts.isPure || site.facts.doesIo then
    i.usedNames.map fun name => .floor name .global
  else
    let level : EscapeLevel := if pureCalls then .none else .arg
    (i.usedNames.flatMap fun name =>
        .floor name level :: i.result.toList.map fun result => .flow result name)
      ++ (if site.isConstructor then site.args.map fun arg => .flow site.target arg else [])

/-- What a store says. A value stored to a field is published; a value stored to a variable goes as
far as the scopes of both tell. -/
def ofStore (target value : String) : List Finding :=
  (match fieldHolder? target with
    | some holder => [.floor value .global, .holder holder]
    | none => [.store target value])
    ++ [.aliasing target value]

end Escape

open Escape in
/-- What an instruction says, nested instructions apart. The flag tells whether objects that are
only handed to pure calls count as confined. -/
def Instr.findings (pureCalls : Bool) (i : Instr) : List Finding :=
  match i.opcode with
  | .call | .callVirtual | .callStatic | .callDispatcher =>
    match i.callSite? with
    | some site => ofCall pureCalls i site
    | none => []
  | .store =>
    match i.storeParts? with
    | some (target, value) => ofStore target value
    | none => []
  | .load =>
    match i.result, i.operand? 0 with
    | some result, some source =>
      if (fieldHolder? source).isSome then [] else [.flow result source, .aliasing result source]
    | _, _ => []
  | .ret | .throw | .phi => i.usedNames.map fun name => .floor name .global
  | .scopeRegister =>
    match i.object?, i.scope? with
    | some object, some scope => [.scope object scope]
    | _, _ => []
  | .chain =>
    match i.chain? with
    | some c => c.resultSources.map fun name => .floor name .global
    | none => []
  | .logicalAnd | .logicalOr =>
    match i.logical? with
    | some b => [.floor b.left .global, .floor b.result .global]
    | none => []
  | _ => []

namespace Escape

/-- Findings sorted by kind. -/
structure Findings where
  floors : List (String × EscapeLevel) := []
  flows : List (String × String) := []
  aliases : List (String × String) := []
  stores : List (String × String) := []
  /-- The scope each object was registered to last. -/
  scopes : FinMap String String := .empty
  holders : List String := []
deriving DecidableEq, Inhabited

namespace Findings

/-- Take in one more finding. -/
def add (f : Findings) : Finding → Findings
  | .floor name level => { f with floors := f.floors ++ [(name, level)] }
  | .flow source target => { f with flows := f.flows ++ [(source, target)] }
  | .aliasing source target => { f with aliases := f.aliases ++ [(source, target)] }
  | .store target value => { f with stores := f.stores ++ [(target, value)] }
  | .scope object scope => { f with scopes := f.scopes.insert object scope }
  | .holder name => { f with holders := f.holders ++ [name] }

/-- The findings of a list of instructions and everything nested in them. -/
def ofInstrs (pureCalls : Bool) (l : List Instr) : Findings :=
  ((Instr.preorderAll l).flatMap (·.findings pureCalls)).foldl add { scopes := .empty }

end Findings

end Escape

end ScopedIR
