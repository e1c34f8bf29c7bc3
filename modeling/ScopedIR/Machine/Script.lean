import ScopedIR.FinMap
import ScopedIR.Machine.Builtin

/-!
# Scripted calls

A script gives the answers to some methods in advance, by rules named `type.method`; calls of all
other methods go to the built-in ones. Every call is recorded.
-/

namespace ScopedIR

/-- A scripted answer. Its parts are tried in the order of the fields, and the first one present
answers, except that `set` goes on after it changed the receiver. -/
structure ScriptRule where
  /-- Thrown when the first argument is a negative Integer. -/
  throwIfNegative : Option Value := none
  /-- The new value of a receiver that is an object. -/
  set : Option Value := none
  /-- The position of an argument to answer a copy of. -/
  echo : Option Nat := none
  object : Option Value := none
  throw : Option Value := none
  primitive : Option Bool := none
  /-- The reason of a failure. -/
  fail : Option String := none
deriving DecidableEq, Inhabited

/-- The rules of a script by type and method, with a dot between. -/
abbrev Script := FinMap String ScriptRule

/-- What a scripted handler remembers. -/
structure CallLog where
  /-- The calls, the latest first. -/
  calls : List String := []
  /-- The number of calls answered by built-in methods. -/
  builtin : Nat := 0
deriving DecidableEq, Inhabited

namespace ScriptRule

/-- Whether the first argument is a negative Integer. -/
def negativeFirst : List (Option Value) → Bool
  | some (.integer n) :: _ => n < 0
  | _ => false

/-- The outcome of a call by the parts after `set`. -/
def outcome (rule : ScriptRule) (site : CallSite) (args : List (Option Value)) :
    Except Fault CallOutcome :=
  match rule.echo, rule.object, rule.throw, rule.primitive, rule.fail with
  | some n, _, _, _, _ =>
    match args[n]? with
    | some (some v) => .ok (.object v)
    | _ => .error (.callFailed site.operand)
  | none, some v, _, _, _ => .ok (.object v)
  | none, none, some v, _, _ => .ok (.throw v)
  | none, none, none, some b, _ => .ok (.primitive b)
  | none, none, none, none, some reason => .error (.callFailed reason)
  | none, none, none, none, none => .ok .void

/-- The receiver after the part `set`. -/
def receiver (rule : ScriptRule) (r : Receiver) : Receiver :=
  match rule.set with
  | some v => r.update v
  | none => r

/-- The answer of a rule. -/
def respond (rule : ScriptRule) (site : CallSite) (r : Receiver) (args : List (Option Value)) :
    Except Fault CallReply :=
  match rule.throwIfNegative, negativeFirst args with
  | some v, true => .ok { outcome := .throw v, receiver := r }
  | _, _ => do return { outcome := ← rule.outcome site args, receiver := rule.receiver r }

end ScriptRule

/-- A handler that records each call, and answers it by the script or by a built-in method. -/
def Script.handler (script : Script) : CallHandler CallLog := fun site r args log =>
  let log := { log with calls := site.operand :: log.calls }
  match script.get? (site.targetType ++ "." ++ site.method) with
  | some rule => (rule.respond site r args, log)
  | none =>
    let (reply, builtin) := Builtin.handler site r args log.builtin
    (reply, { log with builtin })

end ScopedIR
