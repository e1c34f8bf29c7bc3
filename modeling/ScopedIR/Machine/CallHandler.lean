import ScopedIR.Call
import ScopedIR.Machine.Fault
import ScopedIR.Machine.Value

/-!
# Call handlers

Calls of running code are answered from outside. A handler is given the site of the call, the
receiver and the arguments, and may keep a state of its own between calls.
-/

namespace ScopedIR

/-- What a call produced. -/
inductive CallOutcome where
  | void
  /-- A new object. -/
  | object (v : Value)
  /-- A primitive truth value. -/
  | primitive (b : Bool)
  /-- The callee threw a new exception object. -/
  | throw (v : Value)
deriving DecidableEq, Inhabited

/-- The receiver of a call. -/
inductive Receiver where
  /-- The target is a type. -/
  | static
  | null
  | object (v : Value)
deriving DecidableEq, Inhabited

namespace Receiver

/-- The value of the receiver, if it is an object. -/
def value? : Receiver → Option Value
  | object v => some v
  | _ => none

/-- The receiver after its object got another value. -/
def update (r : Receiver) (v : Value) : Receiver :=
  match r with
  | object _ => object v
  | other => other

end Receiver

/-- The answer to a call: the outcome, and the receiver as the call left it. -/
structure CallReply where
  outcome : CallOutcome
  receiver : Receiver
deriving DecidableEq, Inhabited

/-- Answers calls. An argument that is null is absent. The state is kept also when a call fails. -/
abbrev CallHandler (σ : Type) :=
  CallSite → Receiver → List (Option Value) → σ → Except Fault CallReply × σ

end ScopedIR
