import ScopedIR.Arena
import ScopedIR.Opcode

/-!
# Faults

The ways in which running code can fail.
-/

namespace ScopedIR

/-- The position of an object in the heap. -/
structure ObjectId where
  index : Nat
deriving DecidableEq, Inhabited

/-- How an object is written in messages. -/
def ObjectId.text (id : ObjectId) : String := positionText id.index

/-- A failure of a run. -/
inductive Fault where
  | unbound (name : String)
  | notPrimitive (name : String)
  | doubleRelease (id : ObjectId)
  | useAfterFree (id : ObjectId)
  | unknownScope (scope : String)
  | scopeMismatch (expected found : String)
  | unknownLabel (label : String)
  | jumpOutOfStructure (opcode : Opcode)
  | phiWithoutEdge (instr : String)
  | assertionFailed (condition : String)
  | nullHolder (target : String)
  | nullReceiver (method : String)
  | unknownMethod (type method : String)
  | callFailed (reason : String)
  | malformed (instr : String)
  | stepLimit (limit : Nat)
deriving DecidableEq, Inhabited

/-- The name of the kind of a fault, for reports. -/
def Fault.kind : Fault → String
  | unbound _ => "Unbound"
  | notPrimitive _ => "NotPrimitive"
  | doubleRelease _ => "DoubleRelease"
  | useAfterFree _ => "UseAfterFree"
  | unknownScope _ => "UnknownScope"
  | scopeMismatch .. => "ScopeMismatch"
  | unknownLabel _ => "UnknownLabel"
  | jumpOutOfStructure _ => "JumpOutOfStructure"
  | phiWithoutEdge _ => "PhiWithoutEdge"
  | assertionFailed _ => "AssertionFailed"
  | nullHolder _ => "NullHolder"
  | nullReceiver _ => "NullReceiver"
  | unknownMethod .. => "UnknownMethod"
  | callFailed _ => "CallFailed"
  | malformed _ => "Malformed"
  | stepLimit _ => "StepLimit"

/-- The message of a fault. -/
def Fault.message : Fault → String
  | unbound name => "`" ++ name ++ "` is not bound"
  | notPrimitive name => "`" ++ name ++ "` is not a primitive boolean"
  | doubleRelease id => "object " ++ id.text ++ " released more times than retained"
  | useAfterFree id => "object " ++ id.text ++ " used after being freed"
  | unknownScope scope => "scope `" ++ scope ++ "` is not open"
  | scopeMismatch expected found =>
    "exit of scope `" ++ found ++ "` while `" ++ expected ++ "` is innermost"
  | unknownLabel label => "no block labeled `" ++ label ++ "`"
  | jumpOutOfStructure opcode => opcode.name ++ " cannot leave a nested instruction list"
  | phiWithoutEdge instr => "no incoming value of phi `" ++ instr ++ "` for the taken edge"
  | assertionFailed condition => "assertion on `" ++ condition ++ "` failed"
  | nullHolder target => "store to `" ++ target ++ "`, whose object is null"
  | nullReceiver method => "call of `" ++ method ++ "` on a null receiver"
  | unknownMethod type method => "no builtin `" ++ type ++ "." ++ method ++ "`"
  | callFailed reason => "call failed: " ++ reason
  | malformed instr => "malformed `" ++ instr ++ "`"
  | stepLimit limit => "step limit of " ++ Nat.repr limit ++ " exceeded"

end ScopedIR
