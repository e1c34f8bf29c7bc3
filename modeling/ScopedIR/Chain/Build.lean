import ScopedIR.Defect
import ScopedIR.Instr

/-!
# Building chains

The conditions under which parts form a case or a chain. `Chain.validate` checks a chain against its
form and reports the first condition that fails.
-/

namespace ScopedIR

variable {ι : Type}

/-- A condition with a primitive to branch on. -/
def CaseCondition.build (evaluation : List ι) (result : Option String) (primitive : String) :
    Except Defect (CaseCondition ι) :=
  if primitive.isEmpty then .error .conditionWithoutPrimitive
  else .ok { evaluation, result, primitive }

namespace Case

/-- A case of a kind that carries no data. -/
def build (kind : CaseKind) (scope : Option String) (condition : CaseCondition ι)
    (body : CaseBody ι) : Case ι :=
  { scope, kind, condition, body }

/-- A case that tests for an enumeration constant. -/
def enumConstant (scope : Option String) (constant : String) (ordinal : UInt32)
    (condition : CaseCondition ι) (body : CaseBody ι) : Except Defect (Case ι) :=
  if constant.isEmpty then .error .enumCaseWithoutConstant
  else .ok { scope, kind := .enumConstant constant ordinal, condition, body }

/-- A catch clause. There is nothing to evaluate: the type is matched when an exception arrives. -/
def handler (scope : Option String) (exceptionType variableName : String) (body : CaseBody ι) :
    Except Defect (Case ι) :=
  if exceptionType.isEmpty || variableName.isEmpty then .error .incompleteHandler
  else .ok { scope, kind := .handler exceptionType variableName, condition := { primitive := "" },
             body }

end Case

/-- Dispatch hints over values parallel to their ordinals. -/
def EnumDispatch.build (enumType : String) (values : List String) (ordinals : List UInt32)
    (exhaustive : Bool) : Except Defect EnumDispatch :=
  if values.length ≠ ordinals.length then
    .error (.ordinalsNotParallel values.length ordinals.length)
  else .ok { enumType, values, ordinals, exhaustive }

namespace Chain

/-- An empty chain of a form; it needs a scope. -/
def start (kind : ChainKind) (scope : String) : Except Defect (Chain ι) :=
  if scope.isEmpty then .error (.chainWithoutScope kind) else .ok { kind, scope }

/-- Fail with `defect` unless the condition holds. -/
def require (holds : Bool) (defect : Defect) : Except Defect Unit :=
  if holds then .ok () else .error defect

@[simp] theorem require_eq_ok_iff (holds : Bool) (defect : Defect) (u : Unit) :
    require holds defect = .ok u ↔ holds = true := by
  cases holds <;> simp [require]

/-- Whether every case has the given kind. -/
def allCases (c : Chain ι) (kind : CaseKind) : Bool := c.cases.all fun k => k.kind = kind

/-- What a form asks of the cases and parts of its chains. -/
def checkForm (c : Chain ι) : Except Defect Unit :=
  match c.kind with
  | .question =>
    require (c.cases.length == 1 && c.allCases .nullCheck) .questionNeedsNullCheck
  | .ifElse | .whileLoop | .doWhileLoop =>
    require (c.cases.length == 1 && c.allCases .expression) (.needsOneExpression c.kind)
  | .ifElseIf | .guardedAssignment => require (c.allCases .expression) (.onlyExpressions c.kind)
  | .switch => do
    require c.subject.isSome .switchWithoutSubject
    require (c.cases.all fun k => k.kind = .literal || k.kind = .expression) .switchWithOtherCases
  | .switchEnum => do
    require c.subject.isSome .enumSwitchWithoutSubject
    require (c.cases.all fun k => k.kind.isEnumConstant) .enumSwitchWithOtherCases
    require c.dispatch.isSome .enumSwitchWithoutDispatch
  | .tryCatchFinally => do
    require c.tryBlock.isSome .tryWithoutBlock
    require (!c.cases.isEmpty || c.finallyBlock.isSome) .tryWithoutHandlers
    require ((c.cases.all fun k => k.kind.isHandler) && c.fallback.isNone) .tryWithOtherCases

/-- The chain itself, if its parts form a chain of its form. -/
def validate (c : Chain ι) : Except Defect (Chain ι) := do
  let isTry := c.kind == .tryCatchFinally
  require (!c.cases.isEmpty || c.fallback.isSome || isTry) (.emptyChain c.kind)
  require (isTry || (c.tryBlock.isNone && c.finallyBlock.isNone)) (.strayTryBlock c.kind)
  c.checkForm
  require (!(c.kind.isLoop && c.fallback.isSome)) (.loopWithDefault c.kind)
  return c

/-- The question operator: a null operand yields the value of the case, any other the fallback. -/
def question (result : String) (nullCase : Case ι) (setCase : CaseBody ι) (scope : String) :
    Except Defect (Chain ι) := do
  let c ← start .question scope
  validate { c with result := some result, cases := [nullCase], fallback := some setCase }

/-- Guarded assignment: the case tests that the target is unset, and its body assigns. -/
def guardedAssignment (unsetCase : Case ι) (scope : String) : Except Defect (Chain ι) := do
  let c ← start .guardedAssignment scope
  validate { c with cases := [unsetCase] }

end Chain

end ScopedIR
