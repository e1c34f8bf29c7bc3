import ScopedIR.EnumDispatch

/-!
# Control flow chains

One construct for every conditional form: the null-safe question operator, guarded assignment, if
and else-if, switch, loops, and try with handlers and a finally block. A chain tests its cases in
order; the first whose condition holds runs its body, and no later case nor the default is looked
at. A loop tests its single case again after every run of its body. A try chain runs its protected
block and hands an exception to the first handler case that takes it; the finally block runs last.

A chain is a container of nested lists of items. The type `ι` of items is a parameter: chains of
instructions are code, chains of texts are what rendering works on, and chains of actions are what
execution runs.

Main definitions:

* `Chain`: the chain and its parts;
* `Chain.map`: change every item, keeping the shape;
* `Chain.lists`: the nested lists in the order of evaluation.
-/

namespace ScopedIR

/-- The form a chain stands for. -/
inductive ChainKind where
  | question
  | ifElse
  | ifElseIf
  | switch
  | switchEnum
  | guardedAssignment
  | whileLoop
  | doWhileLoop
  | tryCatchFinally
deriving DecidableEq, Inhabited

namespace ChainKind

/-- Every form, in order. -/
def all : List ChainKind :=
  [question, ifElse, ifElseIf, switch, switchEnum, guardedAssignment, whileLoop, doWhileLoop,
   tryCatchFinally]

/-- The name of a form in rendered code. -/
def name : ChainKind → String
  | question => "QUESTION_OPERATOR"
  | ifElse => "IF_ELSE"
  | ifElseIf => "IF_ELSE_IF"
  | switch => "SWITCH"
  | switchEnum => "SWITCH_ENUM"
  | guardedAssignment => "GUARDED_ASSIGNMENT"
  | whileLoop => "WHILE_LOOP"
  | doWhileLoop => "DO_WHILE_LOOP"
  | tryCatchFinally => "TRY_CATCH_FINALLY"

/-- The form with a given name. -/
def ofName? (s : String) : Option ChainKind := all.find? fun k => k.name = s

/-- Whether the form compares one subject with every case. -/
def isSwitch : ChainKind → Bool
  | switch | switchEnum => true
  | _ => false

/-- Loops test their case again; every other form is single pass. -/
def isLoop : ChainKind → Bool
  | whileLoop | doWhileLoop => true
  | _ => false

end ChainKind

/-- What a case tests. -/
inductive CaseKind where
  | nullCheck
  | expression
  | literal
  /-- Equality with an enumeration constant of known ordinal. -/
  | enumConstant (constant : String) (ordinal : UInt32)
  /-- A catch clause: it has no condition, and takes exceptions of a type into a variable. -/
  | handler (exceptionType variableName : String)
deriving DecidableEq, Inhabited

namespace CaseKind

/-- The name of a kind in rendered code. -/
def name : CaseKind → String
  | nullCheck => "NULL_CHECK"
  | expression => "EXPRESSION"
  | literal => "LITERAL"
  | enumConstant .. => "ENUM_CONSTANT"
  | handler .. => "EXCEPTION_HANDLER"

/-- Whether the case is an enumeration constant. -/
def isEnumConstant : CaseKind → Bool
  | enumConstant .. => true
  | _ => false

/-- Whether the case is a catch clause. -/
def isHandler : CaseKind → Bool
  | handler .. => true
  | _ => false

/-- The constant and ordinal of an enumeration case. -/
def enumConstant? : CaseKind → Option (String × UInt32)
  | enumConstant constant ordinal => some (constant, ordinal)
  | _ => none

/-- The exception type and variable of a catch clause. -/
def handler? : CaseKind → Option (String × String)
  | handler exceptionType variableName => some (exceptionType, variableName)
  | _ => none

end CaseKind

/-- The test of a case. -/
structure CaseCondition (ι : Type) where
  evaluation : List ι := []
  /-- The Boolean object of the test, absent for null checks. -/
  result : Option String := none
  /-- The primitive truth value the case is taken on. -/
  primitive : String
deriving BEq, Inhabited

/-- The consequence of a case, or the default of a chain. -/
structure CaseBody (ι : Type) where
  evaluation : List ι := []
  result : Option String := none
deriving BEq, Inhabited

/-- One test with its consequence. -/
structure Case (ι : Type) where
  /-- The scope the condition is evaluated in. -/
  scope : Option String := none
  kind : CaseKind
  condition : CaseCondition ι
  body : CaseBody ι
  bodyScope : Option String := none
  /-- What rebinds guard variables after the body ran. -/
  updates : List ι := []
deriving BEq, Inhabited

/-- A variable of a chain together with what sets it up. -/
structure ChainVariable (ι : Type) where
  name : String
  type : String
  setup : List ι := []
deriving BEq, Inhabited

/-- The protected part of a try chain. -/
structure TryBlock (ι : Type) where
  scope : String
  evaluation : List ι := []
  /-- Where a caught exception is bound before its handler runs. -/
  exception : String
deriving BEq, Inhabited

/-- The last part of a try chain. -/
structure FinallyBlock (ι : Type) where
  scope : String
  evaluation : List ι := []
deriving BEq, Inhabited

/-- The unified conditional construct. -/
structure Chain (ι : Type) where
  kind : ChainKind
  scope : String
  result : Option String := none
  /-- The value a switch evaluates once and every case compares with. -/
  subject : Option (ChainVariable ι) := none
  /-- The variable the chain binds its value to. -/
  returning : Option (ChainVariable ι) := none
  cases : List (Case ι) := []
  fallback : Option (CaseBody ι) := none
  dispatch : Option EnumDispatch := none
  tryBlock : Option (TryBlock ι) := none
  finallyBlock : Option (FinallyBlock ι) := none
deriving BEq, Inhabited

/-- Variables declared by a guard. They live in a scope of their own around the chain and are no
part of the chain itself. -/
structure GuardVariables (ι : Type) where
  names : List String
  setup : List ι
  scope : String
  /-- A scope shared by every case condition, if the chain needs one. -/
  conditionScope : Option String := none
deriving BEq, Inhabited

/-! ### Changing the items -/

variable {ι κ : Type}

variable (f : ι → κ)

def CaseCondition.map (c : CaseCondition ι) : CaseCondition κ :=
  { evaluation := c.evaluation.map f, result := c.result, primitive := c.primitive }

def CaseBody.map (b : CaseBody ι) : CaseBody κ :=
  { evaluation := b.evaluation.map f, result := b.result }

def Case.map (c : Case ι) : Case κ :=
  { scope := c.scope
    kind := c.kind
    condition := c.condition.map f
    body := c.body.map f
    bodyScope := c.bodyScope
    updates := c.updates.map f }

def ChainVariable.map (v : ChainVariable ι) : ChainVariable κ :=
  { name := v.name, type := v.type, setup := v.setup.map f }

def TryBlock.map (b : TryBlock ι) : TryBlock κ :=
  { scope := b.scope, evaluation := b.evaluation.map f, exception := b.exception }

def FinallyBlock.map (b : FinallyBlock ι) : FinallyBlock κ :=
  { scope := b.scope, evaluation := b.evaluation.map f }

/-- Change every item of a chain, keeping the shape. -/
def Chain.map (c : Chain ι) : Chain κ :=
  { kind := c.kind
    scope := c.scope
    result := c.result
    subject := c.subject.map (·.map f)
    returning := c.returning.map (·.map f)
    cases := c.cases.map (·.map f)
    fallback := c.fallback.map (·.map f)
    dispatch := c.dispatch
    tryBlock := c.tryBlock.map (·.map f)
    finallyBlock := c.finallyBlock.map (·.map f) }

/-! ### The nested lists -/

/-- The nested lists of a case: condition, body, updates. -/
def Case.lists (c : Case ι) : List (List ι) := [c.condition.evaluation, c.body.evaluation, c.updates]

namespace Chain

/-- The nested lists in the order of evaluation. -/
def lists (c : Chain ι) : List (List ι) :=
  (c.subject.map (·.setup)).toList
    ++ (c.returning.map (·.setup)).toList
    ++ (c.tryBlock.map (·.evaluation)).toList
    ++ c.cases.flatMap Case.lists
    ++ (c.fallback.map (·.evaluation)).toList
    ++ (c.finallyBlock.map (·.evaluation)).toList

/-- Replace the nested lists, one after the other in the order of evaluation. -/
def replaceListsM {m : Type → Type} [Monad m] (f : List ι → m (List κ)) (c : Chain ι) :
    m (Chain κ) := do
  let subject ← c.subject.mapM fun v => do
    return { name := v.name, type := v.type, setup := ← f v.setup : ChainVariable κ }
  let returning ← c.returning.mapM fun v => do
    return { name := v.name, type := v.type, setup := ← f v.setup : ChainVariable κ }
  let tryBlock ← c.tryBlock.mapM fun b => do
    return { scope := b.scope, evaluation := ← f b.evaluation, exception := b.exception :
      TryBlock κ }
  let cases ← c.cases.mapM fun k => do
    let test ← f k.condition.evaluation
    let body ← f k.body.evaluation
    let updates ← f k.updates
    return { scope := k.scope
             kind := k.kind
             condition :=
               { evaluation := test
                 result := k.condition.result
                 primitive := k.condition.primitive }
             body := { evaluation := body, result := k.body.result }
             bodyScope := k.bodyScope
             updates : Case κ }
  let fallback ← c.fallback.mapM fun b => do
    return { evaluation := ← f b.evaluation, result := b.result : CaseBody κ }
  let finallyBlock ← c.finallyBlock.mapM fun b => do
    return { scope := b.scope, evaluation := ← f b.evaluation : FinallyBlock κ }
  return { kind := c.kind, scope := c.scope, result := c.result, subject, returning, cases, fallback,
           dispatch := c.dispatch, tryBlock, finallyBlock }

/-- The names whose values become the value of the chain. -/
def resultSources (c : Chain ι) : List String :=
  c.cases.filterMap (·.body.result) ++ (c.fallback.bind (·.result)).toList

/-- The first handler that takes an exception of type `type`. A handler of type `catchAll` takes
every exception. -/
def handlerFor (c : Chain ι) (type catchAll : String) : Option (Case ι) :=
  c.cases.find? fun k =>
    match k.kind.handler? with
    | some (exceptionType, _) => exceptionType = type || exceptionType = catchAll
    | none => false

theorem lists_map (f : ι → κ) (c : Chain ι) : (c.map f).lists = c.lists.map (·.map f) := by
  have hc : (c.cases.map (·.map f)).flatMap Case.lists
      = (c.cases.flatMap Case.lists).map (·.map f) := by
    induction c.cases with
    | nil => rfl
    | cons k rest ih =>
      simp only [List.map_cons, List.flatMap_cons, ih, List.map_append]
      rfl
  obtain ⟨kind, scope, result, subject, returning, cases, fallback, dispatch, tryBlock, last⟩ := c
  simp only [lists, map, List.map_append] at hc ⊢
  rw [hc]
  cases subject <;> cases returning <;> cases tryBlock <;> cases fallback <;> cases last <;> rfl

end Chain

end ScopedIR
