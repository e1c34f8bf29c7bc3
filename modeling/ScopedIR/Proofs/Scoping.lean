import ScopedIR.Proofs.Names
import ScopedIR.Source.Module

/-!
# Scoping of the source

Which names an expression reads, and what it means that a block uses its names where they are
declared. A name is visible from its declaration to the end of the block it is declared in; a name
that is visible is not declared again. A name that is declared has no dot in it and does not look
like a temporary. The variable that a switch returns is visible in its cases and behind the switch,
but not in its guard nor in its subject.

Main definitions: `Expr.reads`, `Stmt.ScopedIn` and `FunctionDef.WellScoped`.
-/

namespace ScopedIR

/-! ### Reading -/

namespace Expr

mutual

/-- The variables an expression reads, and the objects whose fields it reads. -/
def reads : Expr → List String
  | literal .. => []
  | var _ name => [name]
  | enumConstant .. => []
  | binary _ _ left right _ => reads left ++ reads right
  | unary _ _ operand _ => reads operand
  | isSet _ operand => reads operand
  | logical _ _ left right => reads left ++ reads right
  | call _ target _ args => readsTarget target ++ readsAll args
  | list _ items => readsAll items
  | field _ object _ => [object]

/-- What the target of a call reads. -/
def readsTarget : Option Expr → List String
  | none => []
  | some e => reads e

/-- What expressions read. -/
def readsAll : List Expr → List String
  | [] => []
  | e :: rest => reads e ++ readsAll rest

end

end Expr

/-! ### Declaring -/

/-- A name that may be declared where the names `V` are visible. -/
def Declares (V : List String) (x : String) : Prop := x ∉ V ∧ ¬ IsTemp x ∧ '.' ∉ x.toList

/-- A name that does not begin like a temporary may be declared. -/
theorem declares_of_head {V : List String} {x : String}
    (h : x ∉ V ∧ x.toList.head? ≠ some '_' ∧ '.' ∉ x.toList) : Declares V x :=
  ⟨h.1, not_isTemp_of_head h.2.1, h.2.2⟩

/-- What a guard declares, if there is one. -/
def guardNames (guard : Option Guard) : List String := (guard.map (·.name)).toList

/-- A guard reads what is visible, and declares a name that is not. -/
def GuardIn (V : List String) (guard : Option Guard) : Prop :=
  ∀ g ∈ guard, Declares V g.name ∧ g.init.reads ⊆ V

/-- A test of a switch reads what is visible. -/
def SwitchTest.ScopedIn (V : List String) : SwitchTest → Prop
  | .value e => e.reads ⊆ V
  | .enumConstant _ => True

namespace Stmt

/-- The names that a statement declares for the rest of its block. -/
def declares : Stmt → List String
  | declare _ name .. => [name]
  | switch _ _ _ _ _ returning => guardNames returning
  | _ => []

mutual

/-- The statement uses the names `V` that are visible before it, and what it declares itself. -/
def ScopedIn (V : List String) : Stmt → Prop
  | declare _ name _ init => Declares V name ∧ ∀ e ∈ init, e.reads ⊆ V
  | assign _ name value => name ∈ V ∧ value.reads ⊆ V
  | assignField _ object _ value => object ∈ V ∧ value.reads ⊆ V
  | assignUnset _ name value => name ∈ V ∧ value.reads ⊆ V
  | expr _ e => e.reads ⊆ V
  | ifElse _ guard branches otherwise =>
    GuardIn V guard ∧ BranchesIn (V ++ guardNames guard) branches
      ∧ BlockIn? (V ++ guardNames guard) otherwise
  | switch _ guard subject cases otherwise returning =>
    GuardIn V guard ∧ subject.reads ⊆ V ++ guardNames guard
      ∧ GuardIn (V ++ guardNames guard) returning
      ∧ CasesIn (V ++ guardNames guard ++ guardNames returning) cases
      ∧ BlockIn? (V ++ guardNames guard ++ guardNames returning) otherwise
  | whileLoop _ guard condition body =>
    GuardIn V guard ∧ condition.reads ⊆ V ++ guardNames guard ∧ BlockIn (V ++ guardNames guard) body
  | doWhile _ body condition => BlockIn V body ∧ condition.reads ⊆ V
  | forIn _ name _ collection body =>
    collection.reads ⊆ V ∧ Declares V name ∧ BlockIn (V ++ [name]) body
  | forRange _ name _ first last step body =>
    first.reads ⊆ V ∧ last.reads ⊆ V ∧ (∀ e ∈ step, e.reads ⊆ V) ∧ Declares V name
      ∧ BlockIn (V ++ [name]) body
  | tryCatch _ body catches finallyBody =>
    BlockIn V body ∧ CatchesIn V catches ∧ BlockIn? V finallyBody
  | ret _ value => ∀ e ∈ value, e.reads ⊆ V
  | throw _ value => value.reads ⊆ V
  | assert _ condition => condition.reads ⊆ V

/-- Each statement of a block uses what is visible there. -/
def BlockIn (V : List String) : List Stmt → Prop
  | [] => True
  | s :: rest => ScopedIn V s ∧ BlockIn (V ++ declares s) rest

def BlockIn? (V : List String) : Option (List Stmt) → Prop
  | some block => BlockIn V block
  | none => True

def BranchesIn (V : List String) : List (Expr × List Stmt) → Prop
  | [] => True
  | b :: rest => BranchIn V b ∧ BranchesIn V rest

def BranchIn (V : List String) : Expr × List Stmt → Prop
  | (condition, block) => condition.reads ⊆ V ∧ BlockIn V block

def CasesIn (V : List String) : List (SwitchCase (List Stmt)) → Prop
  | [] => True
  | c :: rest => CaseIn V c ∧ CasesIn V rest

def CaseIn (V : List String) : SwitchCase (List Stmt) → Prop
  | ⟨test, body⟩ => test.ScopedIn V ∧ BlockIn V body

def CatchesIn (V : List String) : List (Catch (List Stmt)) → Prop
  | [] => True
  | c :: rest => CatchIn V c ∧ CatchesIn V rest

def CatchIn (V : List String) : Catch (List Stmt) → Prop
  | ⟨_, variableName, body⟩ => Declares V variableName ∧ BlockIn (V ++ [variableName]) body

end

/-! ### Statements at any depth -/

mutual

/-- The property holds of the statement and of every statement nested in it. -/
def All (P : Stmt → Prop) : Stmt → Prop
  | declare token name type init => P (declare token name type init)
  | assign token name value => P (assign token name value)
  | assignField token object field value => P (assignField token object field value)
  | assignUnset token name value => P (assignUnset token name value)
  | expr token e => P (expr token e)
  | ifElse token guard branches otherwise =>
    P (ifElse token guard branches otherwise) ∧ BranchesAll P branches ∧ BlockAll? P otherwise
  | switch token guard subject cases otherwise returning =>
    P (switch token guard subject cases otherwise returning) ∧ CasesAll P cases
      ∧ BlockAll? P otherwise
  | whileLoop token guard condition body =>
    P (whileLoop token guard condition body) ∧ BlockAll P body
  | doWhile token body condition => P (doWhile token body condition) ∧ BlockAll P body
  | forIn token name type collection body =>
    P (forIn token name type collection body) ∧ BlockAll P body
  | forRange token name type first last step body =>
    P (forRange token name type first last step body) ∧ BlockAll P body
  | tryCatch token body catches finallyBody =>
    P (tryCatch token body catches finallyBody) ∧ BlockAll P body ∧ CatchesAll P catches
      ∧ BlockAll? P finallyBody
  | ret token value => P (ret token value)
  | throw token value => P (throw token value)
  | assert token condition => P (assert token condition)

def BlockAll (P : Stmt → Prop) : List Stmt → Prop
  | [] => True
  | s :: rest => All P s ∧ BlockAll P rest

def BlockAll? (P : Stmt → Prop) : Option (List Stmt) → Prop
  | some block => BlockAll P block
  | none => True

def BranchesAll (P : Stmt → Prop) : List (Expr × List Stmt) → Prop
  | [] => True
  | b :: rest => BranchAll P b ∧ BranchesAll P rest

def BranchAll (P : Stmt → Prop) : Expr × List Stmt → Prop
  | (_, block) => BlockAll P block

def CasesAll (P : Stmt → Prop) : List (SwitchCase (List Stmt)) → Prop
  | [] => True
  | c :: rest => CaseAll P c ∧ CasesAll P rest

def CaseAll (P : Stmt → Prop) : SwitchCase (List Stmt) → Prop
  | ⟨_, body⟩ => BlockAll P body

def CatchesAll (P : Stmt → Prop) : List (Catch (List Stmt)) → Prop
  | [] => True
  | c :: rest => CatchAll P c ∧ CatchesAll P rest

def CatchAll (P : Stmt → Prop) : Catch (List Stmt) → Prop
  | ⟨_, _, body⟩ => BlockAll P body

end

/-- The names that a guard mentions. -/
def guardMentions (guard : Option Guard) : List String :=
  (guard.map fun g => g.name :: g.init.reads).getD []

/-- What a test of a switch reads. -/
def testReads : SwitchTest → List String
  | .value e => e.reads
  | .enumConstant _ => []

/-- The names that a statement mentions, apart from the statements nested in it. -/
def mentions : Stmt → List String
  | declare _ name _ init => name :: (init.map Expr.reads).getD []
  | assign _ name value | assignField _ name _ value | assignUnset _ name value => name :: value.reads
  | expr _ e => e.reads
  | ifElse _ guard branches _ => guardMentions guard ++ branches.flatMap (·.1.reads)
  | switch _ guard subject cases _ returning =>
    guardMentions guard ++ subject.reads ++ cases.flatMap (testReads ·.test) ++ guardMentions returning
  | whileLoop _ guard condition _ => guardMentions guard ++ condition.reads
  | doWhile _ _ condition => condition.reads
  | forIn _ name _ collection _ => name :: collection.reads
  | forRange _ name _ first last step _ =>
    name :: (first.reads ++ last.reads ++ (step.map Expr.reads).getD [])
  | tryCatch _ _ catches _ => catches.map (·.variableName)
  | ret _ value => (value.map Expr.reads).getD []
  | throw _ e | assert _ e => e.reads

/-- A statement that mentions ordinary names only. -/
def Spelled (s : Stmt) : Prop := ∀ x ∈ s.mentions, Ordinary x

/-- Whether the statement is a counting loop. -/
def isForRange : Stmt → Bool
  | forRange .. => true
  | _ => false

/-- Whether the statement assigns a field. -/
def isFieldAssignment : Stmt → Bool
  | assignField .. => true
  | _ => false

end Stmt

/-- The function that a program runs. -/
def ProgramDef.toFunction (p : ProgramDef) : FunctionDef :=
  { name := p.name, returnType := TypeName.void, body := p.body, token := p.token }

/-- The functions of a construct: the function itself, the methods of a type, or what a program
runs. -/
def ConstructDef.functions : ConstructDef → List FunctionDef
  | function f => [f]
  | type t => t.methods
  | program p => [p.toFunction]

/-- The functions of a module. -/
def SourceModule.functions (m : SourceModule) : List FunctionDef :=
  m.constructs.flatMap ConstructDef.functions

/-- The initial values of the fields of a construct. -/
def ConstructDef.initials : ConstructDef → List Expr
  | type t => t.fields.filterMap (·.init)
  | _ => []

/-- The names of parameters. -/
def paramNames (params : List TypedName) : List String := params.map (·.name)

/-- A module whose parameters, statements and initial values mention ordinary names only. -/
structure SourceModule.Spelled (m : SourceModule) : Prop where
  params : ∀ f ∈ m.functions, ∀ x ∈ paramNames f.params, Ordinary x
  body : ∀ f ∈ m.functions, Stmt.BlockAll Stmt.Spelled f.body
  initial : ∀ c ∈ m.constructs, ∀ e ∈ c.initials, ∀ x ∈ e.reads, Ordinary x

/-- The parameters are names that may be declared, and the body uses its names where they are
visible. -/
structure FunctionDef.WellScoped (f : FunctionDef) : Prop where
  params : ∀ x ∈ paramNames f.params, ¬ IsTemp x ∧ '.' ∉ x.toList
  body : Stmt.BlockIn (paramNames f.params) f.body

end ScopedIR
