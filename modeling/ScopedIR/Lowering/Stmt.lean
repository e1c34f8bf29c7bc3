import ScopedIR.Lowering.Flow

/-!
# Lowering statements

The code of a statement and of a block, by recursion on the source. A block ends with the first
statement that departs; what stands behind it is not lowered.
-/

namespace ScopedIR

open Lowering

/-- A guard with the code of its value. -/
def Guard.lower (g : Guard) : GuardCode := { name := g.name, type := g.type, init := g.init.lower }

namespace Stmt

mutual

/-- The code of a statement. -/
def lower : Stmt → Gen Unit
  | declare token name type init => do
    genDeclare (← Gen.location token) name type (init.map Expr.lower)
  | assign token name value => do genAssign (← Gen.location token) name value.lower
  | assignField token object field value => do
    genAssignField (← Gen.location token) object field value.lower
  | assignUnset token name value => do genAssignUnset (← Gen.location token) name value.lower
  | expr _ e => do
    let _ ← e.lower.gen
  | ifElse token guard branches otherwise => do
    genIf (← Gen.location token) (guard.map Guard.lower) (lowerBranches branches)
      (lowerBlock? otherwise)
  | switch token guard subject cases otherwise returning => do
    genSwitch (← Gen.location token) (guard.map Guard.lower) subject.lower (lowerCases cases)
      (lowerBlock? otherwise) (returning.map Guard.lower)
  | whileLoop token guard condition body => do
    genWhile (← Gen.location token) (guard.map Guard.lower) condition.lower (lowerBlock body)
  | doWhile token body condition => do
    genLoop (← Gen.location token) .doWhileLoop condition.lower (lowerBlock body) none
  | forIn token name type collection body => do
    genForIn (← Gen.location token) name type collection.lower (lowerBlock body)
  | forRange token name type first last step body => do
    genForRange (← Gen.location token) name type first.lower last.lower (step.map Expr.lower)
      (lowerBlock body)
  | tryCatch token body catches finallyBody => do
    genTry (← Gen.location token) (lowerBlock body) (lowerCatches catches)
      (lowerBlock? finallyBody)
  | ret token value => do genReturn (← Gen.location token) (value.map Expr.lower)
  | throw token value => do genThrow (← Gen.location token) value.lower
  | assert token condition => do genAssert (← Gen.location token) condition.lower

/-- The code of a block. -/
def lowerBlock : List Stmt → BlockCode
  | [] => return false
  | s :: rest => do
    lower s
    if s.departs then return true else lowerBlock rest

/-- The code of a block, if there is one. -/
def lowerBlock? : Option (List Stmt) → Option BlockCode
  | some block => some (lowerBlock block)
  | none => none

/-- The code of branches. -/
def lowerBranches : List (Expr × List Stmt) → List (Code × BlockCode)
  | [] => []
  | b :: rest => lowerBranch b :: lowerBranches rest

/-- The code of a branch. -/
def lowerBranch : Expr × List Stmt → Code × BlockCode
  | (condition, block) => (condition.lower, lowerBlock block)

/-- The code of the cases of a switch. -/
def lowerCases : List (SwitchCase (List Stmt)) → List (SwitchCase BlockCode)
  | [] => []
  | c :: rest => lowerCase c :: lowerCases rest

/-- The code of a case of a switch. -/
def lowerCase : SwitchCase (List Stmt) → SwitchCase BlockCode
  | ⟨test, body⟩ => ⟨test, lowerBlock body⟩

/-- The code of catch clauses. -/
def lowerCatches : List (Catch (List Stmt)) → List (Catch BlockCode)
  | [] => []
  | c :: rest => lowerCatch c :: lowerCatches rest

/-- The code of a catch clause. -/
def lowerCatch : Catch (List Stmt) → Catch BlockCode
  | ⟨exceptionType, variableName, body⟩ => ⟨exceptionType, variableName, lowerBlock body⟩

end

end Stmt

end ScopedIR
