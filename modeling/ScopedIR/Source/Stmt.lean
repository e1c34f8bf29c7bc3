import ScopedIR.Source.Expr

/-!
# Typed statements

Statements nest through blocks, which are lists of statements. The parts that hold a block are
parametric in it, so that an analysis can put its own result in the place of the block.
-/

namespace ScopedIR

/-- A variable declared by a guard, or by a switch that returns a value. -/
structure Guard where
  name : String
  type : String
  init : Expr

/-- What a case of a switch compares the subject with. -/
inductive SwitchTest where
  | value (e : Expr)
  | enumConstant (constant : String)

/-- A case of a switch. -/
structure SwitchCase (β : Type) where
  test : SwitchTest
  body : β

/-- A catch clause. -/
structure Catch (β : Type) where
  exceptionType : String
  variableName : String
  body : β

/-- A statement, with where it was written. -/
inductive Stmt where
  /-- Declare a variable, with or without a value. -/
  | declare (token : Option Location) (name type : String) (init : Option Expr)
  | assign (token : Option Location) (name : String) (value : Expr)
  | assignField (token : Option Location) (object field : String) (value : Expr)
  /-- Assign only if the variable has no value. -/
  | assignUnset (token : Option Location) (name : String) (value : Expr)
  | expr (token : Option Location) (e : Expr)
  /-- Conditions with their blocks in order, then the block for the case that none holds. -/
  | ifElse (token : Option Location) (guard : Option Guard) (branches : List (Expr × List Stmt))
      (otherwise : Option (List Stmt))
  /-- A switch, which may declare a variable that the cases assign to. -/
  | switch (token : Option Location) (guard : Option Guard) (subject : Expr)
      (cases : List (SwitchCase (List Stmt))) (otherwise : Option (List Stmt))
      (returning : Option Guard)
  /-- A loop with the test first. A guard is evaluated again after every round. -/
  | whileLoop (token : Option Location) (guard : Option Guard) (condition : Expr)
      (body : List Stmt)
  /-- A loop with the body first. -/
  | doWhile (token : Option Location) (body : List Stmt) (condition : Expr)
  /-- A loop over the items of a collection. -/
  | forIn (token : Option Location) (name type : String) (collection : Expr) (body : List Stmt)
  /-- A loop that counts from one end towards the other, from either side, both ends included. -/
  | forRange (token : Option Location) (name type : String) (first last : Expr)
      (step : Option Expr) (body : List Stmt)
  | tryCatch (token : Option Location) (body : List Stmt) (catches : List (Catch (List Stmt)))
      (finallyBody : Option (List Stmt))
  | ret (token : Option Location) (value : Option Expr)
  | throw (token : Option Location) (value : Expr)
  | assert (token : Option Location) (condition : Expr)

namespace Stmt

instance : Inhabited Stmt := ⟨.ret none none⟩

/-- Whether control never goes on after the statement. -/
def departs : Stmt → Bool
  | ret .. | throw .. => true
  | _ => false

end Stmt

end ScopedIR
