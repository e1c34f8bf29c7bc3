import ScopedIR.CodeUnit
import ScopedIR.Source.Stmt

/-!
# Source modules

The constructs and enumerations of one source file.
-/

namespace ScopedIR

/-- A function, or a method of a type. -/
structure FunctionDef where
  name : String
  params : List TypedName := []
  returnType : String
  body : List Stmt := []
  token : Option Location := none

/-- A field of a type, with its initial value. -/
structure FieldDef where
  name : String
  type : String
  init : Option Expr := none

/-- A class, record or trait. -/
structure TypeDef where
  name : String
  kind : ConstructKind
  fields : List FieldDef := []
  methods : List FunctionDef := []
  token : Option Location := none

/-- A program. -/
structure ProgramDef where
  name : String
  body : List Stmt := []
  token : Option Location := none

/-- A construct of a module. -/
inductive ConstructDef where
  | function (f : FunctionDef)
  | type (t : TypeDef)
  | program (p : ProgramDef)

/-- The name of a construct. -/
def ConstructDef.name : ConstructDef → String
  | function f => f.name
  | type t => t.name
  | program p => p.name

/-- An enumeration; its constants are numbered in the order of declaration. -/
structure EnumType where
  name : String
  constants : List String
deriving DecidableEq, Inhabited

/-- The number of a constant. -/
def EnumType.ordinal? (e : EnumType) (constant : String) : Option UInt32 :=
  (e.constants.findIdx? (· = constant)).map UInt32.ofNat

/-- One source file. -/
structure SourceModule where
  name : String
  constructs : List ConstructDef := []
  enums : List EnumType := []

end ScopedIR
