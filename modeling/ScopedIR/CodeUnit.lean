import ScopedIR.Body

/-!
# Units of code

A unit holds the constructs of one source module, a construct its fields and operations, and an
operation its parameters and a body of blocks. Each of them has a readable form.
-/

namespace ScopedIR

/-- What a construct was declared as. -/
inductive ConstructKind where
  | program
  | function
  | classType
  | record
  | trait
deriving DecidableEq, Inhabited

namespace ConstructKind

/-- Every kind, in order. -/
def all : List ConstructKind := [program, function, classType, record, trait]

/-- The keyword of a kind. -/
def name : ConstructKind → String
  | program => "program"
  | function => "function"
  | classType => "class"
  | record => "record"
  | trait => "trait"

/-- The kind with a given keyword. -/
def ofName? (s : String) : Option ConstructKind := all.find? fun k => k.name = s

end ConstructKind

/-- A name with its type: a field or a parameter. -/
structure TypedName where
  name : String
  type : String
deriving DecidableEq, Inhabited

/-- A method, function body, program body or initialiser. -/
structure Operation where
  name : String
  params : List TypedName := []
  returnType : String
  body : Body := .empty
  location : Option Location := none
deriving Inhabited

/-- A program, function, class, record or trait in code form. -/
structure Construct where
  name : String
  kind : ConstructKind
  fields : List TypedName := []
  operations : List Operation := []
  location : Option Location := none
deriving Inhabited

/-- The code of one source module. -/
structure CodeUnit where
  name : String
  constructs : List Construct := []
deriving Inhabited

namespace Operation

/-- Every instruction of the operation at any depth, each before what is nested in it. -/
def preorder (op : Operation) : List Instr := Instr.preorderAll op.body.instrs

/-- The signature, then the blocks. -/
def text (op : Operation) : String :=
  Text.line ("OperationDfn: " ++ op.name ++ "("
      ++ String.intercalate ", " (op.params.map fun p => p.name ++ " as " ++ p.type) ++ ")->"
      ++ op.returnType ++ Location.suffix op.location)
    ++ Text.line "BasicBlock"
    ++ String.join (op.body.toList.map Block.text)

end Operation

namespace Construct

/-- The first operation with a name. -/
def operation? (c : Construct) (name : String) : Option Operation :=
  c.operations.find? fun op => op.name = name

/-- The kind and fields, then the operations, each after an empty line. -/
def text (c : Construct) : String :=
  Text.line ("ConstructDfn: " ++ c.name ++ " (" ++ c.kind.name ++ ")" ++ Location.suffix c.location)
    ++ String.join (c.fields.map fun f => Text.line ("Field: " ++ f.name ++ ", " ++ f.type))
    ++ String.join (c.operations.map fun op => Text.line "" ++ op.text)

end Construct

namespace CodeUnit

variable (u : CodeUnit)

/-- Every operation of every construct, in order. -/
def operations : List Operation := u.constructs.flatMap (·.operations)

/-- The first construct with a name. -/
def construct? (name : String) : Option Construct :=
  u.constructs.find? fun c => c.name = name

/-- Every instruction of the unit at any depth. -/
def preorder : List Instr := u.operations.flatMap (·.preorder)

/-- The opcodes that occur at any depth, with the number of their instructions. -/
def opcodeCounts : List (Opcode × Nat) :=
  let opcodes := u.preorder.map (·.opcode)
  Opcode.all.filterMap fun op =>
    let n := opcodes.count op
    if n = 0 then none else some (op, n)

/-- The module, then the constructs, each after an empty line. -/
def text : String :=
  Text.line ("// module: " ++ u.name)
    ++ String.join (u.constructs.map fun c => Text.line "" ++ c.text)

end CodeUnit

end ScopedIR
