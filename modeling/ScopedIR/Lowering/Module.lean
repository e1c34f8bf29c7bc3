import ScopedIR.Body
import ScopedIR.Lowering.Stmt

/-!
# Lowering modules

Every construct of a module becomes a construct of its code unit, in the order of the source.
Numbering starts over in each operation, so constructs do not depend on each other.

Main definition: `SourceModule.lower`.
-/

namespace ScopedIR

namespace Lowering

/-- The operation that a function is invoked through. -/
def functionOperation : String := "_call"

/-- The operation that runs a program. -/
def programOperation : String := "_main"

/-- The operation that gives the fields of a new object their initial values. -/
def initOperation : String := "i_init"

/-- The code of a whole operation: a block in the outermost scope, which holds the parameters, and a
return unless the block departs. Answers the label of the entry. -/
def genOuter (params : List TypedName) (block : BlockCode) : Gen String := do
  let entry ← Gen.label "_entry"
  let scope ← Gen.scopeId
  Gen.emit (Instr.scopeEnter scope)
  Gen.enterScope scope
  params.forM fun p => Gen.declare p.name p.type true
  let departs ← block
  Gen.exitScope scope
  if !departs then
    Gen.emit (Instr.scopeExit scope)
    Gen.emit (Instr.ret none)
  return entry

/-- An operation with a single block. -/
def genOperation (name : String) (params : List TypedName) (returnType : String)
    (token : Option Location) (block : BlockCode) : Gen Operation := do
  let (entry, instrs) ← Gen.capture (genOuter params block)
  let body ← Gen.ofExcept (Body.empty.addBlock entry)
  let body ← Gen.ofExcept (body.append 0 instrs)
  return { name, params, returnType, body, location := ← Gen.location token }

/-- Give the fields of a new object their initial values. -/
def genFields : List FieldDef → BlockCode
  | [] => return false
  | field :: rest => do
    match field.init with
    | some init =>
      let value ← init.lower.value
      Gen.emitAll (Ownership.initialise none ("this." ++ field.name) value)
    | none => pure ()
    genFields rest

/-- The operation that a generator makes from the initial state. -/
def operationOf (setting : Setting) (g : Gen Operation) : Except Defect Operation := do
  return (← g.run setting {}).value

/-- The operation of a function or method under a name. -/
def lowerFunction (setting : Setting) (name : String) (f : FunctionDef) :
    Except Defect Operation :=
  operationOf setting (genOperation name f.params f.returnType f.token (Stmt.lowerBlock f.body))

/-- The operations of a type: the initialisation of its fields, if one has an initial value, then
the methods. -/
def lowerType (setting : Setting) (t : TypeDef) : Except Defect (List Operation) := do
  let init ←
    if t.fields.any (·.init.isSome) then do
      pure [← operationOf setting
        (genOperation initOperation [] TypeName.void none (genFields t.fields))]
    else pure []
  return init ++ (← t.methods.mapM fun m => lowerFunction setting m.name m)

/-- The construct of a source construct. -/
def lowerConstruct (setting : Setting) : ConstructDef → Except Defect Construct
  | .function f => do
    return { name := f.name, kind := .function
             operations := [← lowerFunction setting functionOperation f]
             location := setting.location f.token }
  | .type t => do
    return { name := t.name, kind := t.kind
             fields := t.fields.map fun f => { name := f.name, type := f.type }
             operations := ← lowerType setting t
             location := setting.location t.token }
  | .program p => do
    let main : FunctionDef := { name := p.name, returnType := TypeName.void, body := p.body
                                token := p.token }
    return { name := p.name, kind := .program
             operations := [← lowerFunction setting programOperation main]
             location := setting.location p.token }

end Lowering

/-- The code unit of a module. The first construct with a defect decides the failure. -/
def SourceModule.lower (m : SourceModule) (types : TypeOracle) (debug : Bool) :
    Except Defect CodeUnit := do
  let setting : Lowering.Setting := { debug, types, enums := m.enums }
  return { name := m.name, constructs := ← m.constructs.mapM (Lowering.lowerConstruct setting) }

end ScopedIR
