import ScopedIR.Instr.Build

/-!
# Ownership of objects

The counting instructions around temporaries and variables. Every object that a temporary or a
variable refers to is retained once for each holder, and registered to the scope that owes its
release. An assignment retains the new object before it releases the old one, so that a variable may
be assigned its own object.
-/

namespace ScopedIR.Ownership

variable (location : Option Location)

/-- Instructions at one location. -/
def sequence (l : List (Except Defect Instr)) :
    Except Defect (List Instr) :=
  l.mapM fun i => i.map (·.withLocation location)

/-- A new object of a temporary is owned by a scope. -/
def register (temp scope : String) : Except Defect (List Instr) :=
  sequence location [Instr.retain temp, Instr.scopeRegister temp scope]

/-- Declare a variable, which a scope releases when it exits. -/
def declare (name type scope : String) :
    Except Defect (List Instr) :=
  sequence location [Instr.reference name type, Instr.scopeRegister name scope]

/-- Bind a variable that was just declared. -/
def initialise (name value : String) : Except Defect (List Instr) :=
  sequence location [Instr.store name value, Instr.retain name]

/-- Bind a variable again, dropping its hold on the object it had. -/
def assign (name value : String) : Except Defect (List Instr) :=
  sequence location [Instr.retain value, Instr.release name, Instr.store name value]

/-- Exit scopes in the given order. -/
def exits (scopes : List String) : Except Defect (List Instr) :=
  sequence location (scopes.map Instr.scopeExit)

end ScopedIR.Ownership

namespace ScopedIR

/-- Put a chain between the entry and the exit of its scope. Guard variables get a scope of their own
around that. -/
def Chain.place (c : Chain Instr) (guards : Option (GuardVariables Instr))
    (location : Option Location) : Except Defect (List Instr) := do
  let opening ← match guards with
    | some g => do pure ((← Instr.scopeEnter g.scope) :: g.setup)
    | none => pure []
  let enter ← Instr.scopeEnter c.scope
  let chain ← Instr.ofChain c
  let exit ← Instr.scopeExit c.scope
  let closing ← match guards with
    | some g => do pure [← Instr.scopeExit g.scope]
    | none => pure []
  return opening ++ [enter, chain.withLocation location, exit] ++ closing

end ScopedIR
