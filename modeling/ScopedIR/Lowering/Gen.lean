import ScopedIR.Instr
import ScopedIR.Lowering.State

/-!
# Generators of code

A generator answers a value and emits instructions, reading the setting and changing the state of
lowering, or it fails with a defect.

Main definitions: `Gen`, `Gen.emit` and `Gen.capture`, which turns what is emitted into a value.

Main statement: `Gen.run_bind_eq_ok_iff` takes a successful sequence apart.
-/

namespace ScopedIR.Lowering

/-- What a generator produced. -/
structure Generated (α : Type) where
  value : α
  state : State
  instrs : List Instr := []

/-- A generator of code. It gives no temporary back: one that was taken before it ran is not taken
again after it. -/
structure Gen (α : Type) where
  /-- Run a generator. -/
  run : Setting → State → Except Defect (Generated α)
  temps_le : ∀ {setting s r}, run setting s = .ok r → s.temps ≤ r.state.temps

namespace Gen

variable {α β : Type}

/-- Fail with a defect. -/
def fail (d : Defect) : Gen α where
  run _ _ := .error d
  temps_le h := nomatch h

instance : Inhabited (Gen α) := ⟨fail .noOpenScope⟩

/-- Run one generator after the other; the instructions of the first come first. -/
def andThen (g : Gen α) (f : α → Gen β) : Gen β where
  run setting s :=
    match g.run setting s with
    | .error d => .error d
    | .ok a =>
      match (f a.value).run setting a.state with
      | .error d => .error d
      | .ok b => .ok { b with instrs := a.instrs ++ b.instrs }
  temps_le h := by
    split at h
    · cases h
    · next a ha =>
      split at h
      · cases h
      · next b hb =>
        have := (f a.value).temps_le hb
        cases h
        exact Nat.le_trans (g.temps_le ha) this

/-- Answer a value that depends on the setting and the state, and emit nothing. -/
def asks (f : Setting → State → α) : Gen α where
  run setting s := .ok { value := f setting s, state := s }
  temps_le h := by cases h; exact Nat.le_refl _

instance : Monad Gen where
  pure a := asks fun _ _ => a
  bind := andThen

/-- A sequence succeeds exactly when both parts do; it emits what they emit. -/
theorem run_bind_eq_ok_iff (g : Gen α) (f : α → Gen β) (setting : Setting) (s : State)
    (r : Generated β) :
    (g >>= f).run setting s = .ok r ↔
      ∃ a b, g.run setting s = .ok a ∧ (f a.value).run setting a.state = .ok b ∧
        r = { b with instrs := a.instrs ++ b.instrs } := by
  simp only [bind, andThen]
  cases g.run setting s with
  | error d => simp
  | ok a =>
    cases hb : (f a.value).run setting a.state with
    | error d =>
      constructor
      · simp [hb]
      · rintro ⟨a', b, ha, hb', _⟩
        cases ha
        rw [hb] at hb'
        cases hb'
    | ok b =>
      constructor
      · intro h
        simp only [hb, Except.ok.injEq] at h
        exact ⟨a, b, rfl, hb, h.symm⟩
      · rintro ⟨a', b', ha, hb', rfl⟩
        cases ha
        rw [hb] at hb'
        cases hb'
        simp [hb]

/-- The value of a construction that may fail. -/
def ofExcept : Except Defect α → Gen α
  | .ok a => pure a
  | .error d => fail d

/-- The setting. -/
def setting : Gen Setting := asks fun setting _ => setting

/-- The state. -/
def state : Gen State := asks fun _ s => s

/-- Change the state. -/
def update (f : State → State) (hf : ∀ s, (f s).temps = s.temps) : Gen Unit where
  run _ s := .ok { value := (), state := f s }
  temps_le h := by cases h; exact Nat.le_of_eq (hf _).symm

/-- Change the state in a way that may fail. -/
def tryUpdate (f : State → Except Defect State)
    (hf : ∀ {s s'}, f s = .ok s' → s'.temps = s.temps) : Gen Unit where
  run _ s :=
    match f s with
    | .ok s => .ok { value := (), state := s }
    | .error d => .error d
  temps_le h := by
    split at h
    · next hs =>
      cases h
      exact Nat.le_of_eq (hf hs).symm
    · cases h

/-- Take a fresh name. -/
def fresh (f : State → String × State) (hf : ∀ s, s.temps ≤ (f s).2.temps) : Gen String where
  run _ s :=
    let (name, s) := f s
    .ok { value := name, state := s }
  temps_le h := by cases h; exact hf _

/-- A fresh temporary. -/
def temp : Gen String := fresh State.temp fun _ => Nat.le_succ _

/-- A fresh scope. -/
def scopeId : Gen String := fresh State.scopeId fun _ => Nat.le_refl _

/-- A fresh label that begins with a given text. -/
def label (stem : String) : Gen String := fresh (·.label stem) fun _ => Nat.le_refl _

/-- The innermost scope. -/
def currentScope : Gen String := do ofExcept (← state).currentScope

/-- Open a scope. -/
def enterScope (id : String) : Gen Unit := update (·.enterScope id) (·.temps_enterScope id)

/-- Close the innermost scope. -/
def exitScope (id : String) : Gen Unit := tryUpdate (·.exitScope id) State.temps_exitScope

/-- Declare a variable. -/
def declare (name type : String) (isParam : Bool := false) : Gen Unit :=
  tryUpdate (·.declare name type isParam) State.temps_declare

/-- The location of a token, if locations are attached. -/
def location (token : Option Location) : Gen (Option Location) := do
  return (← setting).location token

/-- Emit instructions. -/
def emitAll (instrs : Except Defect (List Instr)) : Gen Unit where
  run _ s :=
    match instrs with
    | .ok instrs => .ok { value := (), state := s, instrs }
    | .error d => .error d
  temps_le h := by
    split at h <;> cases h
    exact Nat.le_refl _

/-- Emit one instruction. -/
def emit (i : Except Defect Instr) : Gen Unit := emitAll (i.map ([·]))

/-- Emit one instruction with a location. -/
def emitAt (location : Option Location) (i : Except Defect Instr) : Gen Unit :=
  emit (i.map (·.withLocation location))

/-- Run a generator, emit nothing, and answer what it would have emitted. -/
def capture (g : Gen α) : Gen (α × List Instr) where
  run setting s :=
    match g.run setting s with
    | .ok a => .ok { value := (a.value, a.instrs), state := a.state }
    | .error d => .error d
  temps_le h := by
    split at h
    · next ha =>
      cases h
      exact g.temps_le ha
    · cases h

end Gen

end ScopedIR.Lowering
