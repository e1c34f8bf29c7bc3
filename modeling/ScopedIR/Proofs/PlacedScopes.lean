import ScopedIR.Proofs.Placing
import ScopedIR.Proofs.ScopeDiscipline

/-!
# Placed code keeps its scopes

The check of an operation gives the same verdict before and after the escape analysis, whatever the
operation is. No scope event is added, lost or moved: clean-ups have none, a registration that is only
noted is checked like one that is made, and an allocation moves to the stack only together with a fact
that proves it confined.

Main definitions: `ScopeCheck.SameVerdict`, two checks that accept the same scopes and go on with the
same ones.

Main statement: `checkScopes_analyseEscape_iff`.
-/

namespace ScopedIR

open Escape

namespace ScopeCheck

/-! ### Verdicts -/

/-- Two checks that accept the same scopes and go on with the same ones; they may name different
violations. -/
def SameVerdict (a b : Step) : Prop :=
  ∀ boundary s, (a boundary s).toOption = (b boundary s).toOption

theorem toOption_bind {ε α β : Type} (x : Except ε α) (f : α → Except ε β) :
    (x >>= f).toOption = x.toOption.bind fun a => (f a).toOption := by
  cases x <;> rfl

/-- What comes after a check, unless the code departs. -/
def andThen (rest : Step) (boundary : Nat) : Flow × Scopes → Except ScopeViolation (Flow × Scopes)
  | (.departed, s) => .ok (.departed, s)
  | (.fallThrough, s) => rest boundary s

theorem runAll_cons_eq (step : Step) (rest : List Step) (boundary : Nat) (s : Scopes) :
    runAll (step :: rest) boundary s = step boundary s >>= andThen (runAll rest) boundary := by
  show (step boundary s >>= _) = _
  congr 1

theorem runAll_append_eq (l r : List Step) (boundary : Nat) (s : Scopes) :
    runAll (l ++ r) boundary s = runAll l boundary s >>= andThen (runAll r) boundary := by
  induction l generalizing s with
  | nil => rfl
  | cons step rest ih =>
    rw [List.cons_append, runAll_cons_eq, runAll_cons_eq, bind_assoc]
    congr 1
    funext r
    obtain ⟨flow, s'⟩ := r
    cases flow with
    | departed => rfl
    | fallThrough => exact ih s'

theorem list_append (l r : List Instr) (boundary : Nat) (s : Scopes) :
    list (l ++ r) boundary s = list l boundary s >>= andThen (list r) boundary := by
  unfold list
  rw [List.map_append, runAll_append_eq]

variable {l l' before : List Instr} {i j : Instr} {placed placed' : Placed} {sol : Solution}

theorem SameVerdict.append {r r' : List Instr} (hl : SameVerdict (list l) (list l'))
    (hr : SameVerdict (list r) (list r')) : SameVerdict (list (l ++ r)) (list (l' ++ r')) := by
  intro boundary s
  rw [list_append, list_append, toOption_bind, toOption_bind, hl boundary s]
  congr 1
  funext x
  obtain ⟨flow, s'⟩ := x
  cases flow with
  | departed => rfl
  | fallThrough => exact hr boundary s'

/-! ### Nested lists -/

theorem nested_sameVerdict (context context' : String) (h : SameVerdict (list l) (list l'))
    (boundary : Nat) (s : Scopes) :
    (nested context (l.map Instr.checkScopes) boundary s).toOption =
      (nested context' (l'.map Instr.checkScopes) boundary s).toOption := by
  unfold nested
  rw [toOption_bind, toOption_bind]
  have hrun : (runAll (l.map Instr.checkScopes) boundary s).toOption =
      (runAll (l'.map Instr.checkScopes) boundary s).toOption := h boundary s
  rw [hrun]
  congr 1
  funext r
  obtain ⟨flow, inner⟩ := r
  cases flow with
  | departed => rfl
  | fallThrough =>
    by_cases hopened : inner.opened = s.opened
    · simp only [hopened, if_true]
    · simp only [hopened, if_false]
      rfl

theorem nestedAll_sameVerdict (context context' : String) {ls ls' : List (List Instr)}
    (h : List.Forall₂ (fun l l' => SameVerdict (list l) (list l')) ls ls') (boundary : Nat)
    (s : Scopes) :
    (nestedAll context (ls.map (·.map Instr.checkScopes)) boundary s).toOption =
      (nestedAll context' (ls'.map (·.map Instr.checkScopes)) boundary s).toOption := by
  induction h generalizing s with
  | nil => rfl
  | cons hl _ ih =>
    show (nested _ _ boundary s >>= _).toOption = (nested _ _ boundary s >>= _).toOption
    rw [toOption_bind, toOption_bind, nested_sameVerdict context context' hl boundary s]
    congr 1
    funext s'
    exact ih s'

/-! ### One instruction -/

theorem checkScopes_cleanup (object : String) (boundary : Nat) (s : Scopes) :
    (cleanup object).checkScopes boundary s = .ok (.fallThrough, s) := by
  rw [Instr.checkScopes_eq]
  rfl

/-- Clean-ups change nothing about the scopes. -/
theorem list_cleanups (objects : List String) (boundary : Nat) (s : Scopes) :
    list (objects.map cleanup) boundary s = .ok (.fallThrough, s) := by
  induction objects with
  | nil => rfl
  | cons object rest ih =>
    show runAll ((cleanup object).checkScopes :: (rest.map cleanup).map Instr.checkScopes) boundary s = _
    rw [runAll_cons_eq, checkScopes_cleanup]
    exact ih

/-- What precedes an instruction are clean-ups. -/
theorem exists_cleanups (h : Restated sol placed i before j placed') :
    ∃ objects : List String, before = objects.map cleanup := by
  cases h with
  | exit _ => exact ⟨_, rfl⟩
  | stack | heap | marker | same => exact ⟨[], rfl⟩

/-- The payload of an instruction is no part of what its opcode does. -/
theorem event_payload (i : Instr) (payload : Payload Instr) (boundary : Nat) (s : Scopes) :
    (event i boundary s).toOption = (event { i with payload } boundary s).toOption := by
  obtain ⟨opcode, operands, result, location, escape, old⟩ := i
  cases opcode with
  | stackAlloc | stackAllocLiteral =>
    unfold event
    by_cases h : escape.any (·.isStackCandidate) = true
    · simp only [h, if_true]
    · simp only [h, if_false, Bool.false_eq_true]
      rfl
  | _ => rfl

/-- An instruction and what becomes of it do the same to the open scopes. -/
theorem event_restated (h : Restated sol placed i before j placed') (payload : Payload Instr)
    (boundary : Nat) (s : Scopes) :
    (event i boundary s).toOption = (event { j with payload } boundary s).toOption := by
  cases h with
  | same | exit => exact event_payload i payload boundary s
  | heap halloc _ _ _ =>
    unfold event
    rcases halloc with hop | hop <;> simp only [hop]
  | stack halloc _ _ _ hopcode =>
    unfold event
    rcases halloc with hop | hop <;>
      · rw [hop] at hopcode
        cases hopcode
        simp [hop, EscapeFact.isStackCandidate]
  | marker hcount _ _ hopcode =>
    obtain ⟨opcode, operands, result, location, escape, old⟩ := i
    rcases hcount with hop | hop | hop <;>
      · cases (show opcode = _ from hop)
        cases hopcode
        rfl

theorem sameVerdict_checkScopes
    (hevent : ∀ boundary s, (event i boundary s).toOption = (event j boundary s).toOption)
    (hpayload : i.payload.Alike (fun l l' => SameVerdict (list l) (list l')) j.payload) :
    SameVerdict i.checkScopes j.checkScopes := by
  intro boundary s
  rw [Instr.checkScopes_eq, Instr.checkScopes_eq]
  show (event i boundary s >>= _).toOption = (event j boundary s >>= _).toOption
  rw [toOption_bind, toOption_bind, hevent boundary s]
  congr 1
  funext r
  obtain ⟨flow, s'⟩ := r
  cases flow with
  | departed => rfl
  | fallThrough =>
    generalize i.payload = p at hpayload
    generalize j.payload = q at hpayload
    cases hpayload with
    | plain | call _ => rfl
    | @chain c d h =>
      have htry : d.tryBlock.isSome = c.tryBlock.isSome := isSome_of_rel h.tryBlock
      simp only [Payload.map, Chain.lists_map]
      rw [show (c.map Instr.checkScopes).tryBlock.isSome = c.tryBlock.isSome from Option.isSome_map,
        show (d.map Instr.checkScopes).tryBlock.isSome = c.tryBlock.isSome from
          Option.isSome_map.trans htry]
      exact (toOption_bind _ _).trans ((congrArg (Option.bind · _)
        (nestedAll_sameVerdict _ _ h.lists _ _)).trans (toOption_bind _ _).symm)
    | @logical a b h =>
      exact (toOption_bind _ _).trans ((congrArg (Option.bind · _)
        (nestedAll_sameVerdict _ _ h.lists _ _)).trans (toOption_bind _ _).symm)

/-- Placed code gets the verdict of the code in whose place it stands. -/
theorem sameVerdict_analyseEscape (pureCalls : Bool) (op : Operation) :
    op.body.Alike (fun l l' => SameVerdict (list l) (list l')) (op.analyseEscape pureCalls).1.body := by
  apply op.alike_analyseEscape pureCalls
  · exact fun _ _ => rfl
  · exact SameVerdict.append
  · intro i j before placed placed' payload hrestated halike boundary s
    obtain ⟨objects, rfl⟩ := exists_cleanups hrestated
    rw [list_append, list_cleanups]
    show (list [i] boundary s).toOption = (list [{ j with payload }] boundary s).toOption
    rw [list_singleton, list_singleton]
    exact sameVerdict_checkScopes (event_restated hrestated payload) halike boundary s

/-! ### Bodies -/

variable {a b : Body}

theorem handOver_alike {R : List Instr → List Instr → Prop} (h : a.Alike R b)
    (opened : List String) (succs : List Nat) (starts : FinMap Nat (List String)) :
    handOver a opened succs starts = handOver b opened succs starts := by
  induction succs generalizing starts with
  | nil => rfl
  | cons t rest ih =>
    have hlabel : (b.blocks.get? t).elim "" (·.label) = (a.blocks.get? t).elim "" (·.label) :=
      elim_eq_of_rel (h.get? t) fun _ _ hblock => hblock.label
    unfold handOver
    rw [hlabel]
    simp only [ih]

theorem blocks_alike (h : a.Alike (fun l l' => SameVerdict (list l) (list l')) b)
    (order : List Nat) (starts : FinMap Nat (List String)) (entered : List String) :
    (blocks a order starts entered).toOption = (blocks b order starts entered).toOption := by
  induction order generalizing starts entered with
  | nil => rfl
  | cons t rest ih =>
    have hblock := h.getD (fun _ _ => rfl) t
    unfold blocks
    rw [toOption_bind, toOption_bind, hblock.instrs 0 _, hblock.succs, hblock.label]
    congr 1
    funext r
    obtain ⟨flow, s⟩ := r
    cases flow with
    | departed => exact ih starts s.entered
    | fallThrough =>
      dsimp only
      split
      · rfl
      · rw [toOption_bind, toOption_bind, handOver_alike h]
        congr 1
        funext starts'
        exact ih starts' s.entered

end ScopeCheck

/-- The check of an operation gives the same verdict before and after the escape analysis. -/
theorem checkScopes_analyseEscape_iff (pureCalls : Bool) (op : Operation) :
    (op.analyseEscape pureCalls).1.checkScopes = .ok () ↔ op.checkScopes = .ok () := by
  have halike := ScopeCheck.sameVerdict_analyseEscape pureCalls op
  generalize (op.analyseEscape pureCalls).1 = placed at halike
  have hflow : placed.body.flow = op.body.flow := by
    unfold Body.flow Body.entry?
    rw [halike.size, halike.succs]
  have hbody : (ScopeCheck.body op.body).toOption = (ScopeCheck.body placed.body).toOption := by
    unfold ScopeCheck.body Body.entry?
    rw [hflow, halike.size]
    exact ScopeCheck.blocks_alike halike _ _ _
  rw [Operation.checkScopes_eq_ok_iff, Operation.checkScopes_eq_ok_iff]
  cases hplaced : ScopeCheck.body placed.body <;> cases hop : ScopeCheck.body op.body <;>
    simp_all [Except.toOption]

end ScopedIR
