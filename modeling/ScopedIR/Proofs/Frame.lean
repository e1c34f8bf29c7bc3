import ScopedIR.Proofs.ConfinedActions
import ScopedIR.Proofs.Layout

/-!
# Code changes no names but its own

Running code leaves every name as it was that the code does not bind. The code of an expression
binds fresh temporaries alone, so variables and older temporaries keep their values.

Main definition: `writes`, the names that code may bind at any depth.

Main statements: `leads_frame` and `Calc.leads_frame`.
-/

namespace ScopedIR

variable {σ α β : Type}

namespace Exec

/-! ### Actions that bind no name -/

/-- Where the action answers, names are bound as before. -/
def FixesVars (a : Exec σ α) : Prop := ∀ m x m', a m = .ok x m' → m'.vars = m.vars

/-- Names are bound as before. -/
def SameVars (m m' : Machine σ) : Prop := m'.vars = m.vars

instance : Bounds (fun _ => True) (SameVars (σ := σ)) where
  refl _ := rfl
  trans h h' := h'.trans h
  fault _ := trivial

namespace Confined

theorem fixesVars {P : α → Prop} {a : Exec σ α} (h : Confined (fun _ => True) SameVars P a) :
    FixesVars a := by
  intro m x m' ha
  have hm := h m
  rw [ha] at hm
  exact hm.2

theorem leave_vars (scope : String) :
    Confined (fun _ => True) SameVars (fun _ => True) (Exec.exitScope (σ := σ) scope) :=
  exitScope (fun _ => trivial) (fun _ _ => rfl) (fun _ _ => rfl) scope

end Confined

/-! ### The frame of an action -/

/-- Names outside `W` are bound as in `vars`, in the one state that both sides are in. -/
def Frames (vars : FinMap String Binding) (W : String → Prop) (m n : Machine σ) : Prop :=
  n = m ∧ ∀ x, ¬ W x → m.vars.get? x = vars.get? x

variable {X : Halt → Prop} {vars : FinMap String Binding} {W : String → Prop}

theorem FixesVars.relates {a : Exec σ α} (h : FixesVars a) : Relates X (Frames vars W) a a := by
  rintro _ m ⟨rfl, hf⟩ x m' ha
  rw [ha]
  exact ⟨rfl, rfl, fun y hy => by rw [h m x m' ha]; exact hf y hy⟩

theorem Confined.relates {P : α → Prop} {a : Exec σ α}
    (h : Confined (fun _ => True) SameVars P a) : Relates X (Frames vars W) a a := h.fixesVars.relates

theorem primitives_frames (cfg : Config σ) :
    Primitives X (Frames vars W) W cfg cfg exitScope exitScope where
  lookup x := (Confined.lookup x).relates
  value id := (Confined.get_bind fun _ => .ofExcept fun _ _ => trivial).relates
  assign x b hx := by
    rintro _ m ⟨rfl, hf⟩ _ m' ha
    cases ha
    refine ⟨rfl, rfl, fun y hy => ?_⟩
    change (m.vars.insert x b).get? y = _
    rw [FinMap.get?_insert_ne]
    · exact hf y hy
    · rintro rfl
      exact hy hx
  setValue id v :=
    (Confined.onHeap (R := SameVars) (fun _ => rfl) fun _ _ => Heap.updateLive_error).relates
  setField id name target :=
    (Confined.onHeap (R := SameVars) (fun _ => rfl) fun _ _ => Heap.updateLive_error).relates
  alloc v onStack := by
    rintro _ m ⟨rfl, hf⟩ _ m' ha
    cases ha
    exact ⟨rfl, rfl, hf⟩
  allocOwned v := by
    rintro _ m ⟨rfl, hf⟩ _ m' ha
    cases ha
    exact ⟨rfl, rfl, hf⟩
  ask site r args := (Confined.ask (fun _ _ => trivial) (fun _ _ => rfl) site r args).relates
  tick := by
    refine Confined.relates (P := fun _ => True) ?_
    refine .bind (.modified fun _ => rfl) fun _ _ => .get_bind fun _ => ?_
    split
    · exact .fail rfl
    · exact .pure trivial
  unwind m n hr := by
    obtain ⟨rfl, -⟩ := hr
    exact (Confined.unwind Confined.leave_vars _).relates
  handlers _ _ h := by rw [h.1]
  setHandlers _ _ _ h := ⟨by rw [h.1], h.2⟩
  previous _ _ h := by rw [h.1]
  setPrevious _ _ _ h := ⟨by rw [h.1], h.2⟩

end Exec

open Instr Exec

/-! ### Code -/

/-- The names that code may bind at any depth. -/
def writes (l : List Instr) : List String := gather ownWrites l

theorem writes_append (l r : List Instr) : writes (l ++ r) = writes l ++ writes r :=
  gather_append l r

theorem writes_cons (i : Instr) (l : List Instr) :
    writes (i :: l) = ownWrites i ++ writes i.lists.flatten ++ writes l := gather_cons i l

variable {l : List Instr}

theorem writes_subset_of_mem {i : Instr} (hi : i ∈ l) : writes [i] ⊆ writes l := by
  induction l with
  | nil => cases hi
  | cons j l ih =>
    rw [← List.singleton_append (x := j), writes_append]
    rcases List.mem_cons.1 hi with rfl | hi
    · exact List.subset_append_left _ _
    · exact List.Subset.trans (ih hi) (List.subset_append_right _ _)

theorem ownWrites_subset (i : Instr) : ownWrites i ⊆ writes [i] := by
  rw [writes_cons, List.append_assoc]
  exact List.subset_append_left _ _

theorem writes_subset_of_nested {i j : Instr} (hl : l ∈ i.lists) (hj : j ∈ l) :
    writes [j] ⊆ writes [i] := by
  refine List.Subset.trans (writes_subset_of_mem (List.mem_flatten.2 ⟨l, hl, hj⟩)) ?_
  rw [writes_cons]
  exact fun x hx => List.mem_append_left _ (List.mem_append_right _ hx)

/-- One instruction keeps the frame, given that everything nested in it does. -/
theorem relates_frames_watchedIn (cfg : Config σ) (rounds : Nat) (strict : Bool)
    {X : Halt → Prop} {vars : FinMap String Binding} {W : String → Prop} (i : Instr)
    (inner b : Bool) (hw : ∀ x ∈ writes [i], W x) :
    Relates X (Frames vars W) (i.watchedIn cfg rounds strict inner b)
      (i.watchedIn cfg rounds strict inner b) := by
  induction i using Instr.nested_induction generalizing inner b with
  | h i ih =>
    have hP : Primitives X (Frames vars W) W cfg cfg exitScope exitScope := primitives_frames cfg
    rw [watchedIn_eq]
    refine hP.tick.bind fun _ => ?_
    refine (hP.perform (fun x hx => hw x (ownWrites_subset i hx))
      (fun hm => (Confined.perform_memory (fun _ => trivial) (fun _ _ => rfl) Confined.leave_vars
        (fun _ _ => rfl) (fun _ _ => rfl) (fun _ _ _ => rfl) hm).relates)
      fun l hl j hj => ?_).bind fun c => ?_
    · have hj' : ∀ x ∈ writes [j], W x := fun x hx => hw x (writes_subset_of_nested hl hj hx)
      exact ⟨ih l hl j hj true b hj', ih l hl j hj true true hj'⟩
    · refine Relates.bind (Confined.relates (P := fun _ => True) ?_) fun _ => ?_
      · cases c with
        | throw e =>
          unfold permit
          cases strict && b && i.opcode.isCall with
          | true => exact .fail rfl
          | false => exact .pure trivial
        | _ => exact .pure trivial
      · cases inner with
        | true => exact .stayInside i c
        | false => exact .pure _

/-- Running code leaves all names as they were that it does not bind. -/
theorem leads_frame (cfg : Config σ) (rounds : Nat) (strict inner b : Bool) (l : List Instr)
    (m : Machine σ) :
    Leads (fun _ => True) (runAll (l.map (watchedIn cfg rounds strict inner b))) m
      fun _ m' => ∀ x, x ∉ writes l → m'.vars.get? x = m.vars.get? x := by
  have hall : Relates (fun _ => False) (Frames m.vars (· ∈ writes l))
      (runAll (l.map (watchedIn cfg rounds strict inner b)))
      (runAll (l.map (watchedIn cfg rounds strict inner b))) :=
    .runAll fun i hi => relates_frames_watchedIn cfg rounds strict i inner b
      fun x hx => writes_subset_of_mem hi hx
  unfold Leads
  cases ha : runAll (l.map (watchedIn cfg rounds strict inner b)) m with
  | ok c m' =>
    obtain ⟨_, -, -, hf⟩ := (hall m m ⟨rfl, fun _ _ => rfl⟩).ok ha
    exact hf
  | error halt m' => cases halt <;> trivial

namespace Layout

/-- Only stores, declarations and chains that return a variable bind names besides their results. -/
theorem ownWrites_eq_ownBinds {i : Instr} (hs : i.opcode ≠ .store) (hr : i.opcode ≠ .reference)
    (hc : i.chain?.bind (·.returning) = none) : ownWrites i = ownBinds i := by
  simp [ownWrites, ownBinds, hs, hr, hc]

variable {B : List String} {l : List Instr} {Γ Γ1 : Context} {π : Policy}

/-- An expression binds fresh temporaries alone. -/
theorem Calc.writes_eq {k : String} (h : Calc π B k Γ l Γ1) : writes l = binds l := by
  have hnil : writes [] = [] := rfl
  have hregistering : ∀ {location : Option Location} {t k : String},
      writes (registering location t k) = binds (registering location t k) := by
    intros
    rfl
  have hsingle : ∀ {i : Instr}, i.lists = [] → ownWrites i = ownBinds i →
      writes [i] = binds [i] := by
    intro i hl hi
    rw [writes_cons, binds_cons, hi, hl]
    rfl
  have hcalling : ∀ {location : Option Location} {opcode : Opcode} {result : Option String}
      {site : CallSite}, opcode.isCall = true →
      writes [calling location opcode result site] = binds [calling location opcode result site] := by
    intro location opcode result site ho
    refine hsingle rfl (ownWrites_eq_ownBinds ?_ ?_ rfl)
    · rintro rfl
      cases ho
    · rintro rfl
      cases ho
  induction h with
  | nil => rfl
  | append _ _ ih ih' => rw [writes_append, binds_append, ih, ih']
  | create _ _ ho =>
    rw [writes_append, binds_append, hregistering]
    rcases ho with rfl | rfl <;> rfl
  | load | loadField => rfl
  | call _ _ ho => rw [writes_append, binds_append, hregistering, hcalling ho]
  | perform ho => exact hcalling ho
  | test => exact hcalling rfl
  | @isSet _ _ _ _ n x _ _ _ _ _ _ _ _ _ _ _ _ ih ih' =>
    have hnull : ownWrites (simple none .isNull [x] (some n)) =
        ownBinds (simple none .isNull [x] (some n)) := rfl
    rw [writes_cons, binds_cons, ownWrites_eq_ownBinds (by simp [chained]) (by simp [chained]) rfl]
    simp [question, Chain.lists, Case.lists, writes_cons, writes_append, binds_cons, binds_append,
      hnull, ih, ih', hnil]
  | @logical _ _ _ _ t b location _ _ _ _ _ _ _ ih ih' ih'' =>
    have hop : (logicalBlock location t b).opcode = .logicalAnd ∨
        (logicalBlock location t b).opcode = .logicalOr := by
      cases h : b.op <;> simp [logicalBlock, logicalOpcode, h]
    have hown : ownWrites (logicalBlock location t b) = ownBinds (logicalBlock location t b) := by
      refine ownWrites_eq_ownBinds ?_ ?_ rfl <;> rcases hop with h | h <;> simp [h]
    rw [writes_cons, binds_cons, hown]
    simp [writes_append, binds_append, ih, ih', ih'', hnil]

/-- An expression leaves all names as they were but its own temporaries. -/
theorem Calc.leads_frame {k : String} (h : Calc π B k Γ l Γ1) (cfg : Config σ) (rounds : Nat)
    (strict inner b : Bool) (m : Machine σ) :
    Leads (fun _ => True) (runAll (l.map (watchedIn cfg rounds strict inner b))) m
      fun _ m' => ∀ x, x ∉ binds l → m'.vars.get? x = m.vars.get? x :=
  h.writes_eq ▸ ScopedIR.leads_frame cfg rounds strict inner b l m

end Layout

end ScopedIR
