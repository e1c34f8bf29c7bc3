import ScopedIR.Proofs.Evaluation
import ScopedIR.Proofs.Balance
import ScopedIR.Proofs.Simulation

/-!
# Code that does what evaluation does

A run without counting and an evaluation go side by side: they have the same objects and the same
state of the call handler, and every variable of the evaluation is bound alike in the run. Code
realizes an evaluation when from such states, whenever the evaluation comes to an end, the code comes to
the same end, given steps and rounds enough. Temporaries that were issued before the code keep their
bindings.

Main definitions: `Tracks`, `Completes` and `Does`.

Main statements: `Does.bind` for a sequence, and one rule for each plain instruction, such as
`Completes.load`.
-/

namespace ScopedIR

variable {σ α β : Type} {handler : CallHandler σ} {old old' : Nat} {l r : List Instr} {c : Control}
  {B : α → Evaluation σ β} {M m m1 m2 : Machine σ}

open Exec Instr

/-! ### Sequences -/

theorem Exec.bind_ok {a : Exec σ α} {f : α → Exec σ β} {m m1 : Machine σ} {x : α}
    (h : a m = .ok x m1) : (a >>= f) m = f x m1 := by
  show EStateM.bind a f m = _
  unfold EStateM.bind
  rw [h]

theorem Exec.ofExcept_eq_ok {e : Except Fault α} {M M1 : Machine σ} {x : α}
    (h : Exec.ofExcept e M = .ok x M1) : e = .ok x ∧ M1 = M := by
  cases e with
  | ok a =>
    cases h
    exact ⟨rfl, rfl⟩
  | error f => cases h

namespace Evaluation

variable {M' : Machine σ} {r : Except Binding β} {a : Exec σ α}

theorem bind_eq_ok {A : Evaluation σ α} (h : (A >>= B).run M = .ok r M') :
    (∃ a M1, A.run M = .ok (.ok a) M1 ∧ (B a).run M1 = .ok r M') ∨
      ∃ e, A.run M = .ok (.error e) M' ∧ r = .error e := by
  obtain ⟨x, M1, hA, hB⟩ := Exec.bind_eq_ok.1 h
  cases x with
  | ok a => exact .inl ⟨a, M1, hA, hB⟩
  | error e =>
    cases hB
    exact .inr ⟨e, hA, rfl⟩

theorem act_eq_ok {r : Except Binding α} (h : (act a).run M = .ok r M') :
    ∃ x, r = .ok x ∧ a M = .ok x M' := by
  obtain ⟨x, M1, ha, hr⟩ := Exec.bind_eq_ok.1 h
  cases hr
  exact ⟨x, rfl, ha⟩

theorem act_bind_eq_ok (h : (act a >>= B).run M = .ok r M') :
    ∃ x M1, a M = .ok x M1 ∧ (B x).run M1 = .ok r M' := by
  rcases bind_eq_ok h with ⟨x, M1, ha, hB⟩ | ⟨e, ha, -⟩
  · obtain ⟨y, hy, hy'⟩ := act_eq_ok ha
    cases hy
    exact ⟨x, M1, hy', hB⟩
  · obtain ⟨y, hy, -⟩ := act_eq_ok ha
    cases hy

theorem pure_eq_ok {a : α} {r : Except Binding α} (h : (pure a : Evaluation σ α).run M = .ok r M') :
    r = .ok a ∧ M' = M := by
  cases h
  exact ⟨rfl, rfl⟩

end Evaluation

/-! ### States side by side -/

/-- A run `m` without counting, beside an evaluation `M`. -/
structure Tracks (M m : Machine σ) : Prop where
  heap : m.heap = M.heap
  calls : m.calls = M.calls
  vars : ∀ x b, M.vars.get? x = some b → m.vars.get? x = some b
  named : ∀ x b, M.vars.get? x = some b → ¬ IsTemp x ∧ '.' ∉ x.toList
  undotted : ∀ x b, m.vars.get? x = some b → '.' ∉ x.toList
  scopes : m.scopes = []
  handlers : m.handlers = []

/-- The bindings of a run. -/
abbrev Vars := FinMap String Binding

/-- A temporary with a number up to `old`. -/
def TempUpTo (old : Nat) (t : String) : Prop := ∃ n, n ≤ old ∧ t = numbered "_temp" n

theorem TempUpTo.mono {old old' : Nat} {t : String} (h : TempUpTo old t) (ho : old ≤ old') :
    TempUpTo old' t := by
  obtain ⟨n, hn, rfl⟩ := h
  exact ⟨n, Nat.le_trans hn ho, rfl⟩

theorem TempUpTo.isTemp {old : Nat} {t : String} (h : TempUpTo old t) : IsTemp t := by
  obtain ⟨n, -, rfl⟩ := h
  exact ⟨n, rfl⟩

/-- A temporary with a number beyond `old`. -/
structure FreshTemp (old : Nat) (t : String) : Prop where
  isTemp : IsTemp t
  fresh : ¬ TempUpTo old t

theorem FreshTemp.of_le {old old' : Nat} {t : String} (h : FreshTemp old' t) (ho : old ≤ old') :
    FreshTemp old t := ⟨h.isTemp, fun hold => h.fresh (hold.mono ho)⟩

/-- Temporaries issued up to a number keep their bindings, and no name becomes unbound. -/
structure Keeps (old : Nat) (vars vars' : Vars) : Prop where
  temps : ∀ t, TempUpTo old t → vars'.get? t = vars.get? t
  bound : ∀ x, (vars.get? x).isSome → (vars'.get? x).isSome

namespace Keeps

variable {vars vars1 vars2 : Vars}

theorem refl (old : Nat) (vars : Vars) : Keeps old vars vars := ⟨fun _ _ => rfl, fun _ h => h⟩

theorem trans (h : Keeps old vars vars1) (h' : Keeps old vars1 vars2) : Keeps old vars vars2 :=
  ⟨fun t ht => (h'.temps t ht).trans (h.temps t ht), fun x hx => h'.bound x (h.bound x hx)⟩

theorem mono (h : Keeps old' vars vars1) (ho : old ≤ old') : Keeps old vars vars1 :=
  ⟨fun t ht => h.temps t (ht.mono ho), h.bound⟩

/-- A new temporary, or a variable, may be bound. -/
theorem insert {x : String} {b : Binding} (hx : ¬ TempUpTo old x) :
    Keeps old vars (vars.insert x b) := by
  constructor
  · intro t ht
    apply FinMap.get?_insert_ne
    rintro rfl
    exact hx ht
  · intro y hy
    rw [FinMap.get?_insert]
    split
    · rfl
    · exact hy

end Keeps

namespace Tracks

variable {x : String} {b : Binding}

theorem tick (h : Tracks M m) : Tracks M (ticked m) := { h with }

/-- The run may bind its temporaries. -/
theorem temp (h : Tracks M m) (hx : IsTemp x) :
    Tracks M { m with vars := m.vars.insert x b } :=
  { h with
    vars := by
      intro y c hy
      show (m.vars.insert x b).get? y = some c
      rw [FinMap.get?_insert_ne]
      · exact h.vars y c hy
      · rintro rfl
        exact (h.named x c hy).1 hx
    undotted := FinMap.forall_insert hx.dot_notMem h.undotted }

/-- A variable may be bound on both sides. -/
theorem assign (h : Tracks M m) (hx : ¬ IsTemp x ∧ '.' ∉ x.toList) :
    Tracks { M with vars := M.vars.insert x b } { m with vars := m.vars.insert x b } :=
  { h with
    vars := by
      intro y c hy
      change (M.vars.insert x b).get? y = some c at hy
      show (m.vars.insert x b).get? y = some c
      rw [FinMap.get?_insert] at hy ⊢
      split at hy
      · next hxy => rw [if_pos hxy]; exact hy
      · next hxy => rw [if_neg hxy]; exact h.vars y c hy
    named := FinMap.forall_insert hx h.named
    undotted := FinMap.forall_insert hx.2 h.undotted }

/-- The evaluation may forget variables. -/
theorem forget {vars : FinMap String Binding} (h : Tracks M m)
    (hv : ∀ x b, vars.get? x = some b → M.vars.get? x = some b) : Tracks { M with vars } m :=
  { h with
    vars := fun x b hx => h.vars x b (hv x b hx)
    named := fun x b hx => h.named x b (hv x b hx) }

/-- The heap may change on both sides alike. -/
theorem withHeap (h : Tracks M m) (heap : Heap) : Tracks { M with heap } { m with heap } :=
  { h with heap := rfl }

theorem withCalls (h : Tracks M m) (calls : σ) : Tracks { M with calls } { m with calls } :=
  { h with calls := rfl }

/-- A name that evaluation finds is found by the run. -/
theorem lookup (h : Tracks M m) (hx : M.lookup x = .ok b) : m.lookup x = .ok b := by
  unfold Machine.lookup at hx ⊢
  cases hM : M.vars.get? x with
  | some c =>
    rw [hM] at hx
    rw [h.vars x c hM]
    exact hx
  | none =>
    rw [hM] at hx
    cases hp : fieldPath? x with
    | none =>
      rw [hp] at hx
      cases hx
    | some p =>
      obtain ⟨holder, field⟩ := p
      have hm : m.vars.get? x = none := by
        cases hc : m.vars.get? x with
        | none => rfl
        | some c =>
          rw [Layout.fieldPath?_eq_none (h.undotted x c hc)] at hp
          cases hp
      rw [hm]
      rw [hp] at hx
      dsimp only at hx ⊢
      cases hv : M.vars.get? holder with
      | none =>
        rw [hv] at hx
        cases hx
      | some c =>
        rw [hv] at hx
        rw [h.vars holder c hv, h.heap]
        exact hx

end Tracks

/-! ### Runs with limits large enough -/

/-- The actions, one for each limit of steps and of rounds, come to the same end whenever both limits
are large enough. -/
def Arrives (a : Nat → Nat → Exec σ α) (m : Machine σ) (x : α) (m' : Machine σ) : Prop :=
  ∃ n, ∀ limit rounds, n ≤ limit → n ≤ rounds → a limit rounds m = .ok x m'

namespace Arrives

variable {x : α} {y : β}

theorem of_eq {a : Nat → Nat → Exec σ α} (h : ∀ limit rounds, a limit rounds m = .ok x m1) :
    Arrives a m x m1 := ⟨0, fun limit rounds _ _ => h limit rounds⟩

theorem bind {a : Nat → Nat → Exec σ α} {f : Nat → Nat → α → Exec σ β} (h : Arrives a m x m1)
    (h' : Arrives (fun limit rounds => f limit rounds x) m1 y m2) :
    Arrives (fun limit rounds => a limit rounds >>= f limit rounds) m y m2 := by
  obtain ⟨n, hn⟩ := h
  obtain ⟨n', hn'⟩ := h'
  refine ⟨max n n', fun limit rounds hl hr => ?_⟩
  show (a limit rounds >>= f limit rounds) m = _
  rw [Exec.bind_ok (hn limit rounds (by omega) (by omega))]
  exact hn' limit rounds (by omega) (by omega)

/-- A limit on steps is not reached when it is large enough. -/
theorem tick (m : Machine σ) : Arrives (fun limit _ => Exec.tick limit) m () (ticked m) := by
  refine ⟨m.steps + 1, fun limit rounds hl _ => ?_⟩
  show (if limit < m.steps + 1 then fail (.stepLimit limit) else pure () : Exec σ Unit) (ticked m) = _
  rw [if_neg (by omega)]
  rfl

variable {a b : Nat → Nat → Exec σ Control}

/-- Going on after control went on. -/
theorem andThen (h : Arrives a m .next m1) (h' : Arrives b m1 c m2) :
    Arrives (fun limit rounds => Exec.andThen (a limit rounds) (b limit rounds)) m c m2 :=
  h.bind h'

/-- Nothing more is done after control left. -/
theorem andThen_left (h : Arrives a m c m1) (hc : c ≠ .next) :
    Arrives (fun limit rounds => Exec.andThen (a limit rounds) (b limit rounds)) m c m1 := by
  apply h.bind
  apply of_eq
  intro limit rounds
  cases c with
  | next => exact absurd rfl hc
  | _ => rfl

end Arrives

/-- The rules of a run without counting. -/
def collecting (handler : CallHandler σ) (limit : Nat) : Config σ :=
  { memory := .gc, maxSteps := limit, handler }

/-- Run code in nested lists without counting. -/
def runNested (handler : CallHandler σ) (l : List Instr) (limit rounds : Nat) : Exec σ Control :=
  runAll (l.map (nested (collecting handler limit) rounds))

/-- The code comes to an end without counting, with control `c` in the state `m'`. -/
def Completes (handler : CallHandler σ) (l : List Instr) (m : Machine σ) (c : Control)
    (m' : Machine σ) : Prop :=
  Arrives (runNested handler l) m c m'

namespace Completes

theorem nil (m : Machine σ) : Completes handler [] m .next m := .of_eq fun _ _ => rfl

theorem runNested_append (l r : List Instr) (limit rounds : Nat) :
    runNested handler (l ++ r) limit rounds =
      Exec.andThen (runNested handler l limit rounds) (runNested handler r limit rounds) := by
  unfold runNested
  rw [List.map_append, runAll_append]

theorem append (h : Completes handler l m .next m1) (h' : Completes handler r m1 c m2) :
    Completes handler (l ++ r) m c m2 := by
  unfold Completes
  rw [show runNested handler (l ++ r) = _ from
    funext fun limit => funext fun rounds => runNested_append l r limit rounds]
  exact h.andThen h'

theorem append_left (h : Completes handler l m c m1) (hc : c ≠ .next) :
    Completes handler (l ++ r) m c m1 := by
  unfold Completes
  rw [show runNested handler (l ++ r) = _ from
    funext fun limit => funext fun rounds => runNested_append l r limit rounds]
  exact h.andThen_left hc

/-- One instruction, given what it does once it is counted. -/
theorem single {i : Instr} (hc : ∀ label, c ≠ .jump label)
    (h : Arrives (fun limit rounds => perform exitScope (collecting handler limit) rounds i
      (i.payload.map (nested (collecting handler limit) rounds))) (ticked m) c m1) :
    Completes handler [i] m c m1 := by
  have hstay : Arrives (fun _ _ => stayInside i c) m1 c m1 := by
    apply Arrives.of_eq
    intro _ _
    cases c with
    | jump label => exact absurd rfl (hc label)
    | _ => rfl
  have hexec : Arrives (fun limit rounds => i.nested (collecting handler limit) rounds) m c m1 := by
    simp only [nested_eq]
    exact ((Arrives.tick m).bind h).bind hstay
  unfold Completes
  cases c with
  | next => exact hexec.andThen (.of_eq fun _ _ => rfl)
  | _ => exact hexec.andThen_left (by simp)

/-- One instruction without nested lists. -/
theorem of_perform {i : Instr} (hc : ∀ label, c ≠ .jump label)
    (h : ∀ limit rounds p, perform exitScope (collecting handler limit) rounds i p (ticked m) =
      .ok c m1) :
    Completes handler [i] m c m1 :=
  single hc (.of_eq fun limit rounds => h limit rounds _)

end Completes

/-! ### Single instructions -/

/-- An instruction about scopes and counts, which a run without counting passes over. -/
def Instr.IsIdle (i : Instr) : Prop :=
  i.opcode = .retain ∨ i.opcode = .release ∨ i.opcode = .scopeEnter ∨ i.opcode = .scopeExit ∨
    i.opcode = .scopeRegister

namespace Completes

variable {location : Option Location} {t x y : String} {b : Binding}

theorem idle (handler : CallHandler σ) (m : Machine σ) (h : ∀ i ∈ l, i.IsIdle) :
    ∃ m1, Completes handler l m .next m1 ∧ m1 = { m with steps := m1.steps } := by
  induction l generalizing m with
  | nil => exact ⟨m, nil m, rfl⟩
  | cons i rest ih =>
    have hi : Completes handler [i] m .next (ticked m) := by
      apply of_perform (by simp)
      intro limit rounds p
      unfold perform
      rcases h i List.mem_cons_self with ho | ho | ho | ho | ho <;> rw [ho] <;> rfl
    obtain ⟨m1, hrest, heq⟩ := ih (ticked m) fun i hi => h i (List.mem_cons_of_mem _ hi)
    exact ⟨m1, hi.append hrest, heq⟩

theorem lookup_ok (h : m.lookup x = .ok b) : Exec.lookup x m = .ok b m := by
  show Exec.ofExcept (m.lookup x) m = _
  rw [h]
  rfl

theorem load (h : m.lookup x = .ok b) :
    Completes handler [simple location .load [x] (some t)] m .next
      { ticked m with vars := m.vars.insert t b } := by
  apply of_perform (by simp)
  intro limit rounds p
  show (Exec.lookup x >>= fun b => yield (simple location .load [x] (some t)) b) (ticked m) = _
  rw [Exec.bind_ok (lookup_ok (m := ticked m) h)]
  rfl

theorem isNull (h : m.lookup x = .ok b) :
    Completes handler [simple location .isNull [x] (some t)] m .next
      { ticked m with vars := m.vars.insert t (.primitive (b = .null)) } := by
  apply of_perform (by simp)
  intro limit rounds p
  show (Exec.lookup x >>= fun b =>
    yield (simple location .isNull [x] (some t)) (.primitive (b = .null))) (ticked m) = _
  rw [Exec.bind_ok (lookup_ok (m := ticked m) h)]
  rfl

variable {type : String}

theorem reference :
    Completes handler [simple location .reference [x, type] none] m .next
      { ticked m with vars := m.vars.insert x .null } :=
  of_perform (by simp) fun _ _ _ => rfl

theorem store (h : m.lookup y = .ok b) (hs : Exec.store x b (ticked m) = .ok () m1) :
    Completes handler [simple location .store [x, y] none] m .next m1 := by
  apply of_perform (by simp)
  intro limit rounds p
  show (Exec.lookup y >>= fun b => Exec.store x b >>= fun _ => pure Control.next) (ticked m) = _
  rw [Exec.bind_ok (lookup_ok (m := ticked m) h), Exec.bind_ok hs]
  rfl

theorem loadLiteral {text : String} {v : Value} (h : Value.ofLiteral? text type = some v) :
    Completes handler [simple location .loadLiteral [text, type] (some t)] m .next
      { ticked m with
        heap := m.heap.alloc v false
        vars := m.vars.insert t (.object m.heap.next) } := by
  apply of_perform (by simp)
  intro limit rounds p
  show (required _ (Value.ofLiteral? text type) >>= fun v =>
    create (simple location .loadLiteral [text, type] (some t)) v) (ticked m) = _
  rw [h]
  rfl

theorem allocObject :
    Completes handler [simple location .allocObject [type] (some t)] m .next
      { ticked m with
        heap := m.heap.alloc (.other type type) false
        vars := m.vars.insert t (.object m.heap.next) } :=
  of_perform (by simp) fun _ _ _ => rfl

theorem ret (h : m.lookup x = .ok b) :
    Completes handler [simple location .ret [x] none] m (.ret (some b)) (ticked m) := by
  apply of_perform (by simp)
  intro limit rounds p
  show (Exec.lookup x >>= fun b => pure (Control.ret (some b))) (ticked m) = _
  rw [Exec.bind_ok (lookup_ok (m := ticked m) h)]
  rfl

theorem retNone : Completes handler [simple location .ret [] none] m (.ret none) (ticked m) :=
  of_perform (by simp) fun _ _ _ => rfl

theorem throw (h : m.lookup x = .ok b) :
    Completes handler [simple location .throw [x] none] m (.throw b) (ticked m) := by
  apply of_perform (by simp)
  intro limit rounds p
  show (Exec.lookup x >>= fun b => pure (Control.throw b)) (ticked m) = _
  rw [Exec.bind_ok (lookup_ok (m := ticked m) h)]
  rfl

theorem primitive_ok {p : Bool} (h : m.lookup x = .ok (.primitive p)) :
    Exec.primitive x m = .ok p m := by
  unfold Exec.primitive
  rw [Exec.bind_ok (lookup_ok h)]
  rfl

theorem assert (h : m.lookup x = .ok (.primitive true)) :
    Completes handler [simple location .assert [x] none] m .next (ticked m) := by
  apply of_perform (by simp)
  intro limit rounds p
  show (Exec.primitive x >>= fun b =>
    if b then pure Control.next else Exec.fail (.assertionFailed x)) (ticked m) = _
  rw [Exec.bind_ok (primitive_ok (m := ticked m) h)]
  rfl

end Completes

/-! ### Code beside an evaluation -/

/-- The code does what the evaluation does: when the evaluation comes to an end, so does the code. It
goes on, or leaves, as `post` says, and it throws what the evaluation throws. -/
def Does (handler : CallHandler σ) (old : Nat) (l : List Instr) (A : Evaluation σ β)
    (M m : Machine σ) (post : β → Control → Vars → Prop) : Prop :=
  ∀ r M', A.run M = .ok r M' → ∃ c m', Completes handler l m c m' ∧ Tracks M' m' ∧
    Keeps old m.vars m'.vars ∧
    match r with
    | .ok b => post b c m'.vars
    | .error e => c = .throw e

/-- Control goes on. -/
def Onward (P : β → Vars → Prop) : β → Control → Vars → Prop := fun b c vars => c = .next ∧ P b vars

namespace Does

variable {A : Evaluation σ α} {post post' : α → Control → Vars → Prop}
  {post2 : β → Control → Vars → Prop} {P P' : α → Vars → Prop}

theorem mono (h : Does handler old l A M m post) (hp : ∀ b c vars, post b c vars → post' b c vars) :
    Does handler old l A M m post' := by
  intro r M' hr
  obtain ⟨c, m', hc, ht, hk, hpost⟩ := h r M' hr
  refine ⟨c, m', hc, ht, hk, ?_⟩
  cases r with
  | ok b => exact hp b c _ hpost
  | error e => exact hpost

theorem of_le (h : Does handler old' l A M m post) (ho : old ≤ old') :
    Does handler old l A M m post := by
  intro r M' hr
  obtain ⟨c, m', hc, ht, hk, hpost⟩ := h r M' hr
  exact ⟨c, m', hc, ht, hk.mono ho, hpost⟩

/-- First one piece of code, and then another that depends on what the first one answers. -/
theorem bind (h : Does handler old l A M m (Onward P))
    (h' : ∀ b M1 m1, Tracks M1 m1 → Keeps old m.vars m1.vars → P b m1.vars →
      Does handler old r (B b) M1 m1 post2) :
    Does handler old (l ++ r) (A >>= B) M m post2 := by
  intro a M' hr
  rcases Evaluation.bind_eq_ok hr with ⟨b, M1, hA, hB⟩ | ⟨e, hA, rfl⟩
  · obtain ⟨c1, m1, hc1, ht1, hk1, rfl, hP⟩ := h _ _ hA
    obtain ⟨c2, m2, hc2, ht2, hk2, hpost⟩ := h' b M1 m1 ht1 hk1 hP a M' hB
    exact ⟨c2, m2, hc1.append hc2, ht2, hk1.trans hk2, hpost⟩
  · obtain ⟨c1, m1, hc1, ht1, hk1, rfl⟩ := h _ _ hA
    exact ⟨_, m1, hc1.append_left (by simp), ht1, hk1, rfl⟩

theorem pure {b : α} (ht : Tracks M m) (hP : P b m.vars) :
    Does handler old [] (Pure.pure b : Evaluation σ α) M m (Onward P) := by
  intro r M' hr
  obtain ⟨rfl, rfl⟩ := Evaluation.pure_eq_ok hr
  exact ⟨.next, m, .nil m, ht, .refl _ _, rfl, hP⟩

theorem map {f : α → β} (h : Does handler old l A M m fun b => post2 (f b)) :
    Does handler old l (f <$> A) M m post2 := by
  intro r M' hr
  rcases Evaluation.bind_eq_ok (B := fun b => Pure.pure (f b)) hr with ⟨b, M1, hA, hB⟩ | ⟨e, hA, rfl⟩
  · obtain ⟨rfl, rfl⟩ := Evaluation.pure_eq_ok hB
    exact h _ _ hA
  · exact h _ _ hA

theorem fail {f : Fault} : Does handler old l (Evaluation.fail f : Evaluation σ α) M m post := by
  intro r M' hr
  obtain ⟨x, -, hx⟩ := Evaluation.act_eq_ok hr
  cases hx

/-- Code in front that evaluation has no part in. -/
theorem prepend (hl : Completes handler l m .next m1) (hk : Keeps old m.vars m1.vars)
    (h : Does handler old r A M m1 post) : Does handler old (l ++ r) A M m post := by
  intro a M' hr
  obtain ⟨c, m', hc, ht, hk', hpost⟩ := h a M' hr
  exact ⟨c, m', hl.append hc, ht, hk.trans hk', hpost⟩

/-- Idle code behind, which is not run when control leaves. -/
theorem append_idle (h : Does handler old l A M m post) (hr : ∀ i ∈ r, i.IsIdle) :
    Does handler old (l ++ r) A M m post := by
  intro a M' ha
  obtain ⟨c, m', hc, ht, hk, hpost⟩ := h a M' ha
  by_cases hnext : c = .next
  · subst hnext
    obtain ⟨m2, hm2, heq⟩ := Completes.idle handler m' hr
    rw [heq] at hm2
    exact ⟨.next, _, hc.append hm2, { ht with }, hk, hpost⟩
  · exact ⟨c, m', hc.append_left hnext, ht, hk, hpost⟩

/-- Idle code in front. -/
theorem prepend_idle (hl : ∀ i ∈ l, i.IsIdle)
    (h : ∀ n, Does handler old r A M { m with steps := n } post) :
    Does handler old (l ++ r) A M m post := by
  obtain ⟨m1, hm1, heq⟩ := Completes.idle handler m hl
  rw [heq] at hm1
  exact (h _).prepend hm1 (.refl _ _)

end Does

end ScopedIR
