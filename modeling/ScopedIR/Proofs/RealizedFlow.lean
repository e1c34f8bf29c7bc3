import ScopedIR.Proofs.Frame
import ScopedIR.Proofs.LoweredExceptions
import ScopedIR.Proofs.LoweredSwitch
import ScopedIR.Proofs.NoLeaks
import ScopedIR.Proofs.RealizedExpr

/-!
# The code of blocks and assignments realizes them

Every form of statement, put together from the code of its conditions and blocks, does what evaluation
does with the meanings of those conditions and blocks. Scopes of objects mean nothing without counting;
a name that evaluation forgets stays bound in the run, where nothing reads it any more.

Main definitions: `Performs` for code, `TestRealizes` for a condition, `BlockRealizes` and
`StmtRealizes` for what is generated for a block and a statement.

Main statements: `genScoped_realizes`, `genDeclare_realizes`, `genAssign_realizes` and
`genAssignUnset_realizes`.
-/

namespace ScopedIR

variable {σ α β : Type} {E : Evaluator σ} {handler : CallHandler σ} {old old' : Nat} {l r : List Instr}
  {location : Option Location} {G : Vars → Prop} {M m : Machine σ}

open Exec Instr Layout Lowering Gen

/-! ### Variables that evaluation forgets -/

namespace FinMap

variable {κ : Type} [DecidableEq κ]

theorem find_filter_keys (p : κ → Bool) (k : κ) (l : List (κ × α)) :
    find k (l.filter fun e => p e.1) = if p k then find k l else none := by
  induction l with
  | nil => simp [find]
  | cons e rest ih =>
    obtain ⟨k', v⟩ := e
    by_cases hk : k' = k
    · subst hk
      cases hp : p k' with
      | true => simp [find, hp]
      | false => simp [hp, ih]
    · cases hp : p k' with
      | true | false => simp [find, hp, hk, ih]

theorem get?_within (m outer : FinMap κ α) (k : κ) :
    (m.within outer).get? k = if outer.contains k then m.get? k else none :=
  find_filter_keys outer.contains k m.entries

end FinMap

namespace Does

variable {A : Evaluation σ β} {post : β → Control → Vars → Prop}

/-- Evaluation may forget bindings at the end. -/
theorem forget {f : Vars → Vars} {A' : Evaluation σ β} (h : Does handler old l A M m post)
    (hA : A'.run M = (A.run >>= fun a => do
      modify fun m => { m with vars := f m.vars }
      Pure.pure a) M)
    (hf : ∀ vars x b, (f vars).get? x = some b → vars.get? x = some b) :
    Does handler old l A' M m post := by
  intro a M' ha
  obtain ⟨a1, M1, hA, hend⟩ := Exec.bind_eq_ok.1 (hA ▸ ha)
  cases hend
  obtain ⟨c, m', hc, ht, hk, hpost⟩ := h _ _ hA
  exact ⟨c, m', hc, ht.forget (hf _), hk, hpost⟩

theorem confined (h : Does handler old l A M m post) :
    Does handler old l (Evaluation.confined A) M m post := by
  refine h.forget (f := fun vars => vars.within M.vars) rfl fun vars x b hx => ?_
  rw [FinMap.get?_within] at hx
  split at hx
  · exact hx
  · cases hx

theorem forgetting {name : String} (h : Does handler old l A M m post) :
    Does handler old l (Evaluation.forgetting name A) M m post := by
  refine h.forget (f := fun vars => vars.erase name) rfl fun vars x b hx => ?_
  rw [FinMap.get?_erase] at hx
  split at hx
  · cases hx
  · exact hx

/-- Statements after statements, which are not reached when control leaves before. -/
theorem andThen {A B : Evaluation σ Completion} (h : Does handler old l A M m Leaves)
    (h' : ∀ M1 m1, Tracks M1 m1 → Keeps old m.vars m1.vars → Does handler old r B M1 m1 Leaves) :
    Does handler old (l ++ r) (A >>= fun k => match k with
      | .next => B
      | left => Pure.pure left) M m Leaves := by
  intro a M' ha
  rcases Evaluation.bind_eq_ok ha with ⟨k, M1, hA, hB⟩ | ⟨e, hA, rfl⟩
  · obtain ⟨c1, m1, hc1, ht1, hk1, rfl⟩ := h _ _ hA
    cases k with
    | next =>
      obtain ⟨c2, m2, hc2, ht2, hk2, hpost⟩ := h' M1 m1 ht1 hk1 a M' hB
      exact ⟨c2, m2, hc1.append hc2, ht2, hk1.trans hk2, hpost⟩
    | ret v =>
      obtain ⟨rfl, rfl⟩ := Evaluation.pure_eq_ok hB
      exact ⟨_, m1, hc1.append_left (Completion.control_ret_ne v), ht1, hk1, rfl⟩
  · obtain ⟨c1, m1, hc1, ht1, hk1, rfl⟩ := h _ _ hA
    exact ⟨_, m1, hc1.append_left (by simp), ht1, hk1, rfl⟩

/-- Idle code around. -/
theorem enclose {i : Instr} (hi : i.IsIdle)
    (h : ∀ n, Does handler old l A M { m with steps := n } post) (hr : ∀ j ∈ r, j.IsIdle) :
    Does handler old ([i] ++ (l ++ r)) A M m post := by
  exact prepend_idle (List.forall_mem_singleton.2 hi) fun n => (h n).append_idle hr

end Does

variable {A : Evaluation σ α} {P : α → Vars → Prop}

theorem Realizes.enclose {i : Instr} (hi : i.IsIdle) (h : Realizes E old l A G P)
    (hr : ∀ j ∈ r, j.IsIdle) : Realizes E old ([i] ++ (l ++ r)) A G P :=
  fun M m ht hg => Does.enclose hi (fun n => h M { m with steps := n } { ht with } hg) hr

/-! ### Fields -/

/-- A name with a dot in it stands for a field. -/
theorem exists_fieldPath? {x : String} (hx : '.' ∈ x.toList) : ∃ p, fieldPath? x = some p := by
  unfold fieldPath?
  rw [List.span_eq_takeWhile_dropWhile]
  cases hd : x.toList.dropWhile fun c => decide (c ≠ '.') with
  | nil =>
    have hall := List.dropWhile_eq_nil_iff.1 hd '.' hx
    simp at hall
  | cons c rest => exact ⟨_, rfl⟩

/-- A field of an object is assigned on both sides. -/
theorem Tracks.storeField {M1 : Machine σ} {x : String} {b : Binding} (ht : Tracks M m)
    (hx : '.' ∈ x.toList) (h : Exec.store x b M = .ok () M1) :
    ∃ m1, Exec.store x b m = .ok () m1 ∧ Tracks M1 m1 ∧ m1.vars = m.vars := by
  obtain ⟨⟨holder, field⟩, hp⟩ := exists_fieldPath? hx
  unfold Exec.store at h ⊢
  rw [hp] at h ⊢
  obtain ⟨c, M2, hc, hset⟩ := Exec.bind_eq_ok.1 h
  obtain ⟨hc, rfl⟩ := Exec.ofExcept_eq_ok (show Exec.ofExcept (M.lookup holder) M = _ from hc)
  dsimp only
  rw [Exec.bind_ok (Completes.lookup_ok (ht.lookup hc))]
  cases c with
  | null | primitive p => cases hset
  | object id =>
    cases b with
    | primitive p => cases hset
    | null => exact ht.onHeap (f := fun heap => heap.setField id field none) hset
    | object v => exact ht.onHeap (f := fun heap => heap.setField id field (some v)) hset

/-! ### Code of statements -/

/-- The code does what the evaluation of statements does, wherever the bindings are as `given`
says. -/
def Performs (E : Evaluator σ) (old : Nat) (l : List Instr) (A : Evaluation σ Completion)
    (given : Vars → Prop) : Prop :=
  ∀ M m, Tracks M m → given m.vars → Does E.handler old l A M m Leaves

theorem Realizes.of_le {old' : Nat} (h : Realizes E old' l A G P) (ho : old ≤ old') :
    Realizes E old l A G P :=
  fun M m ht hg => (h M m ht hg).of_le ho

theorem Realizes.performs (h : Realizes E old l A G P) :
    Performs E old l (A >>= fun _ => Pure.pure .next) G := by
  intro M m ht hg
  rw [← List.append_nil l]
  apply (h M m ht hg).bind
  intro b M1 m1 ht1 _ _
  apply (Does.pure (P := fun k _ => k = .next) ht1 rfl).mono
  rintro k c vars ⟨hc, hk⟩
  rw [hc, hk]
  rfl

/-- Statements after an evaluation. -/
theorem Realizes.perform {old' : Nat} {B : α → Evaluation σ Completion} {H : α → Vars → Prop}
    (h : Realizes E old l A G P) (h' : ∀ b, Performs E old' r (B b) (H b)) (ho : old ≤ old')
    (hG : ∀ b vars vars', G vars → Keeps old vars vars' → P b vars' → H b vars') :
    Performs E old (l ++ r) (A >>= B) G := by
  intro M m ht hg
  apply (h M m ht hg).bind
  intro b M1 m1 ht1 hk hP
  exact (h' b M1 m1 ht1 (hG b _ _ hg hk hP)).of_le ho

namespace Performs

variable {A B : Evaluation σ Completion}

theorem of_le (h : Performs E old' l A G) (ho : old ≤ old') : Performs E old l A G :=
  fun M m ht hg => (h M m ht hg).of_le ho

theorem given (h : Performs E old l A fun _ => True) : Performs E old l A G :=
  fun M m ht _ => h M m ht trivial

theorem confined (h : Performs E old l A G) : Performs E old l (Evaluation.confined A) G :=
  fun M m ht hg => (h M m ht hg).confined

theorem andThen {H : Vars → Prop} (h : Performs E old l A G) (h' : Performs E old r B H)
    (hG : ∀ vars vars', G vars → Keeps old vars vars' → H vars') :
    Performs E old (l ++ r) (A >>= fun k => match k with
      | .next => B
      | left => Pure.pure left) G :=
  fun M m ht hg => (h M m ht hg).andThen fun M1 m1 ht1 hk1 => h' M1 m1 ht1 (hG _ _ hg hk1)

theorem enclose {i : Instr} (hi : i.IsIdle) (h : Performs E old l A G) (hr : ∀ j ∈ r, j.IsIdle) :
    Performs E old ([i] ++ (l ++ r)) A G :=
  fun M m ht hg => Does.enclose hi (fun n => h M { m with steps := n } { ht with } hg) hr

end Performs

/-- Code leaves all names as they were that it does not bind. -/
theorem Does.framed {handler : CallHandler σ} (h : Does handler old l A M m (Onward P)) :
    Does handler old l A M m
      (Onward fun b vars => P b vars ∧ ∀ x, x ∉ writes l → vars.get? x = m.vars.get? x) := by
  intro r M' hr
  obtain ⟨c, m', ⟨n, hn⟩, ht, hk, hpost⟩ := h r M' hr
  refine ⟨c, m', ⟨n, hn⟩, ht, hk, ?_⟩
  cases r with
  | error e => exact hpost
  | ok b =>
    refine ⟨hpost.1, hpost.2, ?_⟩
    have hframe := leads_frame (collecting handler n) n false true false l m
    rw [funext (watchedIn_of_not_strict (collecting handler n) n false)] at hframe
    have hrun : runAll (l.map (nested (collecting handler n) n)) m = .ok c m' :=
      hn n n (Nat.le_refl n) (Nat.le_refl n)
    unfold Leads at hframe
    rw [hrun] at hframe
    exact hframe

/-! ### Choices among statements -/

/-- A choice among cases ends as statements do. -/
def Settles : Completion → Choice → Vars → Prop
  | .next, choice, _ => choice = .taken none ∨ choice = .refused
  | .ret v, choice, _ => choice = .left (.ret v)

theorem settles_ended {k : Completion} {c : Control} {vars : Vars} (h : Leaves k c vars) :
    Settles k (ended none c) vars := by
  cases h
  cases k with
  | next => exact .inl rfl
  | ret v => rfl

namespace Chooses

variable {cases : List (Case Instr)} {fallback : Option (CaseBody Instr)} {A : Evaluation σ β}
  {post : β → Choice → Vars → Prop}

theorem of_le (h : Chooses handler old' cases fallback A M m post) (ho : old ≤ old') :
    Chooses handler old cases fallback A M m post := by
  intro r M' hr
  obtain ⟨choice, m', hchoice, ht, hk, hpost⟩ := h r M' hr
  exact ⟨choice, m', hchoice, ht, hk.mono ho, hpost⟩

theorem mono {post' : β → Choice → Vars → Prop}
    (h : Chooses handler old cases fallback A M m post)
    (hp : ∀ b choice vars, post b choice vars → post' b choice vars) :
    Chooses handler old cases fallback A M m post' := by
  intro r M' hr
  obtain ⟨choice, m', hchoice, ht, hk, hpost⟩ := h r M' hr
  refine ⟨choice, m', hchoice, ht, hk, ?_⟩
  cases r with
  | ok b => exact hp b choice _ hpost
  | error e => exact hpost

/-- What a choice keeps may be used after it. -/
theorem kept (h : Chooses handler old cases fallback A M m post) :
    Chooses handler old cases fallback A M m fun b choice vars =>
      post b choice vars ∧ Keeps old m.vars vars := by
  intro r M' hr
  obtain ⟨choice, m', hchoice, ht, hk, hpost⟩ := h r M' hr
  refine ⟨choice, m', hchoice, ht, hk, ?_⟩
  cases r with
  | ok b => exact ⟨hpost, hk⟩
  | error e => exact hpost

end Chooses

section

variable {c : Chain Instr}

/-- The end of a chain without a result of its own. The variable that it returns must be bound. -/
theorem finishing_settled {k : Completion} {choice : Choice} (hresult : c.result = none)
    (hreturning : ∀ v ∈ c.returning, (m.vars.get? v.name).isSome) (h : Settles k choice m.vars)
    (f : Instr → Exec σ Control) :
    finishing (chained location c) (c.returning.map (·.map f)) choice m = .ok k.control m := by
  have hfinish : finishChain (chained location c) (c.returning.map (·.map f)) none m =
      .ok .next m := by
    have hidle : (chained location c).result = none := hresult
    cases hv : c.returning with
    | none =>
      unfold finishChain
      rw [hidle]
      rfl
    | some v =>
      obtain ⟨b, hb⟩ := Option.isSome_iff_exists.1 (hreturning v hv)
      unfold finishChain
      rw [hidle]
      show (Exec.lookup v.name >>= fun b => bindResult none b >>= fun _ => Pure.pure Control.next) m = _
      rw [Exec.bind_ok (Completes.lookup_ok (Layout.lookup_eq_ok hb))]
      rfl
  cases k with
  | next =>
    rcases h with rfl | rfl
    · exact hfinish
    · exact hfinish
  | ret v =>
    cases h
    rfl

/-- A chain of statements that is neither a loop nor a try chain. -/
theorem Does.chain_settled {A : Evaluation σ α} {B : α → Evaluation σ Completion}
    {P : α → Vars → Prop} (htry : c.kind ≠ .tryCatchFinally) (hloop : c.kind.isLoop = false)
    (hresult : c.result = none) (hsetup : Does handler old c.setups A M (ticked m) (Onward P))
    (hreturning : ∀ b vars, P b vars → ∀ v ∈ c.returning, (vars.get? v.name).isSome)
    (hchoice : ∀ b M1 m1, Tracks M1 m1 → Keeps old m.vars m1.vars → P b m1.vars →
      Chooses handler old c.cases c.fallback (B b) M1 m1 Settles) :
    Does handler old [chained location c] (A >>= B) M m Leaves := by
  -- the variable that the chain returns stays bound while a case is chosen
  have hchosen : ∀ b M1 m1, Tracks M1 m1 → Keeps old m.vars m1.vars → P b m1.vars →
      Chooses handler old c.cases c.fallback (B b) M1 m1 fun k choice vars =>
        Settles k choice vars ∧ ∀ v ∈ c.returning, (vars.get? v.name).isSome := by
    intro b M1 m1 ht1 hk1 hP
    apply (hchoice b M1 m1 ht1 hk1 hP).kept.mono
    rintro k choice vars ⟨hsettles, hk⟩
    exact ⟨hsettles, fun v hv => hk.bound _ (hreturning b _ hP v hv)⟩
  apply Does.chain htry hloop hsetup hchosen
  rintro k choice M2 m2 ht2 _ ⟨hsettles, hbound⟩
  refine ⟨k.control, m2, finishing_settled hresult hbound hsettles, ?_, ht2, .refl _ _, rfl⟩
  exact departure_ne_jump (.ok k)

/-- A chain of statements without variables. -/
theorem Does.chain_plain {A : Evaluation σ Completion} (htry : c.kind ≠ .tryCatchFinally)
    (hloop : c.kind.isLoop = false) (hresult : c.result = none) (hsubject : c.subject = none)
    (hreturning : c.returning = none) (ht : Tracks M m)
    (hchoice : ∀ M1 m1, Tracks M1 m1 → Keeps old m.vars m1.vars →
      Chooses handler old c.cases c.fallback A M1 m1 Settles) :
    Does handler old [chained location c] A M m Leaves := by
  have hsetups : c.setups = [] := by
    unfold Chain.setups
    rw [hsubject, hreturning]
    rfl
  have hA : A = (Pure.pure () : Evaluation σ Unit) >>= fun _ => A := (pure_bind () fun _ => A).symm
  rw [hA]
  apply Does.chain_settled (P := fun _ _ => True) htry hloop hresult
  · rw [hsetups]
    exact Does.pure ht.tick trivial
  · intro _ _ _ v hv
    rw [hreturning] at hv
    cases hv
  · exact fun _ M1 m1 ht1 hk1 _ => hchoice M1 m1 ht1 hk1

end

theorem isIdle_scopeEnter (k : String) : (simple none .scopeEnter [k] none).IsIdle :=
  .inr (.inr (.inl rfl))

theorem isIdle_scopeExit (location : Option Location) (k : String) :
    (simple location .scopeExit [k] none).IsIdle :=
  .inr (.inr (.inr (.inl rfl)))

theorem isIdle_retain (location : Option Location) (x : String) :
    (simple location .retain [x] none).IsIdle :=
  .inl rfl

theorem isIdle_release (location : Option Location) (x : String) :
    (simple location .release [x] none).IsIdle :=
  .inr (.inl rfl)

theorem isIdle_scopeRegister (location : Option Location) (x k : String) :
    (simple location .scopeRegister [x, k] none).IsIdle :=
  .inr (.inr (.inr (.inr rfl)))

namespace Lowering

variable {setting : Setting} {s : State} {V : Visible}

theorem Later.same {s' : State} (h : Later s s') : Same s s' := by
  rw [h.state]
  exact ⟨rfl, rfl, rfl⟩

/-- The visible variables are declared with their types, and no others are. -/
def Typed (V : Visible) (s : State) : Prop := ∀ x, (s.lookup x).map (·.type) = V.get? x

variable {s1 s0 : State} {name type scope value subject : String} {A B : Evaluation σ Completion}
  {block : BlockCode} {T : Evaluation σ Bool} {b : Binding}
  {c : Chain Instr} {guard returning : Option Guard} {guards : Option (GuardVariables Instr)}
  {condition : Code} {branches : List (Expr × List Stmt)} {otherwise : Option (List Stmt)}
  {cases : List (SwitchCase (List Stmt))} {kind : ChainKind} {body : List Stmt}

/-- Leaving a new scope restores the scopes around it. -/
theorem same_of_exitNew {s2 : State} (hk : Kept s.inside s1)
    (h : s1.exitScope s.scopeId.1 = .ok s2) : Same s s2 := by
  have hsame := same_of_exitScope hk h
  exact ⟨hsame.scopes, hsame.handlers, hsame.finallyDepth⟩

theorem temps_declare {s' : State} {isParam : Bool} (h : s.declare name type isParam = .ok s') :
    s'.temps = s.temps := by
  unfold State.declare at h
  split at h
  · cases h
  · cases h
    rfl

namespace Typed

variable {s s' : State}

theorem same (h : Typed V s) (hs : Same s s') : Typed V s' := by
  intro x
  unfold State.lookup
  rw [hs.scopes]
  exact h x

/-- Nothing is declared in a new scope. -/
theorem enter (h : Typed V s) : Typed V s.inside := h

theorem declare {name type : String} {isParam : Bool} (h : Typed V s)
    (hs : s.declare name type isParam = .ok s') : Typed (V.insert name type) s' := by
  intro x
  by_cases hx : name = x
  · subst hx
    rw [FinMap.get?_insert_self]
    unfold State.declare at hs
    split at hs
    · cases hs
    · cases hs
      simp [State.lookup]
  · rw [lookup_declare hs hx, FinMap.get?_insert_ne _ hx]
    exact h x

end Typed

/-- Nothing is emitted, and only fresh names are issued. -/
structure Reserves (s s' : State) (l : List Instr) : Prop where
  code : l = []
  same : Same s s'
  temps : s.temps ≤ s'.temps

theorem Reserves.refl (s : State) : Reserves s s [] := ⟨rfl, .refl s, Nat.le_refl _⟩

/-- What emits nothing is followed by the rest. -/
theorem Gen.Ensures.reserves {g : Gen α} {f : α → Gen β} {P : α → State → Prop}
    {post : β → State → List Instr → Prop}
    (h : g.Ensures setting s fun a s' l => Reserves s s' l ∧ P a s')
    (hf : ∀ a s', Same s s' → s.temps ≤ s'.temps → P a s' → (f a).Ensures setting s' post) :
    (g >>= f).Ensures setting s post := by
  refine h.bind ?_
  rintro a s' l ⟨⟨rfl, hsame, htemps⟩, hP⟩
  exact hf a s' hsame htemps hP

/-- Code that was given the first `n` temporaries leaves them as the bindings say. -/
abbrev Lasting (n : Nat) (G : Vars → Prop) : Prop := ∀ vars vars', G vars → Keeps n vars vars' → G vars'

/-- What is generated for a condition in the state `s`. -/
def TestAt (E : Evaluator σ) (setting : Setting) (s : State) (g : Gen (CaseCondition Instr × String))
    (T : Evaluation σ Bool) (given : Vars → Prop) : Prop :=
  g.Ensures setting s fun r s' l => Reserves s s' l ∧
    Realizes E s.temps r.1.evaluation T given fun p => Bound r.1.primitive (.primitive p)

/-- What is generated for a condition, in whatever state. -/
def TestRealizes (E : Evaluator σ) (setting : Setting) (g : Gen (CaseCondition Instr × String))
    (T : Evaluation σ Bool) : Prop :=
  ∀ s, TestAt E setting s g T fun _ => True

/-- What is generated for a block in the state `s`. -/
def BlockAt (E : Evaluator σ) (setting : Setting) (s : State) (block : BlockCode)
    (A : Evaluation σ Completion) (given : Vars → Prop) : Prop :=
  block.Ensures setting s fun _ s' l => Kept s s' ∧ s.temps ≤ s'.temps ∧ Performs E s.temps l A given

/-- What is generated for a block where `V` is visible. -/
def BlockRealizes (E : Evaluator σ) (setting : Setting) (V : Visible) (block : BlockCode)
    (A : Evaluation σ Completion) : Prop :=
  ∀ s, Typed V s → BlockAt E setting s block A fun _ => True

/-- The code of a block does what its evaluation does, where `V` is visible. -/
abbrev Realized (E : Evaluator σ) (setting : Setting) (V : Visible) (block : List Stmt) : Prop :=
  BlockRealizes E setting V (Stmt.lowerBlock block) (E.block V block)

/-- What is generated for a statement where `V` is visible, and `V'` is behind it. -/
def StmtRealizes (E : Evaluator σ) (setting : Setting) (V V' : Visible) (g : Gen Unit)
    (A : Evaluation σ Completion) : Prop :=
  ∀ s, Typed V s → g.Ensures setting s fun _ s' l => Kept s s' ∧ s.temps ≤ s'.temps ∧ Typed V' s' ∧
    Performs E s.temps l A fun _ => True

theorem StmtRealizes.located {V' : Visible} {token : Option Location}
    {g : Option Location → Gen Unit} (h : ∀ location, StmtRealizes E setting V V' (g location) A) :
    StmtRealizes E setting V V' (do g (← Gen.location token)) A := by
  exact fun s hs => .located (h _ s hs)

/-- A statement that declares nothing. -/
theorem StmtRealizes.of_same {g : Gen Unit}
    (h : ∀ s, Typed V s → g.Ensures setting s fun _ s' l => Same s s' ∧ s.temps ≤ s'.temps ∧
      Performs E s.temps l A fun _ => True) : StmtRealizes E setting V V g A := by
  intro s hs
  refine (h s hs).mono ?_
  rintro _ s' l ⟨hsame, htemps, hdoes⟩
  exact ⟨hsame.kept, htemps, hs.same hsame, hdoes⟩

theorem valueOf_realizes (hE : E.Agrees setting) (e : Expr) :
    ValueRealizes E setting e.lower.value (E.valueOf e) :=
  value_realizes (e.lower_realizes hE)

theorem Gen.Ensures.all {g : Gen α} {post : β → α → State → List Instr → Prop}
    (h : ∀ b, g.Ensures setting s (post b)) : g.Ensures setting s fun a s' l => ∀ b, post b a s' l :=
  fun r hr b => h b r hr

/-! ### Scopes around blocks and conditions -/

theorem genScoped_realizes
    (h : block.Ensures setting (s.enterScope scope) fun _ s' l => Kept (s.enterScope scope) s' ∧
      s.temps ≤ s'.temps ∧ Performs E s.temps l A G) :
    (genScoped scope block).Ensures setting s fun _ s' l => Same s s' ∧ s.temps ≤ s'.temps ∧
      Performs E s.temps l A G := by
  refine .emit scopeEnter_eq_ok (.enterScope (h.bind ?_))
  rintro departs s1 l ⟨hkept, htemps, hdoes⟩
  refine .exitScope fun s2 hs2 => ?_
  have hsame := same_of_exitScope hkept hs2
  have htemps2 : s.temps ≤ s2.temps := by
    rw [exitScope_eq hs2]
    exact htemps
  cases departs with
  | true =>
    refine .pure ⟨hsame, htemps2, ?_⟩
    show Performs E s.temps ([_] ++ (l ++ [])) A G
    exact hdoes.enclose (isIdle_scopeEnter scope) (by simp)
  | false =>
    refine .last scopeExit_eq_ok ⟨hsame, htemps2, ?_⟩
    show Performs E s.temps ([_] ++ (l ++ [_])) A G
    exact hdoes.enclose (isIdle_scopeEnter scope)
      (List.forall_mem_singleton.2 (isIdle_scopeExit none scope))

/-- A block in a new scope, whose variables are forgotten behind it. -/
theorem genConfined_realizes
    (h : block.Ensures setting s.inside fun _ s' l =>
      Kept s.inside s' ∧ s.temps ≤ s'.temps ∧ Performs E s.temps l A G) :
    (genScoped s.scopeId.1 block).Ensures setting s.scopeId.2 fun _ s' l => Same s s' ∧
      s.temps ≤ s'.temps ∧ Performs E s.temps l (Evaluation.confined A) G := by
  refine (show Ensures _ setting s.scopeId.2 _ from genScoped_realizes h).mono ?_
  rintro _ s1 l ⟨hsame, htemps, hdoes⟩
  exact ⟨⟨hsame.scopes, hsame.handlers, hsame.finallyDepth⟩, htemps, hdoes.confined⟩

theorem scopedBody_realizes
    (h : BlockAt E setting s.inside block A G) :
    (scopedBody block).Ensures setting s fun r s' l => Reserves s s' l ∧ Performs E s.temps r.2 A G := by
  refine .scopeId (.captured ((genScoped_realizes h).mono ?_))
  rintro _ s1 l ⟨hsame, htemps, hdoes⟩
  exact .pure ⟨⟨rfl, ⟨hsame.scopes, hsame.handlers, hsame.finallyDepth⟩, htemps⟩, hdoes⟩

/-- A condition whose code answers its truth. -/
theorem scopedCondition_realizes {code : Gen (String × String)}
    (h : code.Ensures setting s.inside fun r s' l =>
      Later s.inside s' ∧
      Realizes E s.temps l T G fun p => Bound r.2 (.primitive p)) :
    (scopedCondition code).Ensures setting s fun r s' l => Reserves s s' l ∧
      Realizes E s.temps r.1.evaluation T G fun p => Bound r.1.primitive (.primitive p) := by
  refine ensures_scopedCondition (h.mono ?_)
  rintro ⟨result, primitive⟩ s1 l ⟨hlater, hdoes⟩ s2 hs2
  refine ⟨⟨rfl, same_of_exitNew hlater.same.kept hs2, ?_⟩, ?_⟩
  · rw [exitScope_eq hs2]
    exact hlater.temps
  · show Realizes E s.temps ([_] ++ (l ++ [_])) T G _
    exact hdoes.enclose (isIdle_scopeEnter s.scopeId.1)
      (List.forall_mem_singleton.2 (isIdle_scopeExit none s.scopeId.1))

theorem genCondition_realizes (hE : E.Agrees setting) {c : Code} {A : Evaluation σ Binding}
    (h : ValueAt E setting s.inside c.value A G) :
    TestAt E setting s (genCondition c) (A >>= E.truth c.type) G := by
  refine scopedCondition_realizes (h.bind ?_)
  rintro t s1 l1 ⟨hlater1, _, hdoes1⟩
  refine (genPrimitive_realizes hE).bind ?_
  rintro p s2 l2 ⟨hlater2, _, hdoes2⟩
  rw [ensures_pure, List.append_nil]
  exact ⟨hlater1.trans hlater2, hdoes1.andThen hdoes2 hlater1.temps⟩

/-! ### Declarations and assignments -/

theorem reference_realizes (hname : Ordinary name) :
    Realizes E old [simple location .reference [name, type] none] (Evaluation.declare name) G
      fun _ vars => (vars.get? name).isSome := by
  intro M m ht _ r M' hr
  obtain ⟨_, rfl, ha⟩ := Evaluation.act_eq_ok hr
  cases ha
  refine ⟨.next, _, Completes.reference, ht.tick.assign hname, .insert ?_, rfl, ?_⟩
  · exact fun hold => hname.1 hold.isTemp
  · show ((m.vars.insert name .null).get? name).isSome
    rw [FinMap.get?_insert_self]
    rfl

theorem declare_realizes {k : String} (hname : Ordinary name) :
    Realizes E old ([simple location .reference [name, type] none] ++
        [simple location .scopeRegister [name, k] none])
      (Evaluation.declare name) G fun _ vars => (vars.get? name).isSome :=
  (reference_realizes hname).append_idle
    (List.forall_mem_singleton.2 (isIdle_scopeRegister location name k))

/-- A variable of the evaluation is bound to a value again. -/
theorem store_realizes (location : Option Location) :
    Realizes E old [simple location .store [name, value] none] (Evaluation.assign name b)
      (Bound value b) fun _ vars => (vars.get? name).isSome := by
  intro M m ht hb r M' hr
  obtain ⟨_, rfl, ha⟩ := Evaluation.act_eq_ok hr
  rw [Exec.bind_ok (rfl : (get : Exec σ (Machine σ)) M = .ok M M)] at ha
  cases hM : M.vars.get? name with
  | none =>
    rw [hM] at ha
    cases ha
  | some c =>
    rw [hM] at ha
    cases ha
    have hname := ht.named name c hM
    have hstore : Exec.store name b (ticked m) =
        .ok () { ticked m with vars := m.vars.insert name b } := by
      unfold Exec.store
      rw [Layout.fieldPath?_eq_none hname.2]
      rfl
    refine ⟨.next, _, Completes.store (Layout.lookup_eq_ok hb) hstore, ht.tick.assign hname,
      .insert ?_, rfl, ?_⟩
    · exact fun hold => hname.1 hold.isTemp
    · show ((m.vars.insert name b).get? name).isSome
      rw [FinMap.get?_insert_self]
      rfl

/-- The instructions of an assignment: the counts are idle. -/
theorem assigning_realizes {B : Evaluation σ Unit} {P : Unit → Vars → Prop}
    (h : Realizes E old [simple location .store [name, value] none] B G P) :
    Realizes E old [simple location .retain [value] none, simple location .release [name] none,
      simple location .store [name, value] none] B G P := by
  intro M m ht hg
  apply Does.prepend_idle (l := [simple location .retain [value] none,
    simple location .release [name] none])
  · intro i hi
    rcases List.mem_cons.1 hi with rfl | hi
    · exact isIdle_retain location value
    · rw [List.mem_singleton.1 hi]
      exact isIdle_release location name
  · exact fun n => h M { m with steps := n } { ht with } hg

theorem storeField_realizes {x : String} (hx : '.' ∈ x.toList) :
    Realizes E old [simple location .store [x, value] none] (Evaluation.act (Exec.store x b))
      (Bound value b) fun _ _ => True := by
  intro M m ht hb r M' hr
  obtain ⟨_, rfl, ha⟩ := Evaluation.act_eq_ok hr
  obtain ⟨m1, hm1, ht1, hvars⟩ := ht.tick.storeField hx ha
  refine ⟨.next, m1, Completes.store (Layout.lookup_eq_ok hb) hm1, ht1, ?_, rfl, trivial⟩
  rw [hvars]
  exact .refl _ _

theorem genBind_realizes {init : Code} {A : Evaluation σ Binding}
    (hname : Ordinary name)
    (hinit : ValueRealizes E setting init.value A) :
    (genBind location scope name type init).Ensures setting s fun _ s' l => Later s s' ∧
      Realizes E s.temps l (Evaluation.declare name >>= fun _ => A >>= Evaluation.assign name)
        (fun _ => True) fun _ vars => (vars.get? name).isSome := by
  refine .emitAll Ownership.declare_eq_ok ((hinit s).bind ?_)
  rintro t s1 l1 ⟨hlater, ht, hdoes⟩
  refine .lastAll Ownership.initialise_eq_ok ⟨hlater, ?_⟩
  have hstore : ∀ b, Realizes E s1.temps ([simple location .store [name, t] none] ++
      [simple location .retain [name] none]) (Evaluation.assign name b) (Bound t b)
      fun _ vars => (vars.get? name).isSome := fun b =>
    (store_realizes _).append_idle (List.forall_mem_singleton.2 (isIdle_retain location name))
  exact (declare_realizes hname).andThen (fun _ => hdoes.given.andThen hstore hlater.temps)
    (Nat.le_refl s.temps)

theorem genDeclare_realizes {init : Option Expr} (hE : E.Agrees setting)
    (hname : Ordinary name) (token : Option Location) :
    StmtRealizes E setting V (V.insert name type)
      (genDeclare location name type (init.map Expr.lower)) (E.stmt V (.declare token name type init)) := by
  intro s hs
  rw [Evaluator.stmt]
  refine .currentScope fun k hk => ?_
  cases init with
  | none =>
    refine .emitAll Ownership.declare_eq_ok (ensures_declare.2 fun s1 hs1 => ?_)
    refine ⟨kept_declare hs1, ?_, hs.declare hs1, (declare_realizes hname).performs⟩
    rw [temps_declare hs1]
  | some e =>
    refine (genBind_realizes hname (valueOf_realizes hE e)).bind ?_
    rintro _ s1 l ⟨hlater, hdoes⟩
    refine ensures_declare.2 fun s2 hs2 => ?_
    refine ⟨hlater.same.kept.trans (kept_declare hs2), ?_, (hs.same hlater.same).declare hs2, ?_⟩
    · rw [temps_declare hs2]
      exact hlater.temps
    · have hperforms := hdoes.performs
      simp only [bind_assoc] at hperforms
      rw [List.append_nil]
      exact hperforms

theorem genAssign_realizes {value : Code} {A : Evaluation σ Binding}
    (hvalue : ValueAt E setting s value.value A G) :
    (genAssign location name value).Ensures setting s fun _ s' l => Later s s' ∧
      Realizes E s.temps l (A >>= Evaluation.assign name) G fun _ _ => True := by
  unfold genAssign checkAssignable
  rw [ensures_bind, ensures_bind, ensures_state]
  split
  · exact .fail
  · refine .pure (hvalue.bind ?_)
    rintro t s1 l1 ⟨hlater, ht, hdoes⟩
    refine .lastAll Ownership.assign_eq_ok ⟨hlater, hdoes.andThen (fun b => ?_) hlater.temps⟩
    exact assigning_realizes ((store_realizes _).mono (fun _ h => h) fun _ _ _ => trivial)

theorem genAssignField_realizes {object field : String} {value : Code} {A : Evaluation σ Binding}
    (hvalue : ValueRealizes E setting value.value A) :
    (genAssignField location object field value).Ensures setting s fun _ s' l => Later s s' ∧
      Realizes E s.temps l (A >>= fun b => Evaluation.act (Exec.store (object ++ "." ++ field) b))
        (fun _ => True) fun _ _ => True := by
  refine (hvalue s).bind ?_
  rintro t s1 l1 ⟨hlater, ht, hdoes⟩
  have hdot : '.' ∈ (object ++ "." ++ field).toList := by simp
  exact .lastAll Ownership.assign_eq_ok ⟨hlater,
    hdoes.andThen (fun b => assigning_realizes (storeField_realizes hdot)) hlater.temps⟩

/-! ### Conditional assignment -/

/-- A chain in its scope. -/
theorem placed_realizes (h : Performs E old [chained location c] A G) :
    Performs E old (c.placed none location) A G := by
  show Performs E old ([_] ++ ([chained location c] ++ [_])) A G
  exact h.enclose (isIdle_scopeEnter c.scope)
    (List.forall_mem_singleton.2 (isIdle_scopeExit none c.scope))

/-- Whether a variable is not set. -/
def unset (E : Evaluator σ) (name type : String) : Evaluation σ Bool :=
  Evaluation.lookup name >>= fun b => E.isSet type b >>= fun i =>
    E.ask i (Symbol.method TypeName.boolean "_not" TypeName.boolean).asPure [] >>=
      E.truth TypeName.boolean

/-- The condition of a conditional assignment. -/
theorem unset_realizes (hE : E.Agrees setting) :
    TestRealizes E setting
      (scopedCondition do
        let current ← genVar none name
        let isSet ← genIsSet none current type
        let not := (Symbol.method TypeName.boolean "_not" TypeName.boolean).asPure
        let unset ← genCallValue isSet not []
        return (unset, ← genPrimitive unset TypeName.boolean))
      (unset E name type) := by
  refine fun s => scopedCondition_realizes ((variable_realizes (E := E) name _).bind ?_)
  rintro x s1 l1 ⟨hlater1, hx, hdoes1⟩
  refine (genIsSet_realizes hE hx.upTo).bind ?_
  rintro y s2 l2 ⟨hlater2, hy, hdoes2⟩
  refine (genCallValue_realizes hE).bind ?_
  rintro z s3 l3 ⟨hlater3, hz, hdoes3⟩
  refine (genPrimitive_realizes hE).bind ?_
  rintro p s4 l4 ⟨hlater4, hp, hdoes4⟩
  rw [ensures_pure, List.append_nil]
  refine ⟨hlater1.trans (hlater2.trans (hlater3.trans hlater4)), ?_⟩
  refine hdoes1.andThen (fun b => (hdoes2 b).andThen (fun i => ?_) hlater2.temps) hlater1.temps
  exact ((hdoes3 i []).mono (fun _ h => ⟨h, .nil⟩) fun _ _ h => h).andThen hdoes4 hlater3.temps

/-- A block that assigns a variable. -/
theorem assigning_block {value : Expr} (hE : E.Agrees setting) :
    BlockRealizes E setting V
      (do
        let value ← value.lower.value
        Gen.emitAll (Ownership.assign location name value)
        return false)
      ((E.valueOf value >>= Evaluation.assign name) >>= fun _ => pure .next) := by
  refine fun s hs => (valueOf_realizes hE value s).bind ?_
  rintro t s1 l1 ⟨hlater, ht, hdoes⟩
  refine .emitAll Ownership.assign_eq_ok ?_
  rw [ensures_pure, List.append_nil]
  exact ⟨hlater.same.kept, hlater.temps, Realizes.performs
    (hdoes.andThen (fun b => assigning_realizes (store_realizes _)) hlater.temps)⟩

theorem genAssignUnset_realizes {value : Expr} (hE : E.Agrees setting) (token : Option Location) :
    StmtRealizes E setting V V (genAssignUnset location name value.lower)
      (E.stmt V (.assignUnset token name value)) := by
  apply StmtRealizes.of_same
  intro s hs
  unfold genAssignUnset checkAssignable
  rw [ensures_bind, ensures_bind, ensures_state]
  split
  · exact .fail
  refine .pure (.state (.scopeId (.enterScope ((unset_realizes hE _).reserves ?_))))
  rintro ⟨condition, conditionScope⟩ s1 hsame1 htemps1 hdoes1
  have htest : Realizes E s.temps condition.evaluation
      (unset E name ((V.get? name).getD value.type)) (fun _ => True)
      fun p => Bound condition.primitive (.primitive p) := by
    rw [← hs name, ← value.type_lower]
    cases hl : s.lookup name with
    | none | some declared =>
      rw [hl] at hdoes1
      exact hdoes1
  refine (scopedBody_realizes (assigning_block hE _ (hs.enter.same hsame1).enter)).reserves ?_
  rintro ⟨bodyScope, body⟩ s2 hsame2 htemps2 hdoes2
  refine .exitScope fun s3 hs3 => .check Chain.guardedAssignment_eq_ok (.lastAll Chain.place_eq_ok
    ⟨same_of_exitNew (hsame1.trans hsame2).kept hs3, ?_, placed_realizes ?_⟩)
  · rw [exitScope_eq hs3]
    exact Nat.le_trans htemps1 htemps2
  intro M m ht _
  rw [Evaluator.stmt]
  apply Does.chain_plain (by simp) rfl rfl rfl rfl ht
  intro M1 m1 ht1 _
  have hchoose := Chooses.cons (e := { Case.build .expression (some conditionScope) condition
      { evaluation := body } with bodyScope := some bodyScope }) rfl (htest M1 m1 ht1 trivial)
    (fun M2 m2 ht2 _ => ((hdoes2 M2 m2 ht2 trivial).of_le htemps1).mono
      fun _ _ _ hleaves => settles_ended hleaves)
    fun M2 m2 ht2 _ => Chooses.refused (b := Completion.next) ht2 (Or.inr rfl)
  simp only [unset, bind_assoc] at hchoose
  exact hchoose

end Lowering

end ScopedIR
