import ScopedIR.Proofs.LoweredExpr
import ScopedIR.Proofs.RealizedChains

/-!
# Calls beside an evaluation

A call of a run does what a call of the evaluation does. A handler may be told by a call site what its
operands are called. Evaluation has no such names, so the handler must not depend on them.

Generated code realizes an evaluation when it does so in whatever state it is generated, and binds the
name it answers to the value.

Main definitions: `CallHandler.IgnoresNames`, `Realizes` and `Lowering.Code.Realizes`.

Main statements: `Does.calling` and `Lowering.genCall_realizes`.
-/

namespace ScopedIR

variable {σ α β : Type}

open Exec Instr

/-! ### Calls -/

/-- A call site without the names of its operands. -/
def CallSite.anonymous (site : CallSite) : CallSite := { site with target := "", args := [] }

/-- The handler gives the same answers whatever the operands are called. How it fails may depend on
their names. -/
def CallHandler.IgnoresNames (handler : CallHandler σ) : Prop :=
  ∀ site receiver args s reply s', handler (CallSite.anonymous site) receiver args s = (.ok reply, s') →
    handler site receiver args s = (.ok reply, s')

/-- The target of a call is bound to the receiver, or the call is one without receiver. -/
def Receives (opcode : Opcode) (target : String) (vars : Vars) : Option Binding → Prop
  | some b => opcode ≠ .callStatic ∧ vars.get? target = some b
  | none => opcode = .callStatic

variable {target : String} {vars vars' : Vars}

theorem receives_call {b : Binding} (h : vars.get? target = some b) :
    Receives .call target vars (some b) := ⟨by simp, h⟩

/-- Each name is bound to the corresponding value. -/
def AllBound (vars : Vars) (names : List String) (values : List Binding) : Prop :=
  List.Forall₂ (fun x b => vars.get? x = some b) names values

section

variable {M M1 m : Machine σ} {i : Instr} {site : CallSite}

/-- An update of the heap does the same on both sides. -/
theorem Tracks.onHeap (ht : Tracks M m) {f : Heap → Heap.Update}
    (h : Exec.onHeap f M = .ok () M1) :
    ∃ m1, Exec.onHeap f m = .ok () m1 ∧ Tracks M1 m1 ∧ m1.vars = m.vars := by
  unfold Exec.onHeap at h ⊢
  have heap := ht.heap
  dsimp only at h ⊢
  rw [ht.heap]
  rcases hf : f M.heap with ⟨_ | _, heap'⟩
  · rw [hf] at h
    cases h
  · rw [hf] at h
    cases h
    exact ⟨_, rfl, ht.withHeap heap', rfl⟩

/-- The run finds the receiver that evaluation has. -/
theorem Tracks.receiver (ht : Tracks M m) {receiver : Option Binding}
    {r : Receiver × Option ObjectId} (hb : Receives i.opcode site.target m.vars receiver)
    (h : Evaluation.receiverOf receiver M = .ok r M1) :
    M1 = M ∧ Exec.receiver i site m = .ok r m := by
  cases receiver with
  | none =>
    cases h
    refine ⟨rfl, ?_⟩
    have hstatic : i.opcode = .callStatic := hb
    unfold Exec.receiver
    rw [if_pos hstatic]
    rfl
  | some b =>
    obtain ⟨hstatic, hb⟩ := hb
    have hlookup : Exec.lookup site.target m = .ok b m := Completes.lookup_ok (Layout.lookup_eq_ok hb)
    unfold Exec.receiver
    rw [if_neg hstatic, Exec.bind_ok hlookup]
    cases b with
    | null =>
      cases h
      exact ⟨rfl, rfl⟩
    | primitive p => cases h
    | object id =>
      obtain ⟨v, M2, hv, hr⟩ := Exec.bind_eq_ok.1
        (show (Exec.ofExcept (M.heap.value id) >>= fun v => pure (Receiver.object v, some id)) M = _
          from h)
      obtain ⟨hv, rfl⟩ := Exec.ofExcept_eq_ok hv
      cases hr
      refine ⟨rfl, ?_⟩
      show (Exec.ofExcept (m.heap.value id) >>= fun v => pure (Receiver.object v, some id)) m = _
      rw [ht.heap, hv]
      rfl

/-- The run finds the values of arguments that evaluation has. -/
theorem Tracks.arguments (ht : Tracks M m) {names : List String} {values : List Binding}
    {vs : List (Option Value)} (hb : AllBound m.vars names values)
    (h : Evaluation.valuesOf values M = .ok vs M1) :
    M1 = M ∧ Exec.arguments i names m = .ok vs m := by
  induction hb generalizing vs M1 with
  | nil =>
    cases h
    exact ⟨rfl, rfl⟩
  | @cons x b names values hx hrest ih =>
    have hlookup : Exec.lookup x m = .ok b m := Completes.lookup_ok (Layout.lookup_eq_ok hx)
    have hvalueOf : m.valueOf b = M.valueOf b := by
      unfold Machine.valueOf
      rw [ht.heap]
    unfold Exec.arguments
    rw [Exec.bind_ok hlookup]
    cases b with
    | primitive p => cases h
    | null =>
      obtain ⟨rest, M2, hvs, hr⟩ := Exec.bind_eq_ok.1
        (show (Evaluation.valuesOf values >>= fun rest => pure (none :: rest)) M = _ from h)
      obtain ⟨rfl, hargs⟩ := ih hvs
      cases hr
      refine ⟨rfl, ?_⟩
      show (Exec.arguments i names >>= fun rest => pure (none :: rest)) m = _
      rw [Exec.bind_ok hargs]
      rfl
    | object id =>
      obtain ⟨v, M2, hv, hr⟩ := Exec.bind_eq_ok.1
        (show (Exec.ofExcept (M.valueOf (.object id)) >>= fun v =>
          Evaluation.valuesOf values >>= fun rest => pure (v :: rest)) M = _ from h)
      obtain ⟨hv, rfl⟩ := Exec.ofExcept_eq_ok hv
      obtain ⟨rest, M3, hvs, hrest⟩ := Exec.bind_eq_ok.1 hr
      obtain ⟨rfl, hargs⟩ := ih hvs
      cases hrest
      refine ⟨rfl, ?_⟩
      show (Exec.ofExcept (m.valueOf (.object id)) >>= fun v =>
        Exec.arguments i names >>= fun rest => pure (v :: rest)) m = _
      rw [hvalueOf, hv, show Exec.ofExcept (.ok v) = (pure v : Exec σ _) from rfl, pure_bind,
        Exec.bind_ok hargs]
      rfl

variable {receiver : Receiver}

/-- The handler answers the run as it answers evaluation. -/
theorem Tracks.ask {handler : CallHandler σ} (hn : handler.IgnoresNames) (ht : Tracks M m)
    {args : List (Option Value)} {reply : CallReply}
    (h : Exec.ask handler site.anonymous receiver args M = .ok reply M1) :
    ∃ m1, Exec.ask handler site receiver args m = .ok reply m1 ∧ Tracks M1 m1 ∧ m1.vars = m.vars := by
  obtain ⟨hreply, rfl⟩ := Exec.ofExcept_eq_ok
    (show Exec.ofExcept (handler site.anonymous receiver args M.calls).1
      { M with calls := (handler site.anonymous receiver args M.calls).2 } = _ from h)
  have hanswer := hn site receiver args M.calls reply _ (Prod.ext hreply rfl)
  refine ⟨{ m with calls := (handler site receiver args m.calls).2 }, ?_, ?_, rfl⟩
  · show Exec.ofExcept (handler site receiver args m.calls).1
      { m with calls := (handler site receiver args m.calls).2 } = _
    rw [ht.calls, hanswer]
    rfl
  · rw [ht.calls, hanswer]
    exact ht.withCalls _

/-- The receiver takes over the same value. -/
theorem Tracks.renew (ht : Tracks M m) {target : Option ObjectId}
    (h : Evaluation.renew target receiver M = .ok () M1) :
    ∃ m1, Exec.updating target receiver m = .ok () m1 ∧ Tracks M1 m1 ∧ m1.vars = m.vars := by
  cases target with
  | none =>
    cases h
    exact ⟨m, rfl, ht, rfl⟩
  | some id =>
    cases receiver with
    | object v => exact ht.onHeap (f := fun heap => heap.setValue id v) h
    | static | null =>
      cases h
      exact ⟨m, rfl, ht, rfl⟩

/-- The run ends a call as evaluation does. -/
theorem Tracks.conclude (ht : Tracks M m) (old : Nat) {result : Option String}
    {outcome : CallOutcome} {r : Except Binding (Option Binding)}
    (hresult : result.isSome = site.hasResult) (hfresh : ∀ t ∈ result, FreshTemp old t)
    (h : (Evaluation.conclude site.anonymous outcome).run M = .ok r M1) :
    ∃ c m1, Exec.concluding result outcome m = .ok c m1 ∧ Tracks M1 m1 ∧ Keeps old m.vars m1.vars ∧
      match r with
      | .ok b => c = .next ∧ ∀ t ∈ result, ∃ v, b = some v ∧ m1.vars.get? t = some v
      | .error e => c = .throw e := by
  have hbind : ∀ {M2 m2 : Machine σ} (b : Binding), Tracks M2 m2 → m2.vars = m.vars →
      ∃ m3, Exec.bindResult result b m2 = .ok () m3 ∧ Tracks M2 m3 ∧ Keeps old m.vars m3.vars ∧
        ∀ t ∈ result, ∃ v, Evaluation.resultOf site b = some v ∧ m3.vars.get? t = some v := by
    intro M2 m2 b ht2 hvars
    cases result with
    | none => exact ⟨m2, rfl, ht2, hvars ▸ .refl _ _, by simp⟩
    | some t =>
      refine ⟨_, rfl, ht2.temp (hfresh t rfl).isTemp, hvars ▸ .insert (hfresh t rfl).fresh, ?_⟩
      intro t' ht'
      cases ht'
      refine ⟨b, ?_, FinMap.get?_insert_self _ _ _⟩
      unfold Evaluation.resultOf
      rw [← hresult]
      rfl
  cases outcome with
  | void =>
    have hnone : site.hasResult = false := by
      cases hs : site.hasResult with
      | false => rfl
      | true =>
        change (if site.hasResult then Evaluation.fail _ else pure none : Evaluation σ _).run M = _ at h
        rw [hs] at h
        cases h
    change (if site.hasResult then Evaluation.fail _ else pure none : Evaluation σ _).run M = _ at h
    rw [hnone] at h hresult
    cases h
    cases result with
    | some t => cases hresult
    | none => exact ⟨.next, m, rfl, ht, .refl _ _, rfl, by simp⟩
  | object v =>
    cases h
    obtain ⟨m3, hm3, ht3, hk3, hb3⟩ :=
      hbind (.object M.heap.next) (ht.withHeap (M.heap.alloc v false)) rfl
    refine ⟨.next, m3, ?_, ht3, hk3, rfl, hb3⟩
    show (Exec.bindResult result (.object m.heap.next) >>= fun _ => pure Control.next)
      { m with heap := m.heap.alloc v false } = _
    rw [ht.heap, Exec.bind_ok hm3]
    rfl
  | primitive b =>
    cases h
    obtain ⟨m3, hm3, ht3, hk3, hb3⟩ := hbind (.primitive b) ht rfl
    refine ⟨.next, m3, ?_, ht3, hk3, rfl, hb3⟩
    show (Exec.bindResult result (.primitive b) >>= fun _ => pure Control.next) m = _
    rw [Exec.bind_ok hm3]
    rfl
  | throw v =>
    cases h
    refine ⟨.throw (.object M.heap.next), { m with heap := M.heap.allocOwned v }, ?_,
      ht.withHeap (M.heap.allocOwned v), .refl _ _, rfl⟩
    show EStateM.Result.ok (Control.throw (.object m.heap.next))
      { m with heap := m.heap.allocOwned v } = _
    rw [ht.heap]

/-- A call instruction does what a call does in evaluation. -/
theorem Does.calling {handler : CallHandler σ} {old : Nat} {location : Option Location}
    {opcode : Opcode} {result : Option String} {receiver : Option Binding} {values : List Binding}
    (hn : handler.IgnoresNames) (ht : Tracks M m) (hcall : opcode.isCall = true)
    (hresult : result.isSome = site.hasResult) (hfresh : ∀ t ∈ result, FreshTemp old t)
    (hreceiver : Receives opcode site.target m.vars receiver)
    (hargs : AllBound m.vars site.args values) :
    Does handler old [Instr.calling location opcode result site]
      (Evaluation.call handler receiver site.anonymous values) M m
      (Onward fun b vars => ∀ t ∈ result, ∃ v, b = some v ∧ vars.get? t = some v) := by
  intro r M' hr
  obtain ⟨target, M1, htarget, hr1⟩ := Evaluation.act_bind_eq_ok hr
  obtain ⟨vs, M2, hvs, hr2⟩ := Evaluation.act_bind_eq_ok hr1
  obtain ⟨reply, M3, hreply, hr3⟩ := Evaluation.act_bind_eq_ok hr2
  obtain ⟨_, M4, hrenew, hr4⟩ := Evaluation.act_bind_eq_ok hr3
  have ht0 : Tracks M (ticked m) := ht.tick
  obtain ⟨rfl, hreceiver'⟩ := ht0.receiver (i := Instr.calling location opcode result site) hreceiver
    htarget
  obtain ⟨rfl, hargs'⟩ := ht0.arguments (i := Instr.calling location opcode result site) hargs hvs
  obtain ⟨m3, hask, ht3, hvars3⟩ := ht0.ask hn hreply
  obtain ⟨m4, hupdating, ht4, hvars4⟩ := ht3.renew hrenew
  obtain ⟨c, m5, hconcluding, ht5, hk5, hpost⟩ := ht4.conclude old hresult hfresh hr4
  have hvars : m4.vars = m.vars := hvars4.trans hvars3
  have hcomplete : Completes handler [Instr.calling location opcode result site] m c m5 := by
    apply Completes.of_perform
    · intro label hlabel
      subst hlabel
      cases r with
      | ok b => cases hpost.1
      | error e => cases hpost
    · intro limit rounds p
      have hperform : perform exitScope (collecting handler limit) rounds
          (Instr.calling location opcode result site) p =
          Exec.call (collecting handler limit) (Instr.calling location opcode result site) site := by
        unfold perform Instr.calling
        cases opcode <;> first | rfl | cases hcall
      rw [hperform, Exec.call_eq, Exec.bind_ok hreceiver', Exec.bind_ok hargs',
        show (collecting handler limit).handler = handler from rfl, Exec.bind_ok hask,
        Exec.bind_ok hupdating]
      exact hconcluding
  refine ⟨c, m5, hcomplete, ht5, hvars ▸ hk5, ?_⟩
  cases r with
  | ok b | error e => exact hpost

end

/-! ### Generated code -/

/-- Evaluation is given what lowering is given, and its handler does not depend on names. -/
structure Evaluator.Agrees (E : Evaluator σ) (setting : Lowering.Setting) : Prop where
  types : E.types = setting.types
  handler : E.handler.IgnoresNames

/-- The code does what the evaluation does, wherever the bindings are as `given` says. -/
def Realizes (E : Evaluator σ) (old : Nat) (l : List Instr) (A : Evaluation σ β)
    (given : Vars → Prop) (post : β → Vars → Prop) : Prop :=
  ∀ M m, Tracks M m → given m.vars → Does E.handler old l A M m (Onward post)

/-- The name is bound to the value. -/
abbrev Bound (t : String) (v : Binding) (vars : Vars) : Prop := vars.get? t = some v

/-- The name, if there is one, is bound to the value, which is there then. -/
def Answers (x : Option String) (b : Option Binding) (vars : Vars) : Prop :=
  ∀ t ∈ x, ∃ v, b = some v ∧ vars.get? t = some v

theorem AllBound.keep {old : Nat} {names : List String} {values : List Binding}
    (h : AllBound vars names values) (hk : Keeps old vars vars')
    (hn : ∀ t ∈ names, TempUpTo old t) : AllBound vars' names values := by
  induction h with
  | nil => exact .nil
  | cons hx _ ih =>
    rw [List.forall_mem_cons] at hn
    exact .cons ((hk.temps _ hn.1).trans hx) (ih hn.2)

theorem Receives.keep {old : Nat} {opcode : Opcode} {receiver : Option Binding}
    (h : Receives opcode target vars receiver) (hk : Keeps old vars vars')
    (ht : opcode = .callStatic ∨ TempUpTo old target) : Receives opcode target vars' receiver := by
  cases receiver with
  | none => exact h
  | some b => exact ⟨h.1, (hk.temps _ (ht.resolve_left h.1)).trans h.2⟩

namespace Realizes

variable {E : Evaluator σ} {old old1 : Nat} {l r : List Instr} {A : Evaluation σ α}
  {B : α → Evaluation σ β} {G : Vars → Prop} {H : α → Vars → Prop} {P R : α → Vars → Prop}
  {Q : β → Vars → Prop}

theorem bind (h : Realizes E old l A G P) (h' : ∀ b, Realizes E old1 r (B b) (H b) Q)
    (ho : old ≤ old1)
    (hG : ∀ b vars vars', G vars → Keeps old vars vars' → P b vars' → H b vars') :
    Realizes E old (l ++ r) (A >>= B) G Q := by
  intro M m ht hg
  apply (h M m ht hg).bind
  intro b M1 m1 ht1 hk hP
  exact (h' b M1 m1 ht1 (hG b _ _ hg hk hP)).of_le ho

/-- What comes next needs only what was found. -/
theorem andThen (h : Realizes E old l A G P) (h' : ∀ b, Realizes E old1 r (B b) (P b) Q)
    (ho : old ≤ old1) : Realizes E old (l ++ r) (A >>= B) G Q :=
  h.bind h' ho fun _ _ _ _ _ hP => hP

theorem pure {b : α} (hP : ∀ vars, G vars → P b vars) :
    Realizes E old [] (Pure.pure b : Evaluation σ α) G P :=
  fun _ _ ht hg => Does.pure ht (hP _ hg)

theorem map {f : α → β} (h : Realizes E old l A G fun b => Q (f b)) :
    Realizes E old l (f <$> A) G Q :=
  fun M m ht hg =>
    Does.map (show Does E.handler old l A M m fun b => Onward Q (f b) from h M m ht hg)

theorem fail {f : Fault} : Realizes E old l (Evaluation.fail f : Evaluation σ α) G P :=
  fun _ _ _ _ => Does.fail

theorem mono {G1 : Vars → Prop} (h : Realizes E old l A G P) (hG : ∀ vars, G1 vars → G vars)
    (hP : ∀ b vars, P b vars → R b vars) : Realizes E old l A G1 R :=
  fun M m ht hg => (h M m ht (hG _ hg)).mono fun b _ vars hpost => ⟨hpost.1, hP b vars hpost.2⟩

theorem given (h : Realizes E old l A (fun _ => True) P) : Realizes E old l A G P :=
  h.mono (fun _ _ => trivial) fun _ _ h => h

theorem append_idle (h : Realizes E old l A G P) (hr : ∀ i ∈ r, i.IsIdle) :
    Realizes E old (l ++ r) A G P :=
  fun M m ht hg => (h M m ht hg).append_idle hr

/-- A value is answered by the name it is bound to. -/
theorem answers {V : Evaluation σ Binding} {t : String}
    (h : Realizes E old l V G (Bound t)) : Realizes E old l (some <$> V) G (Answers (some t)) := by
  apply map
  apply h.mono (fun _ h => h)
  intro v vars hv t' ht'
  cases ht'
  exact ⟨v, rfl, hv⟩

/-- A value that must be there. -/
theorem valued {V : Evaluation σ (Option Binding)} {t : String}
    (h : Realizes E old l V G (Answers (some t))) :
    Realizes E old l (V >>= Evaluation.value) G (Bound t) := by
  rw [← List.append_nil l]
  refine h.andThen (fun b => ?_) (Nat.le_refl _)
  cases b with
  | none => exact fail
  | some v =>
    apply pure
    intro vars hb
    obtain ⟨w, hw, hb⟩ := hb t rfl
    cases hw
    exact hb

end Realizes

namespace Lowering

/-- Only temporaries were issued between the two states. -/
structure Later (s s' : State) : Prop where
  state : s' = { s with temps := s'.temps }
  temps : s.temps ≤ s'.temps

namespace Later

variable {s s1 s2 : State}

theorem refl (s : State) : Later s s := ⟨rfl, Nat.le_refl _⟩

theorem trans (h : Later s s1) (h' : Later s1 s2) : Later s s2 := by
  refine ⟨?_, Nat.le_trans h.temps h'.temps⟩
  rw [h'.state, h.state]

theorem temp (s : State) : Later s s.temp.2 := ⟨rfl, Nat.le_succ _⟩

end Later

theorem tempUpTo_temp (s : State) : TempUpTo s.temp.2.temps s.temp.1 :=
  ⟨s.temps + 1, Nat.le_refl _, rfl⟩

/-- A fresh temporary is not one of those issued before. -/
theorem not_tempUpTo_temp (s : State) : ¬ TempUpTo s.temps s.temp.1 := by
  rintro ⟨n, hn, heq⟩
  have := numbered_injective "_temp" (show numbered "_temp" (s.temps + 1) = numbered "_temp" n from heq)
  omega

theorem freshTemp (s : State) : FreshTemp s.temps s.temp.1 := ⟨isTemp_temp s, not_tempUpTo_temp s⟩

/-- The temporary was issued between the two states. -/
structure NewTemp (s s' : State) (t : String) : Prop where
  upTo : TempUpTo s'.temps t
  fresh : ¬ TempUpTo s.temps t

theorem newTemp_temp (s : State) : NewTemp s s.temp.2 s.temp.1 :=
  ⟨tempUpTo_temp s, not_tempUpTo_temp s⟩

variable {t text type x op : String} {A L R : Evaluation σ (Option Binding)} {es : List Expr}
  {G : Vars → Prop} {old : Nat} {b : Binding} {args : List String} {symbol operator : Symbol}
  {left right : Code} {target : Option Expr}

/-- A temporary that was issued in between. -/
theorem NewTemp.between {s s1 s2 s3 : State} (h : NewTemp s1 s2 t) (h1 : Later s s1)
    (h3 : Later s2 s3) : NewTemp s s3 t :=
  ⟨h.upTo.mono h3.temps, fun hold => h.fresh (hold.mono h1.temps)⟩

/-- What is generated for an expression in the state `s` does what the evaluation does. -/
def CodeAt (E : Evaluator σ) (setting : Setting) (s : State) (g : Gen (Option String))
    (A : Evaluation σ (Option Binding)) : Prop :=
  g.Ensures setting s fun x s' l => Later s s' ∧ (∀ t ∈ x, NewTemp s s' t) ∧
    Realizes E s.temps l A (fun _ => True) (Answers x)

/-- The code of an expression does what the evaluation does, in whatever state it is generated. -/
def Code.Realizes (E : Evaluator σ) (setting : Setting) (c : Code)
    (A : Evaluation σ (Option Binding)) : Prop :=
  ∀ s, CodeAt E setting s c.gen A

open Gen

variable {E : Evaluator σ} {setting : Setting} {location : Option Location} {s : State}

/-- What is generated for a value in the state `s`, where bindings may be counted on. -/
def ValueAt (E : Evaluator σ) (setting : Setting) (s : State) (g : Gen String)
    (A : Evaluation σ Binding) (given : Vars → Prop) : Prop :=
  g.Ensures setting s fun t s' l => Later s s' ∧ NewTemp s s' t ∧
    Realizes E s.temps l A given (Bound t)

/-- What is generated for a value, in whatever state. -/
def ValueRealizes (E : Evaluator σ) (setting : Setting) (g : Gen String)
    (A : Evaluation σ Binding) : Prop :=
  ∀ s, ValueAt E setting s g A fun _ => True

theorem value_realizes {c : Code} (h : c.Realizes E setting A) :
    ValueRealizes E setting c.value (A >>= Evaluation.value) := by
  intro s
  refine (h s).bind ?_
  rintro x s1 l ⟨hlater, htemps, hdoes⟩
  cases x with
  | none => exact .fail
  | some t =>
    rw [ensures_pure, List.append_nil]
    exact ⟨hlater, htemps t rfl, hdoes.valued⟩

/-- The values of expressions in order. -/
theorem values_realize (h : ∀ e ∈ es, e.lower.Realizes E setting (E.expr e)) :
    (Code.values (es.map Expr.lower)).Ensures setting s fun ts s' l =>
      Later s s' ∧ (∀ t ∈ ts, TempUpTo s'.temps t) ∧
        Realizes E s.temps l (E.exprs es) (fun _ => True) fun bs vars => AllBound vars ts bs := by
  induction es generalizing s with
  | nil =>
    simp only [List.map_nil, Code.values, Evaluator.exprs]
    exact .pure ⟨.refl s, by simp, .pure fun _ _ => .nil⟩
  | cons e rest ih =>
    rw [List.forall_mem_cons] at h
    simp only [List.map_cons, Code.values, Evaluator.exprs]
    refine (value_realizes h.1 s).bind ?_
    rintro t s1 l1 ⟨hlater1, ht1, hdoes1⟩
    refine (ih h.2).bind ?_
    rintro ts s2 l2 ⟨hlater2, hts, hdoes2⟩
    refine .pure ⟨hlater1.trans hlater2, ?_, ?_⟩
    · rw [List.forall_mem_cons]
      exact ⟨ht1.upTo.mono hlater2.temps, hts⟩
    · rw [← bind_assoc]
      refine hdoes1.andThen (fun b => ?_) hlater1.temps
      refine hdoes2.given.bind (H := fun bs vars => AllBound vars (t :: ts) (b :: bs))
        (fun bs => .pure fun _ h => h) (Nat.le_refl _) ?_
      intro bs vars vars' hb hk hbs
      exact .cons ((hk.temps t ht1.upTo).trans hb) hbs

/-! ### Objects, variables and calls -/

theorem registering_idle (location : Option Location) (t k : String) :
    ∀ i ∈ Layout.registering location t k, i.IsIdle := by
  intro i hi
  rcases List.mem_cons.1 hi with rfl | hi
  · exact .inl rfl
  · rw [List.mem_singleton.1 hi]
    exact .inr (.inr (.inr (.inr rfl)))

/-- A new object is bound to a new temporary. -/
theorem make_realizes {i : Instr} {v : Value} (ht : FreshTemp old t)
    (hi : ∀ m : Machine σ, Completes E.handler [i] m .next { ticked m with
      heap := m.heap.alloc v false
      vars := m.vars.insert t (.object m.heap.next) }) :
    Realizes E old [i] (Evaluation.create v) G (Bound t) := by
  intro M m htracks _ r M' hr
  cases hr
  refine ⟨.next, _, hi m, ?_, .insert ht.fresh, rfl, ?_⟩
  · rw [htracks.heap]
    exact (htracks.tick.withHeap (M.heap.alloc v false)).temp ht.isTemp
  · show (m.vars.insert t (.object m.heap.next)).get? t = some (.object M.heap.next)
    rw [htracks.heap, FinMap.get?_insert_self]

theorem literal_realizes (ht : FreshTemp old t) :
    Realizes E old [simple location .loadLiteral [text, type] (some t)]
      (Evaluation.literal text type) G (Bound t) := by
  unfold Evaluation.literal
  cases hv : Value.ofLiteral? text type with
  | none => exact .fail
  | some v => exact make_realizes ht fun _ => .loadLiteral hv

/-- A name of the evaluation is loaded. -/
theorem load_realizes (ht : FreshTemp old t) :
    Realizes E old [simple location .load [x] (some t)] (Evaluation.lookup x) G (Bound t) := by
  intro M m htracks _ r M' hr
  obtain ⟨b, rfl, hb⟩ := Evaluation.act_eq_ok hr
  obtain ⟨hb, rfl⟩ := Exec.ofExcept_eq_ok (show Exec.ofExcept (M.lookup x) M = _ from hb)
  exact ⟨.next, _, Completes.load (htracks.lookup hb), htracks.tick.temp ht.isTemp, .insert ht.fresh,
    rfl, FinMap.get?_insert_self _ _ _⟩

/-- A temporary is loaded, which evaluation has no part in. -/
theorem copy_realizes (ht : FreshTemp old t) :
    Realizes E old [simple location .load [x] (some t)] (pure b) (Bound x b) (Bound t) := by
  intro M m htracks hb r M' hr
  obtain ⟨rfl, rfl⟩ := Evaluation.pure_eq_ok hr
  exact ⟨.next, _, Completes.load (Layout.lookup_eq_ok hb), htracks.tick.temp ht.isTemp,
    .insert ht.fresh, rfl, FinMap.get?_insert_self _ _ _⟩

theorem genLiteral_realizes :
    ValueRealizes E setting (genLiteral location text type) (Evaluation.literal text type) := by
  refine fun s => Layout.genLiteral_emits fun k _ => ⟨.temp s, newTemp_temp s, ?_⟩
  exact (literal_realizes (freshTemp s)).append_idle (registering_idle _ s.temp.1 k)

/-- What loading a name does, given what the load does. -/
theorem genVar_realizes {A : Evaluation σ Binding}
    (h : ∀ {location t old}, FreshTemp old t →
      Realizes E old [simple location .load [x] (some t)] A G (Bound t)) :
    ValueAt E setting s (genVar location x) A G :=
  Layout.genVar_emits ⟨.temp s, newTemp_temp s, h (freshTemp s)⟩

theorem variable_realizes (name : String) :
    ValueRealizes E setting (genVar location name) (Evaluation.lookup name) :=
  fun _ => genVar_realizes load_realizes

section

variable (hE : E.Agrees setting) {target : String}

include hE

theorem genCall_realizes {opcode : Opcode} :
    (genCall location opcode target symbol args).Ensures setting s fun x s' l =>
      Later s s' ∧ (∀ t ∈ x, NewTemp s s' t) ∧ ∀ receiver values,
        Realizes E s.temps l (E.send receiver symbol values)
          (fun vars => Receives opcode target vars receiver ∧ AllBound vars args values)
          (Answers x) := by
  have hsite : ∀ receiver values, E.send receiver symbol values = Evaluation.call E.handler receiver
      (CallSite.ofSymbol setting.types target symbol args).anonymous values := by
    intro receiver values
    unfold Evaluator.send
    rw [hE.types]
    rfl
  refine .ofSetting ?_
  dsimp only
  split
  · next hr =>
    refine .temp (ensures_bind.2 (ensures_emitAt.2 fun i hi => ?_))
    obtain ⟨hc, rfl⟩ := Instr.call_eq_ok hi
    refine ensures_bind.2 (.currentScope fun k hk => .lastAll Ownership.register_eq_ok (.pure ?_))
    refine ⟨.temp s, ?_, fun receiver values => ?_⟩
    · intro t ht
      cases ht
      exact newTemp_temp s
    · rw [hsite]
      show Realizes E s.temps ([Instr.calling location opcode (some s.temp.1) _] ++
        Layout.registering location s.temp.1 k) _ _ _
      refine Realizes.append_idle ?_ (registering_idle _ s.temp.1 k)
      rintro M m ht ⟨hreceiver, hargs⟩
      apply Does.calling hE.handler ht hc (by rw [hr]; rfl) _ hreceiver hargs
      intro t ht
      cases ht
      exact freshTemp s
  · next hr =>
    refine ensures_bind.2 (ensures_emitAt.2 fun i hi => .pure ?_)
    obtain ⟨hc, rfl⟩ := Instr.call_eq_ok hi
    refine ⟨.refl s, by simp, fun receiver values => ?_⟩
    rw [hsite]
    show Realizes E s.temps [Instr.calling location opcode none _] _ _ _
    rintro M m ht ⟨hreceiver, hargs⟩
    have hnone : (CallSite.ofSymbol setting.types target symbol args).hasResult = false := by
      simpa using hr
    exact Does.calling hE.handler ht hc (by rw [hnone]; rfl) (by simp) hreceiver hargs

/-- A call on a receiver that must return a value. -/
theorem genCallValue_realizes :
    (genCallValue target symbol args).Ensures setting s fun t s' l =>
      Later s s' ∧ NewTemp s s' t ∧ ∀ receiver values,
        Realizes E s.temps l (E.ask receiver symbol values)
          (fun vars => Bound target receiver vars ∧ AllBound vars args values) (Bound t) := by
  refine (genCall_realizes hE).bind ?_
  rintro x s1 l ⟨hlater, htemps, hdoes⟩
  cases x with
  | none => exact .fail
  | some t =>
    rw [ensures_pure, List.append_nil]
    exact ⟨hlater, htemps t rfl, fun receiver values => Realizes.valued
      ((hdoes (some receiver) values).mono (fun _ h => ⟨receives_call h.1, h.2⟩) fun _ _ h => h)⟩

/-- The truth of an object. -/
theorem genPrimitive_realizes {value : String} :
    (genPrimitive value type).Ensures setting s fun t s' l =>
      Later s s' ∧ NewTemp s s' t ∧ ∀ b, Realizes E s.temps l (E.truth type b) (Bound value b)
        fun p => Bound t (.primitive p) := by
  refine Layout.genPrimitive_emits ⟨.temp s, newTemp_temp s, fun b => ?_⟩
  have hsend : Realizes E s.temps [Instr.calling none .call (some s.temp.1)
        (CallSite.ofSymbol setting.types value
          (Symbol.method type "_true" TypeName.boolean).asPure [])]
      (E.send (some b) (Symbol.method type "_true" TypeName.boolean).asPure [])
      (Bound value b) (Answers (some s.temp.1)) := by
    intro M m ht hb
    unfold Evaluator.send
    rw [hE.types]
    apply Does.calling hE.handler ht rfl rfl
    · intro t ht
      cases ht
      exact freshTemp s
    · exact receives_call hb
    · exact .nil
  refine hsend.valued.andThen (r := []) (fun v => ?_) (Nat.le_refl _)
  cases v with
  | primitive p => exact .pure fun _ h => h
  | null | object id => exact .fail

end

end Lowering

end ScopedIR
