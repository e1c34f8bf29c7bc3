import ScopedIR.Proofs.ConfinedActions
import ScopedIR.Proofs.LoweredOperation

/-!
# Runs open and close scopes as the layout says

At every point of lowered code the scopes that are open in a run are the ones of the layout. A return
has left all of them, and an exception has left none below the innermost try chain around, whoever
threw it and wherever. So no scope is missed and none is left over.

Nothing is asked of names here: they may be bound to anything, and a run may halt for any other
reason.

Main statement: `scopes_eq_nil_of_lower`, for every operation of a lowered module.
-/

namespace ScopedIR

variable {σ α β : Type}

/-- A fault that is none of scopes, unless the handler of calls itself answers with it. -/
def Fault.Excused (cfg : Config σ) (f : Fault) : Prop :=
  f.isScope = true → cfg.handler.FailsWith f

namespace Exec

/-- The open scopes, innermost first. -/
def openIds (m : Machine σ) : List String := m.scopes.map (·.id)

/-! ### Actions that leave scopes alone -/

/-- An action that answers as `P` says and leaves scopes and pending handlers as they are. -/
def Still (cfg : Config σ) (P : α → Prop) (a : Exec σ α) : Prop :=
  ∀ m, Leads (Fault.Excused cfg) a m fun x m' =>
    P x ∧ m'.scopes = m.scopes ∧ m'.handlers = m.handlers

/-- A halt that is none of scopes, unless the handler of calls itself fails so. -/
def Pardons (cfg : Config σ) (halt : Halt) : Prop := ∀ f, halt = .fault f → f.Excused cfg

/-- Scopes and pending handlers are as before. -/
def SameScopes (m m' : Machine σ) : Prop := m'.scopes = m.scopes ∧ m'.handlers = m.handlers

variable {cfg : Config σ}

instance : Bounds (Pardons cfg) (SameScopes (σ := σ)) where
  refl _ := ⟨rfl, rfl⟩
  trans h h' := ⟨h'.1.trans h.1, h'.2.trans h.2⟩
  fault hf := by
    rintro _ ⟨⟩ hs
    rw [hf] at hs
    cases hs

instance : Loose (SameScopes (σ := σ)) where
  vars _ _ := ⟨rfl, rfl⟩
  heap _ _ := ⟨rfl, rfl⟩
  calls _ _ := ⟨rfl, rfl⟩

theorem pardons_of_failsWith (f : Fault) (hf : cfg.handler.FailsWith f) : Pardons cfg (.fault f) := by
  rintro _ ⟨⟩ _
  exact hf

theorem Confined.still {P : α → Prop} {a : Exec σ α} (h : Confined (Pardons cfg) SameScopes P a) :
    Still cfg P a := by
  intro m
  have hm := h m
  unfold Leads
  cases ha : a m with
  | ok x m' =>
    rw [ha] at hm
    exact hm
  | error halt m' =>
    rw [ha] at hm
    cases halt with
    | fault f => exact hm f rfl
    | diverged => trivial

theorem Still.perform_call {rounds : Nat} {i : Instr} {p : Payload (Exec σ Control)}
    (h : i.opcode.isCall = true) : Still cfg Still.Going (perform exitScope cfg rounds i p) :=
  (Confined.perform_call pardons_of_failsWith h).still

end Exec

namespace Layout

open Exec Instr

/-! ### The scopes of the layout -/

/-- The scopes of the context are the open ones, and no handler of a block is pending. -/
structure Opens (Γ : Context) (m : Machine σ) : Prop where
  ids : openIds m = Γ.ids
  handlers : m.handlers = []

/-- The scopes that are open when control leaves code in a context. -/
def ScopesAfter (Γ : Context) (d : Bool) (c : Control) (m : Machine σ) : Prop :=
  m.handlers = [] ∧
    match c with
    | .next => d = false ∧ openIds m = Γ.ids
    | .throw _ => ∃ extra, openIds m = extra ++ Γ.ids.drop (Γ.frames.length - Γ.boundary)
    | .ret _ => Γ.mayReturn = true ∧ m.scopes = []
    | .jump _ => False

/-- Code opens and closes scopes as the layout says, in a block or in a nested list. -/
def Clean (cfg : Config σ) (rounds : Nat) (Γ : Context) (d : Bool) (l : List Instr) : Prop :=
  ∀ inner m, Opens Γ m →
    Leads (Fault.Excused cfg) (runAll (l.map (Instr.stepped cfg rounds inner))) m (ScopesAfter Γ d)

variable {cfg : Config σ} {rounds : Nat} {Γ Γ1 Γ2 : Context} {d : Bool} {l r : List Instr}
  {m m' : Machine σ} {i : Instr} {k : String} {location : Option Location}

theorem Opens.of_still (h : Opens Γ m) (hs : m'.scopes = m.scopes)
    (hh : m'.handlers = m.handlers) : Opens Γ m' :=
  ⟨by unfold openIds; rw [hs]; exact h.ids, hh.trans h.handlers⟩

theorem Opens.next (h : Opens Γ m) : ScopesAfter Γ false .next m := ⟨h.handlers, rfl, h.ids⟩

theorem ScopesAfter.opens (h : ScopesAfter Γ d .next m) : Opens Γ m := ⟨h.2.2, h.1⟩

variable {c : Control} {a : Exec σ Control} {x : String} {ids params : List String}
  {post : Unit → Machine σ → Prop} {π : Policy} {inner hasFinally : Bool}

theorem ScopesAfter.left {d' : Bool} (hc : c ≠ .next) (h : ScopesAfter Γ d c m) :
    ScopesAfter Γ d' c m := by
  cases c with
  | next => exact absurd rfl hc
  | _ => exact h

/-- An exception thrown right here leaves every scope open. -/
theorem Opens.throw {e : Binding} (h : Opens Γ m) : ScopesAfter Γ d (.throw e) m :=
  ⟨h.handlers, Γ.ids.take (Γ.frames.length - Γ.boundary), by rw [List.take_append_drop, h.ids]⟩

/-- Only the open scopes matter, and where the operation may be left to. -/
theorem Clean.congr (h : Clean cfg rounds Γ1 d l) (hi : Γ1.ids = Γ.ids)
    (hb : Γ1.boundary = Γ.boundary) (hr : Γ1.mayReturn = Γ.mayReturn) : Clean cfg rounds Γ d l := by
  intro inner m hm
  refine (h inner m ⟨hm.ids.trans hi.symm, hm.handlers⟩).mono fun c m' hc => ?_
  have hlength : Γ1.frames.length = Γ.frames.length := by
    rw [← Context.length_ids, hi, Context.length_ids]
  unfold ScopesAfter at hc ⊢
  rwa [hi, hb, hr, hlength] at hc

theorem Clean.alike (ha : Γ.Alike Γ1) (h : Clean cfg rounds Γ1 d l) : Clean cfg rounds Γ d l :=
  h.congr ha.ids ha.boundary ha.mayReturn

theorem Clean.nil : Clean cfg rounds Γ false [] := fun _ _ h => h.next

theorem Clean.append (h : Clean cfg rounds Γ false l) (h' : Clean cfg rounds Γ d r) :
    Clean cfg rounds Γ d (l ++ r) := by
  intro inner m hm
  rw [List.map_append, leads_runAll_append]
  exact (h inner m hm).through (fun m1 h1 => h' inner m1 h1.opens) fun _ _ hc h1 => h1.left hc

/-- An instruction halts for no other reason than its effect. -/
theorem Clean.single (h : ∀ m, Opens Γ m → Leads (Fault.Excused cfg)
    (perform exitScope cfg rounds i (i.payload.map (Instr.stepped cfg rounds true))) m (ScopesAfter Γ d)) :
    Clean cfg rounds Γ d [i] := by
  intro inner m hm
  rw [List.map_singleton, leads_runAll_single]
  refine leads_stepped (fun hs => by cases hs) (fun _ hs => by cases hs) ?_
  exact h _ (hm.of_still rfl rfl)

/-- An action that leaves scopes alone. -/
theorem Opens.leads_still (hm : Opens Γ m) (h : Still cfg (· = .next) a) :
    Leads (Fault.Excused cfg) a m (ScopesAfter Γ false) := by
  refine (h m).mono fun c m' hc => ?_
  obtain ⟨rfl, hs, hh⟩ := hc
  exact (hm.of_still hs hh).next

theorem Clean.moves (h : Still.moves i.opcode = true) : Clean cfg rounds Γ false [i] :=
  .single fun _ hm => hm.leads_still (Confined.perform_quiet (Still.quiet_of_moves h)).still

theorem Clean.call (h : i.opcode.isCall = true) : Clean cfg rounds Γ false [i] := by
  refine .single fun m hm => (Still.perform_call h m).mono fun c m' hc => ?_
  obtain ⟨rfl | ⟨e, rfl⟩, hs, hh⟩ := hc
  · exact (hm.of_still hs hh).next
  · exact (hm.of_still hs hh).throw

/-- A name can be registered to a scope that is open. -/
theorem openIds_registerIn {scopes : List OpenScope} (hk : k ∈ scopes.map (·.id)) :
    ∃ scopes', Machine.registerIn k x scopes = some scopes' ∧
      scopes'.map (·.id) = scopes.map (·.id) := by
  induction scopes with
  | nil => simp at hk
  | cons s outer ih =>
    by_cases hs : s.id = k
    · exact ⟨{ s with registered := x :: s.registered } :: outer,
        by rw [Machine.registerIn, if_pos hs], rfl⟩
    · rw [List.map_cons] at hk
      obtain ⟨scopes', hr, hids⟩ := ih ((List.mem_cons.1 hk).resolve_left fun h => hs h.symm)
      exact ⟨s :: scopes', by rw [Machine.registerIn, if_neg hs, hr]; rfl, by simp [hids]⟩

theorem Clean.register (hm : cfg.memory = .arc) (hk : k ∈ Γ.ids) :
    Clean cfg rounds Γ false [simple location .scopeRegister [x, k] none] := by
  refine .single fun m h => ?_
  rw [leads_scopeRegister hm]
  have hopen : k ∈ openIds m := by
    rw [h.ids]
    exact hk
  obtain ⟨scopes, hr, hids⟩ := openIds_registerIn (x := x) hopen
  rw [hr]
  exact ⟨h.handlers, rfl, hids.trans h.ids⟩

theorem Clean.registering (hm : cfg.memory = .arc) (hk : k ∈ Γ.ids) :
    Clean cfg rounds Γ false (registering location x k) :=
  .append (l := [_]) (.moves rfl) (.register hm hk)

/-- Leaving the innermost scope. -/
theorem leads_leave (hi : openIds m = k :: ids)
    (hpost : ∀ m', openIds m' = ids → m'.handlers = m.handlers → post () m') :
    Leads (Fault.Excused cfg) (exitScope k) m post := by
  cases hs : m.scopes with
  | nil =>
    unfold openIds at hi
    rw [hs] at hi
    cases hi
  | cons s outer =>
    obtain ⟨hid, hids⟩ : s.id = k ∧ outer.map (·.id) = ids := by
      unfold openIds at hi
      rw [hs] at hi
      simpa using hi
    unfold exitScope
    rw [leads_bind, leads_get, hs]
    change Leads _ (modify _ >>= fun _ => _) m post
    rw [leads_bind, leads_modify, if_pos hid]
    have hrelease : Still cfg _ (releaseNames s.registered) :=
      (Confined.releaseNames (R := SameScopes) (fun _ _ => ⟨rfl, rfl⟩) s.registered).still
    refine (hrelease _).mono fun _ m' h => hpost m' ?_ h.2.2
    unfold openIds
    rw [h.2.1]
    exact hids

/-- Leaving scopes until those of an outer part remain. -/
theorem leads_unwind {extra : List String} (hi : openIds m = extra ++ ids)
    (hpost : ∀ m', openIds m' = ids → m'.handlers = m.handlers → post () m') :
    Leads (Fault.Excused cfg) (unwind exitScope ids.length) m post := by
  unfold unwind
  have hlength : m.scopes.length - ids.length = extra.length := by
    have := congrArg List.length hi
    simp only [openIds, List.length_map, List.length_append] at this
    omega
  rw [leads_bind, leads_get, hlength]
  clear hlength
  induction extra generalizing m with
  | nil => exact hpost m hi rfl
  | cons k extra ih =>
    cases hs : m.scopes with
    | nil =>
      unfold openIds at hi
      rw [hs] at hi
      cases hi
    | cons s outer =>
      have hid : s.id = k := by
        unfold openIds at hi
        rw [hs] at hi
        exact (List.cons.inj hi).1
      rw [List.length_cons, exitScopes, leads_bind, leads_get, hs]
      change Leads _ (exitScope s.id >>= fun _ => exitScopes exitScope extra.length) m post
      rw [leads_bind, hid]
      refine leads_leave hi fun m' hi' hh => ih hi' fun m'' hi'' hh' => ?_
      exact hpost m'' hi'' (hh'.trans hh)

/-! ### Expressions and conditions -/

/-- A result is bound to what a name is bound to. -/
theorem Opens.gives_lookup {result : Option String} (h : Opens Γ m) :
    Gives (Fault.Excused cfg) (m.lookup x) fun v => ScopesAfter Γ false .next (bound m result v) := by
  cases hx : m.lookup x with
  | error f =>
    intro hf
    rcases Machine.lookup_error hx with hheap | ⟨rfl, -⟩
    · rw [Fault.isScope_of_isHeap hheap] at hf
      cases hf
    · cases hf
  | ok v => cases result <;> exact ⟨h.handlers, rfl, h.ids⟩

/-- A list runs, and then an action that leaves scopes alone. -/
theorem Clean.leads_then (h : Clean cfg rounds Γ d l) (ha : Still cfg (· = .next) a)
    (hm : Opens Γ m) :
    Leads (Fault.Excused cfg) (runAll (l.map (Instr.stepped cfg rounds true))) m fun c m1 =>
      Through c (Leads (Fault.Excused cfg) a m1 (ScopesAfter Γ false)) (ScopesAfter Γ false c m1) :=
  (h true m hm).through (fun _ h1 => h1.opens.leads_still ha) fun _ _ hc h1 => h1.left hc

/-- A list runs down to a truth value. -/
theorem Clean.leads_test (h : Clean cfg rounds Γ false l) (hm : Opens Γ m) :
    Leads (Fault.Excused cfg) (runAll (l.map (Instr.stepped cfg rounds true))) m fun c m1 =>
      Through c (Leads (Fault.Excused cfg) (primitive x) m1 fun _ => Opens Γ)
        (ScopesAfter Γ false c m1) :=
  (h true m hm).through
    (fun m1 h1 => ((Confined.primitive x).still m1).mono fun _ _ h2 => h1.opens.of_still h2.2.1 h2.2.2)
    fun _ _ hc h1 => h1.left hc

theorem Calc.clean {B : List String} (hm : cfg.memory = .arc) (h : Calc π B k Γ l Γ1) :
    Clean cfg rounds Γ false l := by
  induction h with
  | nil => exact .nil
  | append h _ ih ih' => exact ih.append (ih'.alike h.alike)
  | create _ hk ho =>
    refine .append (.moves ?_) (.registering hm (Context.mem_ids_of_reach hk))
    rcases ho with rfl | rfl <;> rfl
  | load | loadField => exact .moves rfl
  | call _ hk ho => exact .append (.call ho) (.registering hm (Context.mem_ids_of_reach hk))
  | perform ho => exact .call ho
  | test => exact .call rfl
  | isSet _ _ _ _ _ _ _ ihNull ihSet =>
    refine .single fun m0 h0 => ?_
    change Leads _ (runChain exitScope rounds _ ((question _ _ _ _ _ _ _ _).map _)) _ _
    refine leads_branch (P := Opens _) (J := Opens _)
      (by simp [question, Chain.map]) rfl h0 (fun _ h1 => h1) ?_ ?_ ?_ ?_
    · intro e he m h
      obtain rfl := List.mem_singleton.1 he
      exact Clean.leads_test (.moves rfl) h
    · intro e he m h
      obtain rfl := List.mem_singleton.1 he
      exact leads_andThen_nil (ihNull.leads_then (Confined.finishChain _ _ _).still h)
    · intro b hb m h
      cases hb
      exact ihSet.leads_then (Confined.finishChain _ _ _).still h
    · intro hb
      cases hb
  | @logical Γ Γ1 Γ2 Γ3 t b location _ hl _ _ hr _ _ ihl ihr ihc =>
    refine .single fun m h => ?_
    have hright := ihr.alike hl.alike
    have hcompute := ihc.alike (hl.alike.trans hr.alike)
    change Leads _ (Exec.perform Exec.exitScope cfg rounds (logicalBlock location t b)
      (.logical (b.map _))) _ _
    rw [perform_logicalBlock]
    refine leads_runLogical ((ihl.leads_test (x := b.condition) h).mono fun ctl m1 h1 => ?_)
    cases ctl with
    | next =>
      refine Leads.mono h1 fun holds m2 h2 => ?_
      split
      · exact h2.gives_lookup
      · refine (hright true m2 h2).through (fun m3 h3 => ?_) fun _ _ _ h3 => h3
        exact (hcompute true m3 h3.opens).through (fun m4 h4 => h4.opens.gives_lookup)
          fun _ _ _ h4 => h4
    | _ => exact h1

/-! ### Scopes -/

theorem Clean.entering (hm : cfg.memory = .arc) {post : Control → Machine σ → Prop}
    (h : Opens Γ m) (hp : ∀ m', Opens (Γ.push k) m' → post .next m') :
    Leads (Fault.Excused cfg) ((entering k).stepped cfg rounds inner) m post := by
  refine leads_stepped (fun hs => by cases hs) (fun _ hs => by cases hs) ?_
  refine (leads_scopeEnter hm).2 (hp _ ⟨?_, h.handlers⟩)
  exact congrArg (k :: ·) h.ids

/-- Code in a scope of its own. -/
theorem Clean.scoping (hm : cfg.memory = .arc) (hb : Γ.boundary ≤ Γ.frames.length)
    (h : Clean cfg rounds (Γ.push k) d l) : Clean cfg rounds Γ d (scoping k d l) := by
  -- What leaves the scope early leaves the context around it in the same way.
  have hleft : ∀ {d'} {c : Control} {m : Machine σ}, c ≠ .next → ScopesAfter (Γ.push k) d c m →
      ScopesAfter Γ d' c m := by
    intro d' c m hc hl
    cases c with
    | next => exact absurd rfl hc
    | throw e =>
      obtain ⟨hh, extra, hi⟩ := hl
      refine ⟨hh, extra, ?_⟩
      have hlength : (Γ.push k).frames.length - Γ.boundary = Γ.frames.length - Γ.boundary + 1 := by
        change Γ.frames.length + 1 - Γ.boundary = _
        omega
      rw [hi]
      change extra ++ (k :: Γ.ids).drop ((Γ.push k).frames.length - Γ.boundary) = _
      rw [hlength, List.drop_succ_cons]
    | ret v | jump l => exact hl
  intro inner m hΓ
  unfold Layout.scoping
  rw [List.append_assoc, List.map_append, List.map_singleton, List.singleton_append,
    leads_runAll_cons]
  refine Clean.entering hm hΓ fun m1 h1 => ?_
  change Leads _ (runAll _) m1 _
  rw [List.map_append, leads_runAll_append]
  refine (h inner m1 h1).through (fun m2 h2 => ?_) fun c m2 hc h2 => hleft hc h2
  obtain rfl : d = false := h2.2.1
  change Leads _ (runAll ((([exiting k] : List Instr)).map _)) m2 _
  rw [List.map_singleton, leads_runAll_single]
  refine leads_stepped (fun hs => by cases hs) (fun _ hs => by cases hs) ?_
  have hopen : openIds m2 = k :: Γ.ids := h2.2.2
  refine (leads_scopeExit hm).2 (leads_leave hopen fun m3 hi hh => ?_)
  exact ⟨hh.trans h2.1, rfl, hi⟩

/-- Scopes are left in order. -/
theorem leads_leaving_all (hm : cfg.memory = .arc) {ks : List String} (ids : List String)
    {post : Control → Machine σ → Prop} (hi : openIds m = ks ++ ids) (hh : m.handlers = [])
    (hp : ∀ m', openIds m' = ids → m'.handlers = [] → post .next m') :
    Leads (Fault.Excused cfg) (runAll ((leaving location ks).map (Instr.stepped cfg rounds inner)))
      m post := by
  induction ks generalizing m with
  | nil => exact hp m hi hh
  | cons k ks ih =>
    change Leads _ (runAll (Instr.stepped cfg rounds inner _ :: _)) m post
    rw [leads_runAll_cons]
    refine leads_stepped (fun hs => by cases hs) (fun _ hs => by cases hs) ?_
    have hopen : openIds m = k :: (ks ++ ids) := hi
    refine (leads_scopeExit hm).2 (leads_leave hopen fun m1 hi1 hh1 => ?_)
    exact ih hi1 (hh1.trans hh)

/-- A return leaves every scope. -/
theorem Clean.leavingAll (hm : cfg.memory = .arc) (hr : Γ.mayReturn = true) {operands : List String} :
    Clean cfg rounds Γ true
      (leaving location Γ.ids ++ [simple location .ret operands none]) := by
  intro inner m hΓ
  rw [List.map_append, leads_runAll_append]
  refine leads_leaving_all hm [] (by rw [hΓ.ids, List.append_nil]) hΓ.handlers
    fun m1 hi hh => ?_
  have hs : m1.scopes = [] := List.map_eq_nil_iff.1 hi
  change Leads _ (runAll _) m1 _
  rw [List.map_singleton, leads_runAll_single]
  refine leads_stepped (fun hs => by cases hs) (fun _ hs => by cases hs) ?_
  refine ((Confined.perform_ret rfl).still _).mono fun c m2 h2 => ?_
  obtain ⟨⟨v, rfl⟩, hs2, hh2⟩ := h2
  exact ⟨hh2.trans hh, hr, hs2.trans hs⟩

/-- An exception that is thrown leaves the scopes opened since the innermost try chain. -/
theorem Clean.leavingInner (hm : cfg.memory = .arc) :
    Clean cfg rounds Γ true
      (leaving location Γ.inner ++ [simple location .throw [x] none]) := by
  intro inner m hΓ
  rw [List.map_append, leads_runAll_append]
  refine leads_leaving_all hm (Γ.ids.drop (Γ.frames.length - Γ.boundary)) ?_ hΓ.handlers
    fun m1 hi hh => ?_
  · rw [hΓ.ids]
    exact (List.take_append_drop _ _).symm
  · change Leads _ (runAll _) m1 _
    rw [List.map_singleton, leads_runAll_single]
    refine leads_stepped (fun hs => by cases hs) (fun _ hs => by cases hs) ?_
    refine ((Confined.perform_throw rfl).still _).mono fun c m2 h2 => ?_
    obtain ⟨⟨e, rfl⟩, hs2, hh2⟩ := h2
    refine ⟨hh2.trans hh, [], ?_⟩
    unfold openIds
    rw [hs2]
    exact hi

/-! ### Statements -/

theorem Test.clean {p : String} (hm : cfg.memory = .arc) (hb : Γ.boundary ≤ Γ.frames.length)
    (h : Test π Γ l p) : Clean cfg rounds Γ false l := by
  cases h with
  | intro _ _ h => exact .scoping hm hb (h.clean hm)

theorem Clean.setup {v : Option (ChainVariable Instr)} (h : Clean cfg rounds Γ false (setupOf v))
    (hm : Opens Γ m) :
    Leads (Fault.Excused cfg) (runSetup (v.map (·.map (Instr.stepped cfg rounds true)))) m
      fun c m1 => Through c (Opens Γ m1) (ScopesAfter Γ false c m1) := by
  cases v with
  | none => exact hm
  | some v => exact (h true m hm).through (fun _ h1 => h1.opens) fun _ _ _ h1 => h1

/-- A conditional or a switch. -/
theorem Clean.branch {c : Chain Instr} {dep : Case Instr → Bool} {depF : Bool}
    (ht : c.kind ≠ .tryCatchFinally) (hl : c.kind.isLoop = false)
    (hs : Clean cfg rounds Γ false (setupOf c.subject))
    (hr : Clean cfg rounds Γ false (setupOf c.returning))
    (htest : ∀ e ∈ c.cases, Clean cfg rounds Γ false e.condition.evaluation)
    (hbody : ∀ e ∈ c.cases, Clean cfg rounds Γ (dep e) e.body.evaluation)
    (hupdates : ∀ e ∈ c.cases, e.updates = [])
    (hfallback : ∀ b, c.fallback = some b → Clean cfg rounds Γ depF b.evaluation) :
    Clean cfg rounds Γ false [chained location c] := by
  refine .single fun m h => ?_
  change Leads _ (runChain exitScope rounds _ (c.map _)) _ _
  refine leads_branch (P := Opens Γ) (J := Opens Γ) ht hl (hs.setup h) (fun m h => hr.setup h) ?_ ?_ ?_ ?_
  · intro e' he' m h
    obtain ⟨e, he, rfl⟩ := List.mem_map.1 he'
    exact (htest e he).leads_test h
  · intro e' he' m h
    obtain ⟨e, he, rfl⟩ := List.mem_map.1 he'
    have hu : (e.map (Instr.stepped cfg rounds true)).updates = [] := by
      change e.updates.map _ = []
      rw [hupdates e he, List.map_nil]
    rw [hu]
    exact leads_andThen_nil ((hbody e he).leads_then (Confined.finishChain _ _ _).still h)
  · intro b' hb' m h
    obtain ⟨b, hb, rfl⟩ := Option.map_eq_some_iff.1 hb'
    exact (hfallback b hb).leads_then (Confined.finishChain _ _ _).still h
  · exact fun _ m h => h.leads_still (Confined.finishChain _ _ _).still

/-- A loop over one case. -/
theorem Clean.loop {c : Chain Instr} {e : Case Instr} (hl : c.kind.isLoop = true)
    (hs : c.subject = none) (hr : c.returning = none) (hc : c.cases = [e])
    (htest : Clean cfg rounds Γ false e.condition.evaluation)
    (hbody : Clean cfg rounds Γ d e.body.evaluation)
    (hupdates : Clean cfg rounds Γ false e.updates) :
    Clean cfg rounds Γ false [chained location c] := by
  refine .single fun m h => ?_
  change Leads _ (runChain exitScope rounds _ (c.map (Instr.stepped cfg rounds true))) m _
  rw [runChain_loop (e := e.map (Instr.stepped cfg rounds true)) hl (by simp [Chain.map, hs])
    (by simp [Chain.map, hr]) (by simp [Chain.map, hc])]
  refine leads_loop (J := Opens Γ) (K := Opens Γ) ?_ ?_ (by split <;> exact h)
  · intro m h
    refine (htest.leads_test (x := e.condition.primitive) h).mono fun ctl m1 h1 => ?_
    cases ctl with
    | next =>
      refine Leads.mono h1 fun holds m2 h2 => ?_
      split
      · exact h2
      · exact h2.next
    | _ => exact h1
  · intro m h
    rw [leads_andThen]
    refine (hbody true m h).through (fun m1 h1 => ?_) fun _ _ hc h1 => .left hc (h1.left hc)
    exact (hupdates true m1 h1.opens).through (fun _ h2 => h2.opens) fun _ _ _ h2 => h2

/-- What is pending before the finally block of a try chain: the scopes around it are open, unless the
operation is left by a return that no finally block waits for. -/
def Pending (Γ : Context) (hasFinally : Bool) (c : Control) (m : Machine σ) : Prop :=
  match c with
  | .next | .throw _ => Opens Γ m
  | .ret _ => hasFinally = false ∧ ScopesAfter Γ false c m
  | .jump _ => False

theorem Pending.leaves (h : Pending Γ false c m) : ScopesAfter Γ false c m := by
  cases c with
  | next => exact Opens.next h
  | throw e => exact Opens.throw h
  | ret v => exact h.2
  | jump l => exact absurd h id

theorem Pending.opens (h : Pending Γ true c m) : Opens Γ m := by
  cases c with
  | next | throw e => exact h
  | ret v => exact absurd h.1 (by simp)
  | jump l => exact absurd h id

/-- What leaves the protected part of a try chain other than by an exception. -/
theorem Pending.of_leaves (hc : ∀ e, c ≠ .throw e) (h : ScopesAfter (Γ.protect hasFinally) d c m) :
    Pending Γ hasFinally c m := by
  cases c with
  | next => exact ⟨h.2.2, h.1⟩
  | throw e => exact absurd rfl (hc e)
  | ret v =>
    obtain ⟨hh, hr, hs⟩ := h
    have hr : Γ.mayReturn = true ∧ hasFinally = false := by
      simpa [Context.protect] using hr
    exact ⟨hr.2, hh, hr.1, hs⟩
  | jump l => exact absurd h.2 id

/-- An exception out of the protected part is unwound down to the scopes around the chain. -/
theorem leads_unwind_protect {e : Binding} (h : ScopesAfter (Γ.protect hasFinally) d (.throw e) m)
    (hp : ∀ m', Opens Γ m' → post () m') :
    Leads (Fault.Excused cfg) (unwind exitScope Γ.ids.length) m post := by
  obtain ⟨hh, extra, hi⟩ := h
  have hopen : openIds m = extra ++ Γ.ids := by
    rw [hi]
    change extra ++ Γ.ids.drop (Γ.frames.length - Γ.frames.length) = _
    rw [Nat.sub_self, List.drop_zero]
  exact leads_unwind hopen fun m' hi' hh' => hp m' ⟨hi', hh'.trans hh⟩

/-- What leaves a finally block leaves the code around it. -/
theorem ScopesAfter.of_lastly (hc : c ≠ .next) (h : ScopesAfter Γ.lastly d c m) :
    ScopesAfter Γ false c m := by
  cases c with
  | next => exact absurd rfl hc
  | throw e =>
    obtain ⟨hh, extra, hi⟩ := h
    refine ⟨hh, extra ++ Γ.ids.take (Γ.frames.length - Γ.boundary), ?_⟩
    rw [List.append_assoc, List.take_append_drop, hi]
    change extra ++ Γ.ids.drop (Γ.frames.length - Γ.frames.length) = _
    rw [Nat.sub_self, List.drop_zero]
  | ret v => exact absurd h.2.1 (by simp [Context.lastly])
  | jump l => exact absurd h.2 id

theorem typeOf_error {b : Binding} {f : Fault} (he : m.typeOf b = .error f) :
    f.isHeap = true := by
  cases b with
  | null | primitive _ => cases he
  | object id =>
    cases hv : m.heap.value id with
    | ok v =>
      rw [Machine.typeOf.eq_1, hv] at he
      cases he
    | error f' =>
      rw [Machine.typeOf.eq_1, hv] at he
      cases he
      exact Heap.value_error hv

/-- A try chain. -/
theorem Clean.tryCatch {c : Chain Instr} {b : TryBlock Instr} {dep : Case Instr → Bool}
    (ht : c.kind = .tryCatchFinally) (hb : c.tryBlock = some b)
    (hblock : Clean cfg rounds (Γ.protect c.finallyBlock.isSome) d b.evaluation)
    (hcatch : ∀ e ∈ c.cases,
      Clean cfg rounds (Γ.protect c.finallyBlock.isSome) (dep e) e.body.evaluation)
    (hlast : ∀ b, c.finallyBlock = some b → Clean cfg rounds Γ.lastly false b.evaluation) :
    Clean cfg rounds Γ false [chained location c] := by
  refine .single fun m h => ?_
  have hdepth : m.scopes.length = Γ.ids.length := by
    rw [← h.ids, openIds, List.length_map]
  change Leads _ (runChain exitScope rounds _ (c.map (Instr.stepped cfg rounds true))) m _
  rw [runChain_try (b := b.map (Instr.stepped cfg rounds true)) ht (by simp [Chain.map, hb])]
  refine leads_runTry (R := Pending Γ c.finallyBlock.isSome) ?_ ?_ ?_
  · refine (hblock true m ⟨h.ids, h.handlers⟩).mono fun ctl m1 h1 => ?_
    cases ctl with
    | throw e =>
      dsimp only
      rw [hdepth]
      refine leads_handle (c := c) (leads_unwind_protect h1 fun m2 h2 => ?_)
      cases hty : m2.typeOf e with
      | error f =>
        intro hf
        rw [Fault.isScope_of_isHeap (typeOf_error hty)] at hf
        cases hf
      | ok type =>
        refine ⟨h2, fun case hcase => ?_⟩
        refine Leads.mono (hcatch case hcase true _ ⟨h2.ids, h2.handlers⟩) fun ctl m3 h3 => ?_
        cases ctl with
        | throw e' => exact leads_unwind_protect h3 fun _ h4 => h4
        | _ => exact Pending.of_leaves (by simp) h3
    | _ => exact Pending.of_leaves (by simp) h1
  · intro hnone ctl m1 h1
    have hn : c.finallyBlock = none := Option.map_eq_none_iff.1 hnone
    rw [hn] at h1
    exact h1.leaves
  · intro last' hlast' ctl m1 h1
    obtain ⟨last, hl, rfl⟩ := Option.map_eq_some_iff.1 hlast'
    rw [hl] at h1
    have hΓ : Opens Γ m1 := Pending.opens h1
    refine (hlast last hl true m1 ⟨hΓ.ids, hΓ.handlers⟩).through ?_ ?_
    · intro m2 h2
      have hΓ2 : Opens Γ m2 := ⟨h2.2.2, h2.1⟩
      cases ctl with
      | next => exact hΓ2.next
      | throw e => exact hΓ2.throw
      | ret v => exact absurd h1.1 (by simp)
      | jump l => exact absurd h1 id
    · intro c' m2 hc' h2
      exact h2.of_lastly hc'

theorem Emits.clean (hm : cfg.memory = .arc) (h : Emits π Γ d l Γ1)
    (hb : Γ.boundary ≤ Γ.frames.length) : Clean cfg rounds Γ d l := by
  induction h with
  | nil => exact .nil
  | append h _ ih ih' =>
    have ha := h.alike
    exact (ih hb).append ((ih' (by rw [ha.boundary, ha.length_frames]; exact hb)).alike ha)
  | forget _ _ ih => exact (ih hb).congr rfl rfl rfl
  | compute _ h => exact h.clean hm
  | declare _ hk =>
    exact .append (l := [_]) (.moves rfl) (.register hm (Context.mem_ids_of_reach hk))
  | bind _ hk _ h =>
    refine .append (.append ?_ ((h.clean hm).alike .own)) ?_
    · exact .append (l := [_]) (.moves rfl) (.register hm (Context.mem_ids_of_reach hk))
    · exact .append (l := [_]) (.moves rfl) (.moves rfl)
  | assign _ _ _ h | assignField _ _ _ _ h =>
    refine (h.clean hm).append (.append (l := [_]) (.moves rfl) ?_)
    exact .append (l := [_]) (.moves rfl) (.moves rfl)
  | initField _ _ _ _ h =>
    exact (h.clean hm).append (.append (l := [_]) (.moves rfl) (.moves rfl))
  | assert _ h => exact (h.clean hm).append (.moves rfl)
  | ret hr _ h =>
    rw [List.append_assoc]
    exact (h.clean hm).append (.append (.moves rfl) (.leavingAll hm hr))
  | retNone hr => exact .leavingAll hm hr
  | throw _ _ h =>
    rw [List.append_assoc]
    exact (h.clean hm).append (.append (.moves rfl) (.leavingInner hm))
  | scope _ _ ih => exact .scoping hm hb (ih (Nat.le_succ_of_le hb))
  | @branch Γ Γ1 Γ2 _ c _ _ _ _ ht hl _ hs hr _ htest _ hout _ _ ihs ihr ihb ihf =>
    have ha := hs.alike.trans hr.alike
    have hb1 : Γ1.boundary ≤ Γ1.frames.length := by
      rw [hs.alike.boundary, hs.alike.length_frames]
      exact hb
    have hb2 : Γ2.boundary ≤ Γ2.frames.length := by
      rw [ha.boundary, ha.length_frames]
      exact hb
    exact .branch ht hl (ihs hb) ((ihr hb1).alike hs.alike)
      (fun e he => ((htest e he).clean hm hb2).alike ha) (fun e he => (ihb e he hb2).alike ha)
      (fun e he => (hout e he).2.2) fun b hb => (ihf b hb hb2).alike ha
  | loop hl _ hs hr hc _ _ htest _ _ _ _ ihb ihu =>
    exact .loop hl hs hr hc (htest.clean hm hb) ((ihb hb).congr rfl rfl rfl)
      ((ihu hb).congr rfl rfl rfl)
  | @tryCatch _ _ _ _ _ _ _ dep _ _ _ _ _ ht _ _ _ _ htry _ _ _ _ _ hbody _ _ _ _ _ ihb ihc ihl =>
    refine .tryCatch ht htry (ihb (Nat.le_refl _)) (fun e he => (?_ : Clean _ _ _ (dep e) _))
      fun b hb => ihl b hb (Nat.le_refl _)
    rw [hbody e he]
    refine .scoping hm (Nat.le_refl _) (.append ?_ ((ihc e he ?_).alike .own))
    · refine .append (l := [_]) (.moves rfl) (.append (l := [_]) (.moves rfl) (.register hm ?_))
      exact List.mem_cons_self
    · rw [Context.length_frames_own]
      exact Nat.le_succ _

/-! ### Operations -/

/-- An exception that nothing caught unwinds what is open. -/
theorem leads_ending (h : ScopesAfter { params := params } true c m)
    (hp : ∀ m', m'.scopes = [] → post () m') :
    Leads (Fault.Excused cfg) (ending exitScope c) m post := by
  cases c with
  | next => cases h.2.1
  | ret v => exact hp m h.2.2
  | jump l => exact absurd h.2 id
  | throw e =>
    obtain ⟨-, extra, hi⟩ := h
    have hopen : openIds m = extra ++ [] := hi
    exact leads_unwind hopen fun m' hi' _ => hp m' (List.map_eq_nil_iff.1 hi')

/-- Run the only block of an operation. -/
theorem leads_runBlocks {E : Fault → Prop} {entry : String} {n : Nat}
    {step : Instr → Exec σ Control} {post : Control → Machine σ → Prop}
    (h : Leads E (runAll (l.map step)) m fun c m' => m'.handlers = [] ∧
      match c with
      | .next => post (.ret none) m'
      | .jump _ => False
      | c => post c m') :
    Leads E (runBlocks step (singleBlock entry l) n 0) m post := by
  cases n with
  | zero => trivial
  | succ n =>
    have hblock : Leads E (runBlock step (singleBlock entry l) 0 { label := entry, instrs := l })
        m fun r m' => ∃ c, r = .inr c ∧ post c m' := by
      unfold runBlock
      rw [leads_bind]
      refine h.mono fun c m' hc => ?_
      cases c with
      | next | ret v => exact ⟨_, rfl, hc.2⟩
      | jump label => exact absurd hc.2 id
      | throw e =>
        change Leads E (get >>= fun _ => _) m' _
        rw [leads_bind, leads_get, hc.1]
        exact ⟨_, rfl, hc.2⟩
    rw [runBlocks]
    change Leads E (runBlock step (singleBlock entry l) 0 { label := entry, instrs := l } >>=
      fun r => _) m post
    rw [leads_bind]
    refine hblock.mono ?_
    rintro _ m' ⟨c, rfl, hc⟩
    exact hc

theorem clean_operationCode (hm : cfg.memory = .arc) (h : Emits π (.outermost params k) d l Γ1) :
    Clean cfg rounds { params := params } true (operationCode k d l) := by
  have hscope : Clean cfg rounds { params := params } d (scoping k d l) := by
    have hinner : Clean cfg rounds (.outermost params k) d l := h.clean hm (Nat.zero_le _)
    exact .scoping hm (Nat.zero_le _) hinner
  unfold operationCode
  cases d with
  | true =>
    rw [if_pos rfl, List.append_nil]
    exact hscope
  | false => exact hscope.append (.leavingAll hm rfl)

theorem result_error {memory : MemoryModel} {f : Fault} (he : m.result memory c = .error f) :
    f.isHeap = true := by
  unfold Machine.result at he
  cases c with
  | next | jump l => cases he
  | ret v =>
    cases v with
    | none => cases he
    | some b =>
      cases hv : m.valueOf b with
      | ok v =>
        simp only [hv] at he
        cases he
      | error f' =>
        simp only [hv] at he
        cases he
        exact Machine.valueOf_error hv
  | throw b =>
    cases hv : m.valueOf b with
    | ok v =>
      simp only [hv] at he
      cases he
    | error f' =>
      simp only [hv] at he
      cases he
      exact Machine.valueOf_error hv

/-- Every run of a laid out operation closes the scopes it opens. -/
theorem OperationLaid.leads_scopes {op : Operation} (hop : OperationLaid π op) (rounds : Nat)
    (hm : cfg.memory = .arc) (hs : m.scopes = []) (hh : m.handlers = []) :
    Leads (Fault.Excused cfg) (runOperation cfg rounds op) m fun _ m' => m'.scopes = [] := by
  obtain ⟨entry, k, d, l, Γ, hbody, hcode, -⟩ := hop
  have hstart : Opens { params := paramNames op.params } m := ⟨by simp [openIds, hs, Context.ids], hh⟩
  rw [runOperation, runSteps_eq, leads_bind, hbody]
  refine leads_runBlocks ((clean_operationCode hm hcode false m hstart).mono fun c m1 h1 => ?_)
  refine ⟨h1.1, ?_⟩
  have hend : ∀ c, ScopesAfter { params := paramNames op.params } true c m1 →
      Leads (Fault.Excused cfg) (ending exitScope c >>= fun _ => get >>= fun m =>
        ofExcept (m.result cfg.memory c)) m1 fun _ m' => m'.scopes = [] := by
    intro c hc
    rw [leads_bind]
    refine leads_ending hc fun m2 hs2 => ?_
    rw [leads_bind, leads_get, leads_ofExcept]
    cases hr : m2.result cfg.memory c with
    | ok r => exact hs2
    | error f =>
      intro hf
      rw [Fault.isScope_of_isHeap (result_error hr)] at hf
      cases hf
  cases c with
  | next => cases h1.2.1
  | jump label => exact h1.2
  | throw e | ret v => exact hend _ h1

end Layout

/-- No run of an operation of a lowered module goes wrong about scopes, whatever its handler of calls
answers, unless the handler itself fails so. When it ends, no scope is left open. -/
theorem scopes_eq_nil_of_lower (source : SourceModule) (types : TypeOracle) (debug : Bool)
    (u : CodeUnit) (h : source.lower types debug = .ok u) (op : Operation) (hop : op ∈ u.operations)
    (cfg : Config σ) (hm : cfg.memory = .arc) (args : List Value) (calls : σ) :
    (∀ f, (op.run cfg args calls).1 = .error (.fault f) → f.Excused cfg) ∧
      ∀ r m, Exec.runOperation cfg (op.enoughRounds cfg.maxSteps) op (Machine.start op args calls) =
        .ok r m → (op.run cfg args calls).1 = .ok r ∧ m.scopes = [] := by
  have hrun := (Layout.operationLaid_of_lower h op hop).leads_scopes
    (op.enoughRounds cfg.maxSteps) hm (Machine.start_nothingOpen op args calls).1
    (Machine.start_nothingOpen op args calls).2
  unfold Operation.run Operation.runWithin Exec.answer
  unfold Exec.Leads at hrun
  cases ho : Exec.runOperation cfg (op.enoughRounds cfg.maxSteps) op (Machine.start op args calls) with
  | ok r m =>
    rw [ho] at hrun
    refine ⟨fun f hf => (by cases hf), ?_⟩
    rintro r' m' ⟨⟩
    exact ⟨rfl, hrun⟩
  | error halt m =>
    rw [ho] at hrun
    refine ⟨?_, fun r m h => (by cases h)⟩
    rintro f ⟨⟩
    exact hrun

/-- A function whose callee throws while an object is registered to the scope. -/
def callInScope : SourceModule :=
  { name := "sample"
    constructs := [.function
      { name := "run"
        returnType := TypeName.void
        body := [.declare none "kept" TypeName.string (some (.ofString "kept")),
          .expr none (.ofCall none (.function "sample::risky" TypeName.void) [])] }] }

/-- A handler that throws from every call. -/
def thrower : Config Unit :=
  { maxSteps := 20
    handler := fun _ receiver _ s => (.ok ⟨.throw (.string "stop"), receiver⟩, s) }

theorem scopes_eq_nil_callInScope :
    ∃ u op r m, callInScope.lower (fun _ _ => false) false = .ok u ∧ op ∈ u.operations ∧
      Exec.runOperation thrower (op.enoughRounds thrower.maxSteps) op (Machine.start op [] ()) =
        .ok r m ∧ m.scopes = [] := by
  have hok : ((callInScope.lower (fun _ _ => false) false).toOption.bind fun u =>
      u.operations.head?.bind fun op => (op.run thrower [] ()).1.toOption).isSome = true := by
    decide +kernel
  obtain ⟨r, hr⟩ := Option.isSome_iff_exists.1 hok
  obtain ⟨u, hu, hr⟩ := Option.bind_eq_some_iff.1 hr
  obtain ⟨op, ho, hr⟩ := Option.bind_eq_some_iff.1 hr
  have hu := toOption_eq_some hu
  have hop : op ∈ u.operations := List.mem_of_mem_head? ho
  have hscopes := scopes_eq_nil_of_lower callInScope (fun _ _ => false) false u hu op hop thrower
    rfl [] ()
  obtain ⟨m, hm, -⟩ := Exec.answer_eq_ok
    (show op.run thrower [] () = (.ok r, _) from Prod.ext (toOption_eq_some hr) rfl)
  exact ⟨u, op, r, m, hu, hop, hm, (hscopes.2 r m hm).2⟩

end ScopedIR
