import ScopedIR.Proofs.BoundTemporaries

/-!
# An expression owns what it creates

The code of an expression registers the objects it makes to the scope it is generated in, and leaves
everything else alone: it binds no name but its temporaries, opens and closes no scope, and keeps the
counts of the objects it finds. Parts that may not run register to the same scope, so what is
registered depends on the run, and still every new object is counted once for each registration.

Main definitions:

* `Exec.Adds`: what one state adds to another;
* `Layout.Owns`: code whose runs add to the innermost scope alone.

Main statements: `Layout.Calc.owns`, by induction on the code of an expression, and
`lower_owns_created`, about every expression.
-/

namespace ScopedIR

variable {σ : Type}

/-- How many of the names are bound to an object. -/
def Machine.bearers (m : Machine σ) (names : List String) (id : ObjectId) : Nat :=
  names.countP fun x => m.vars.get? x = some (.object id)

theorem Heap.get?_modify_eq_map (h : Heap) (id a : ObjectId) (f : HeapObject → HeapObject) :
    (h.modify id f).get? a = (h.get? a).map fun o => if id = a then f o else o := by
  rw [get?_modify]
  split <;> simp [*]

/-- Retaining an object off the stack counts one more reference to it. -/
theorem Heap.get?_retain {h : Heap} {id : ObjectId} {o : HeapObject} (ho : h.get? id = some o)
    (hstack : o.onStack = false) (hok : (h.retain id).1 = .ok ()) (a : ObjectId) :
    (h.retain id).2.get? a =
      (h.get? a).map fun o => if id = a then { o with refcount := o.refcount + 1 } else o := by
  unfold retain updateLive at hok ⊢
  cases hl : h.live id with
  | error f =>
    rw [hl] at hok
    cases hok
  | ok _ =>
    rw [Heap.get?_modify_eq_map]
    by_cases ha : id = a
    · subst ha
      simp [ho, hstack]
    · simp [ha]

namespace Exec

/-- From `m` to `m'` names of `W` alone were bound, `new` was registered to the innermost scope, and
older objects kept their counts. A newer one is counted once for each of `new` that is bound to it. -/
structure Adds (W new : List String) (m m' : Machine σ) : Prop where
  vars : ∀ x, x ∉ W → m'.vars.get? x = m.vars.get? x
  scopes : ∀ s outer, m.scopes = s :: outer →
    m'.scopes = { s with registered := new ++ s.registered } :: outer
  kept : ∀ id o, m.heap.get? id = some o →
    ∃ o', m'.heap.get? id = some o' ∧ o'.refcount = o.refcount ∧ o'.freed = o.freed
  made : ∀ id o, m.heap.get? id = none → m'.heap.get? id = some o → o.refcount = m'.bearers new id
  fresh : ∀ x ∈ new, x ∈ W ∧ ∀ id, m'.vars.get? x = some (.object id) →
    m.heap.get? id = none ∧ m'.heap.get? id ≠ none

/-- The scope `k` is the innermost one. -/
def Innermost (k : String) (m : Machine σ) : Prop := ∃ s outer, m.scopes = s :: outer ∧ s.id = k

variable {W W' new new' : List String} {m m1 m2 : Machine σ} {k t x : String} {b : Binding}

namespace Adds

theorem innermost (h : Adds W new m m1) (hm : Innermost k m) : Innermost k m1 := by
  obtain ⟨s, outer, hs, hk⟩ := hm
  exact ⟨_, outer, h.scopes s outer hs, hk⟩

theorem notMade (h : Adds W new m m1) {id : ObjectId} (hid : m1.heap.get? id = none) :
    m.heap.get? id = none := by
  cases ho : m.heap.get? id with
  | none => rfl
  | some o =>
    obtain ⟨o', ho', -⟩ := h.kept id o ho
    rw [hid] at ho'
    cases ho'

/-- What is added without registering anything. -/
theorem quiet (hv : ∀ x, x ∉ W → m1.vars.get? x = m.vars.get? x) (hs : m1.scopes = m.scopes)
    (hk : ∀ id o, m.heap.get? id = some o →
      ∃ o', m1.heap.get? id = some o' ∧ o'.refcount = o.refcount ∧ o'.freed = o.freed)
    (hm : ∀ id o, m.heap.get? id = none → m1.heap.get? id = some o → o.refcount = 0) :
    Adds W [] m m1 :=
  ⟨hv, fun _ _ h => hs.trans h, hk, hm, by simp⟩

/-- What leaves the heap alone. -/
theorem sameHeap (hv : ∀ x, x ∉ W → m1.vars.get? x = m.vars.get? x) (hs : m1.scopes = m.scopes)
    (hh : m1.heap = m.heap) : Adds W [] m m1 := by
  refine quiet hv hs (fun id o ho => ⟨o, hh ▸ ho, rfl, rfl⟩) fun id o hnone ho => ?_
  rw [hh, hnone] at ho
  cases ho

theorem refl (m : Machine σ) : Adds W [] m m := sameHeap (fun _ _ => rfl) rfl rfl

/-- The second part binds no name that the first one registered. -/
theorem trans (h : Adds W new m m1) (h' : Adds W' new' m1 m2) (hd : ∀ x ∈ new, x ∉ W')
    (hW : W' ⊆ W) : Adds W (new' ++ new) m m2 := by
  have hsame : ∀ id, m2.bearers new id = m1.bearers new id := fun id =>
    List.countP_congr fun x hx => by rw [h'.vars x (hd x hx)]
  have hzero : ∀ {names : List String} {id : ObjectId} {m : Machine σ},
      (∀ x ∈ names, m.vars.get? x ≠ some (.object id)) → m.bearers names id = 0 := fun hne =>
    List.countP_eq_zero.2 fun x hx => by simpa using hne x hx
  refine ⟨fun x hx => ?_, fun s outer hs => ?_, fun id o ho => ?_, fun id o hnone ho => ?_,
    fun x hx => ?_⟩
  · rw [h'.vars x fun hx' => hx (hW hx'), h.vars x hx]
  · rw [h'.scopes _ _ (h.scopes s outer hs), List.append_assoc]
  · obtain ⟨o1, ho1, hr1, hf1⟩ := h.kept id o ho
    obtain ⟨o2, ho2, hr2, hf2⟩ := h'.kept id o1 ho1
    exact ⟨o2, ho2, hr2.trans hr1, hf2.trans hf1⟩
  · have hsplit : m2.bearers (new' ++ new) id = m2.bearers new' id + m1.bearers new id := by
      rw [← hsame]
      exact List.countP_append
    rw [hsplit]
    cases ho1 : m1.heap.get? id with
    | none =>
      rw [h'.made id o ho1 ho, hzero (m := m1) fun x hx hb => ((h.fresh x hx).2 id hb).2 ho1]
      rfl
    | some o1 =>
      obtain ⟨o2, ho2, hr, -⟩ := h'.kept id o1 ho1
      rw [ho] at ho2
      cases ho2
      have hnew : ∀ x ∈ new', m2.vars.get? x ≠ some (.object id) := fun x hx hb => by
        rw [((h'.fresh x hx).2 id hb).1] at ho1
        cases ho1
      rw [hr, h.made id o1 hnone ho1, hzero hnew, Nat.zero_add]
  · rcases List.mem_append.1 hx with hx | hx
    · obtain ⟨hxW, hb⟩ := h'.fresh x hx
      exact ⟨hW hxW, fun id hid => ⟨h.notMade (hb id hid).1, (hb id hid).2⟩⟩
    · obtain ⟨hxW, hb⟩ := h.fresh x hx
      refine ⟨hxW, fun id hid => ?_⟩
      obtain ⟨hnone, hsome⟩ := hb id ((h'.vars x (hd x hx)).symm.trans hid)
      exact ⟨hnone, fun h2 => hsome (h'.notMade h2)⟩

theorem mono (h : Adds W new m m1) (hW : W ⊆ W') : Adds W' new m m1 :=
  ⟨fun x hx => h.vars x fun h => hx (hW h), h.scopes, h.kept, h.made,
    fun x hx => ⟨hW (h.fresh x hx).1, (h.fresh x hx).2⟩⟩

theorem binding (m : Machine σ) (t : String) (b : Binding) :
    Adds [t] [] m { m with vars := m.vars.insert t b } :=
  sameHeap (fun x hx => FinMap.get?_insert_ne _ (fun h => hx (by simp [h])) b) rfl rfl

theorem ticked (h : Adds W new m m1) : Adds W new m (Exec.ticked m1) :=
  ⟨h.vars, h.scopes, h.kept, h.made, h.fresh⟩

/-- A name that is not registered is bound last. -/
theorem bind (h : Adds W new m m1) (ht : t ∈ W) (hn : t ∉ new) (b : Binding) :
    Adds W new m (bound m1 (some t) b) :=
  h.trans (binding m1 t b) (fun x hx hxt => hn (List.mem_singleton.1 hxt ▸ hx)) (by simpa using ht)

theorem alloc (m : Machine σ) (v : Value) : Adds W [] m { m with heap := m.heap.alloc v false } := by
  refine quiet (fun _ _ => rfl) rfl (fun id o ho => ⟨o, Heap.get?_add_of_some ho, rfl, rfl⟩)
    fun id o hnone ho => ?_
  change (m.heap.add _).get? id = some o at ho
  rw [Heap.get?_add] at ho
  split at ho
  · cases ho
    rfl
  · rw [hnone] at ho
    cases ho

theorem setValue (m : Machine σ) (id : ObjectId) (v : Value) :
    Adds W [] m { m with heap := (m.heap.setValue id v).2 } := by
  unfold Heap.setValue Heap.updateLive
  cases m.heap.live id with
  | error f => exact refl m
  | ok o =>
    have hget := fun a => Heap.get?_modify_eq_map m.heap id a fun o => { o with value := v }
    refine quiet (fun _ _ => rfl) rfl (fun a o ho => ?_) fun a o hnone ho => ?_
    · refine ⟨_, (hget a).trans (congrArg _ ho), ?_⟩
      split <;> exact ⟨rfl, rfl⟩
    · cases ((hget a).trans (congrArg _ hnone)).symm.trans ho

end Adds

instance : Bounds (fun _ => True) (Adds (σ := σ) W []) where
  refl := .refl
  trans h h' := h.trans h' (by simp) (List.Subset.refl _)
  fault _ := trivial

theorem Confined.leads {α : Type} {R : Machine σ → Machine σ → Prop} {P : α → Prop} {a : Exec σ α}
    (h : Confined (fun _ => True) R P a) (m : Machine σ) :
    Leads (fun _ => True) a m fun x m' => P x ∧ R m m' := by
  have hm := h m
  unfold Leads
  cases ha : a m with
  | ok x m' =>
    rw [ha] at hm
    exact hm
  | error halt m' => cases halt <;> trivial

/-! ### Objects that wait for their registration -/

/-- The name is bound, and if it is bound to an object, to a new one off the stack. -/
def Awaits (t : String) (m m' : Machine σ) : Prop :=
  ∃ b, m'.vars.get? t = some b ∧ ∀ id, b = .object id →
    m.heap.get? id = none ∧ ∃ o, m'.heap.get? id = some o ∧ o.onStack = false

theorem awaits_alloc (h : Adds W [] m m1) (v : Value) :
    Awaits t m { m1 with
      heap := m1.heap.alloc v false
      vars := m1.vars.insert t (.object m1.heap.next) } := by
  refine ⟨_, FinMap.get?_insert_self _ _ _, ?_⟩
  rintro _ ⟨⟩
  exact ⟨h.notMade (Heap.get?_next _), _, (Heap.get?_add ..).trans (if_pos rfl), rfl⟩

variable {cfg : Config σ} {rounds : Nat} {location : Option Location} {opcode : Opcode}
  {result : Option String} {site : CallSite} {p : Payload (Exec σ Control)} {inner : Bool}

/-- A call that goes on binds its result. -/
theorem leads_call_adds (hanswers : cfg.Answers) (hr : result.isSome = true → site.hasResult = true) :
    Leads (fun _ => True) (call cfg (Instr.calling location opcode result site) site) m fun c m' =>
      c = .next → Adds result.toList [] m m' ∧ ∀ t ∈ result, Awaits t m m' := by
  rw [call_eq, leads_bind]
  refine ((Confined.receiver (R := Adds [] []) _ _).leads m).mono fun target m1 h1 => ?_
  rw [leads_bind]
  refine ((Confined.arguments (R := Adds [] []) _ _).leads m1).mono fun args m2 h2 => ?_
  rw [leads_bind]
  refine ((Confined.ask (R := Adds [] []) (fun _ _ => trivial)
    (fun m calls => .sameHeap (fun _ _ => rfl) rfl rfl) site target.1 args).leads m2).mono
      fun reply m3 h3 => ?_
  rw [leads_bind]
  refine ((Confined.updating (R := Adds [] []) Adds.setValue _ _).leads m3).mono fun _ m4 h4 => ?_
  have h : Adds [] [] m m4 := ((h1.2.trans h2.2 (by simp) (by simp)).trans h3.2 (by simp)
    (by simp)).trans h4.2 (by simp) (by simp)
  change Leads _ (concluding result reply.outcome) m4 _
  cases ho : reply.outcome with
  | void =>
    intro _
    cases result with
    | none => exact ⟨h, by simp⟩
    | some t =>
      obtain ⟨calls, hreply⟩ := h3.1
      exact absurd ho (hanswers _ _ _ calls reply _ (Prod.ext hreply rfl) (hr rfl))
  | object v =>
    change Leads _ (allocate _ >>= fun _ => bindResult _ _ >>= fun _ => _) m4 _
    rw [leads_bind, leads_allocate, leads_bind, leads_bindResult]
    intro _
    have hw := h.trans (Adds.alloc (W := []) m4 v) (by simp) (by simp)
    cases result with
    | none => exact ⟨hw, by simp⟩
    | some t =>
      refine ⟨(hw.mono (by simp)).bind List.mem_cons_self (by simp) _, ?_⟩
      rintro _ ⟨⟩
      exact awaits_alloc h v
  | primitive b =>
    change Leads _ (bindResult _ _ >>= fun _ => _) m4 _
    rw [leads_bind, leads_bindResult]
    intro _
    cases result with
    | none => exact ⟨h, by simp⟩
    | some t =>
      refine ⟨(h.mono (by simp)).bind List.mem_cons_self (by simp) _, ?_⟩
      rintro _ ⟨⟩
      exact ⟨_, FinMap.get?_insert_self _ _ _, nofun⟩
  | throw v => exact fun hc => nomatch hc

/-- The object that waits is retained, and its name is registered. -/
theorem Adds.register {heap : Heap} {s : OpenScope} {outer : List OpenScope} (h : Adds [t] [] m m1)
    (hb : m1.vars.get? t = some b)
    (hnew : ∀ id, b = .object id → m.heap.get? id = none ∧ m1.heap.get? id ≠ none)
    (hheap : ∀ id, heap.get? id = (m1.heap.get? id).map fun o =>
      if b = .object id then { o with refcount := o.refcount + 1 } else o)
    (hs : m1.scopes = s :: outer) (hvars : m2.vars = m1.vars) (hh : m2.heap = heap)
    (hscopes : m2.scopes = { s with registered := t :: s.registered } :: outer) :
    Adds [t] [t] m m2 := by
  refine ⟨fun x hx => hvars ▸ h.vars x hx, fun s0 outer0 hs0 => ?_, fun id o ho => ?_,
    fun id o hnone ho => ?_, fun x hx => ?_⟩
  · rw [h.scopes s0 outer0 hs0] at hs
    cases hs
    exact hscopes
  · obtain ⟨o', ho', hkept⟩ := h.kept id o ho
    have hne : b ≠ .object id := fun he => by
      rw [(hnew id he).1] at ho
      cases ho
    exact ⟨o', by rw [hh, hheap, ho', Option.map_some, if_neg hne], hkept⟩
  · rw [hh, hheap] at ho
    obtain ⟨o', ho', rfl⟩ := Option.map_eq_some_iff.1 ho
    have hzero : o'.refcount = 0 := h.made id o' hnone ho'
    unfold Machine.bearers
    rw [List.countP_singleton, hvars, hb]
    by_cases he : b = .object id <;> simp [he, hzero]
  · obtain rfl := List.mem_singleton.1 hx
    refine ⟨List.mem_cons_self, fun id hid => ?_⟩
    rw [hvars, hb] at hid
    obtain ⟨hnone, hsome⟩ := hnew id (Option.some.inj hid)
    exact ⟨hnone, by rwa [hh, hheap, Ne, Option.map_eq_none_iff]⟩

/-- Some registrations are added, of names among `W`. -/
def Gains (W : List String) (m m' : Machine σ) : Prop := ∃ new, Adds W new m m'

namespace Gains

theorem innermost (h : Gains W m m1) (hm : Innermost k m) : Innermost k m1 :=
  h.elim fun _ h => h.innermost hm

theorem mono (h : Gains W m m1) (hW : W ⊆ W') : Gains W' m m1 := h.imp fun _ h => h.mono hW

theorem of_ticked (h : Gains W (ticked m) m1) : Gains W m m1 :=
  h.imp fun _ h => ⟨h.vars, h.scopes, h.kept, h.made, h.fresh⟩

theorem append (h : Gains W m m1) (h' : Gains W' m1 m2) (hd : W.Disjoint W') :
    Gains (W ++ W') m m2 := by
  obtain ⟨new, h⟩ := h
  obtain ⟨new', h'⟩ := h'
  exact ⟨_, (h.mono (by simp)).trans h' (fun x hx => hd (h.fresh x hx).1) (by simp)⟩

theorem bind (h : Gains W m m1) (ht : t ∉ W) (b : Binding) :
    Gains (t :: W) m (bound m1 (some t) b) := by
  obtain ⟨new, h⟩ := h
  exact ⟨new, (h.mono (by simp)).bind List.mem_cons_self (fun hn => ht (h.fresh t hn).1) b⟩

end Gains

theorem gives_of_forall {α : Type} {e : Except Fault α} {post : α → Prop} (h : ∀ x, post x) :
    Gives (fun _ => True) e post := by
  cases e with
  | ok x => exact h x
  | error f => trivial

theorem leads_primitive_of_forall {post : Bool → Machine σ → Prop} (h : ∀ v, post v m) :
    Leads (fun _ => True) (primitive x) m post := by
  refine leads_primitive.2 (gives_of_forall fun b => ?_)
  cases b with
  | primitive v => exact h v
  | null | object id => trivial

/-- Go on where control goes on. -/
theorem Leads.onward {a : Exec σ Control} {P onward Q : Machine σ → Prop}
    (h : Leads (fun _ => True) a m fun c m' => c = .next → P m') (hp : ∀ m', P m' → onward m') :
    Leads (fun _ => True) a m fun c m' => Through c (onward m') (c = .next → Q m') :=
  h.through (fun m' hm => hp m' (hm rfl)) fun _ _ hc _ hn => absurd hn hc

theorem leads_registering (harc : cfg.memory = .arc) (h : Adds [t] [] m m1) (ha : Awaits t m m1)
    (hk : Innermost k m1) :
    Leads (fun _ => True)
      (runAll ((Layout.registering location t k).map (Instr.stepped cfg rounds inner))) m1
      fun c m' => c = .next → Gains [t] m m' := by
  obtain ⟨b, hb, hnew⟩ := ha
  obtain ⟨s, outer, hs, hid⟩ := hk
  have hregister : ∀ m2 : Machine σ, m2.vars = m1.vars → m2.scopes = s :: outer →
      (∀ id, m2.heap.get? id = (m1.heap.get? id).map fun o =>
        if b = .object id then { o with refcount := o.refcount + 1 } else o) →
      Leads (fun _ => True) (runAll [(Instr.simple location .scopeRegister [t, k] none).stepped cfg
        rounds inner]) m2 fun c m' => c = .next → Gains [t] m m' := by
    intro m2 hvars hscopes hheap
    rw [leads_runAll_single]
    refine Instr.leads_stepped trivial (fun _ => trivial) ((leads_scopeRegister harc).2 ?_)
    rw [show (ticked m2).scopes = s :: outer from hscopes, Machine.registerIn, if_pos hid]
    refine fun _ => ⟨[t], h.register hb (fun id he => ?_) hheap hs hvars rfl rfl⟩
    obtain ⟨hnone, o, ho, -⟩ := hnew id he
    exact ⟨hnone, by simp [ho]⟩
  change Leads _ (runAll (_ :: [_])) _ _
  rw [leads_runAll_cons]
  refine Instr.leads_stepped trivial (fun _ => trivial) ((leads_retain harc).2 ?_)
  rw [Layout.lookup_eq_ok (show (ticked m1).vars.get? t = some b from hb)]
  cases b with
  | null | primitive v => exact hregister _ rfl hs fun id => by simp [ticked]
  | object id =>
    obtain ⟨-, o, ho, hstack⟩ := hnew id rfl
    change Gives _ (m1.heap.retain id).1 _
    cases hr : (m1.heap.retain id).1 with
    | error f => trivial
    | ok _ =>
      refine hregister _ rfl hs fun a => ?_
      simpa [ticked] using Heap.get?_retain ho hstack hr a

end Exec

/-! ### The code of an expression -/

namespace Layout

open Exec Instr

variable {cfg : Config σ} {rounds : Nat} {π : Policy} {B : List String} {Γ Γ1 : Context}
  {k t : String} {l r : List Instr} {i : Instr} {location : Option Location}

/-- Code that goes on to its end adds to the innermost scope `k` and to the names it binds alone. -/
def Owns (cfg : Config σ) (rounds : Nat) (k : String) (l : List Instr) : Prop :=
  ∀ inner m, Innermost k m → Leads (fun _ => True) (runAll (l.map (Instr.stepped cfg rounds inner))) m
    fun c m' => c = .next → Gains (binds l) m m'

namespace Owns

theorem append (h : Owns cfg rounds k l) (h' : Owns cfg rounds k r) (hn : (binds (l ++ r)).Nodup) :
    Owns cfg rounds k (l ++ r) := by
  intro inner m hm
  rw [binds_append] at hn ⊢
  rw [List.map_append, leads_runAll_append]
  refine (h inner m hm).onward fun m1 h1 => ?_
  refine (h' inner m1 (h1.innermost hm)).mono fun c m2 h2 hc => ?_
  exact h1.append (h2 hc) (List.disjoint_of_nodup_append hn)

theorem single (h : ∀ m, Innermost k m → Leads (fun _ => True)
      (perform exitScope cfg rounds i (i.payload.map (stepped cfg rounds true))) m
      fun c m' => c = .next → Gains (binds [i]) m m') : Owns cfg rounds k [i] := by
  intro inner m hm
  rw [List.map_singleton, leads_runAll_single]
  refine leads_stepped trivial (fun _ => trivial) ?_
  exact (h (ticked m) hm).mono fun c m' hc hn => (hc hn).of_ticked

/-- An instruction whose result the scope is to own. -/
theorem registered (harc : cfg.memory = .arc) (hi : binds [i] = [t]) (h : ∀ m, Leads (fun _ => True)
      (perform exitScope cfg rounds i (i.payload.map (stepped cfg rounds true))) m
      fun c m' => c = .next → Adds [t] [] m m' ∧ Awaits t m m') :
    Owns cfg rounds k ([i] ++ registering location t k) := by
  intro inner m hm
  have hbinds : binds ([i] ++ registering location t k) = [t] := by
    rw [binds_append, hi]
    rfl
  rw [hbinds, List.map_append, leads_runAll_append, List.map_singleton, leads_runAll_single]
  refine leads_stepped trivial (fun _ => trivial) ?_
  refine (h (ticked m)).onward fun m1 h1 => ?_
  exact (leads_registering harc h1.1 h1.2 (h1.1.innermost hm)).mono fun c m' hc hn => (hc hn).of_ticked

theorem load {x : String} : Owns cfg rounds k [simple location .load [x] (some t)] :=
  .single fun m _ => leads_load.2 (gives_of_forall fun b _ => ⟨[], .binding m t b⟩)

theorem call {opcode : Opcode} {result : Option String} {site : CallSite} (hanswers : cfg.Answers)
    (ho : opcode.isCall = true) (hr : result.isSome = true → site.hasResult = true) :
    Owns cfg rounds k [calling location opcode result site] := by
  refine .single fun m _ => ?_
  rw [perform_calling ho]
  refine (leads_call_adds hanswers hr).mono fun c m' hc hn => ⟨[], (hc hn).1.mono ?_⟩
  simp [binds_cons]

/-- A part of a chain that gives it its result, after the test bound `n`. -/
theorem leads_value {n y : String} {V : List String} {m m1 : Machine σ} (h : Owns cfg rounds k l)
    (hl : binds l ⊆ V) (hn : n ∉ V) (ht : t ∉ n :: V) (hi : i.result = some t) (hm : Innermost k m)
    (h1 : Adds [n] [] m m1) :
    Leads (fun _ => True) (runAll (l.map (Instr.stepped cfg rounds true))) m1 fun c m2 =>
      Through c (Leads (fun _ => True) (finishChain i none (some y)) m2
        fun c m' => c = .next → Gains (t :: n :: V) m m') (c = .next → Gains (t :: n :: V) m m2) := by
  refine (h true m1 (h1.innermost hm)).onward fun m2 h2 => ?_
  refine leads_finishChain_value.2 (gives_of_forall fun b _ => ?_)
  have hgains : Gains ([n] ++ binds l) m m2 :=
    Gains.append ⟨[], h1⟩ h2 (List.singleton_disjoint.2 fun h => hn (hl h))
  rw [hi]
  exact (hgains.mono (List.cons_subset_cons n hl)).bind ht b

/-- Whichever of the two parts runs, what it makes belongs to the scope. -/
theorem question {n x f v : String} {nullBody setBody : List Instr}
    (hnull : (binds nullBody).Nodup → Owns cfg rounds k nullBody)
    (hset : (binds setBody).Nodup → Owns cfg rounds k setBody)
    (hn : (binds [chained location (question k t n x nullBody f setBody v)]).Nodup) :
    Owns cfg rounds k [chained location (Layout.question k t n x nullBody f setBody v)] := by
  refine .single fun m hm => ?_
  rw [binds_question] at hn ⊢
  obtain ⟨ht, hn⟩ := List.nodup_cons.1 hn
  obtain ⟨hn, hbodies⟩ := List.nodup_cons.1 hn
  change Leads _ (runChain exitScope rounds _ ((Layout.question _ _ _ _ _ _ _ _).map _)) _ _
  refine leads_branch (P := Adds [n] [] m) (J := Adds [n] [] m) (by simp [Layout.question, Chain.map])
    rfl (.refl m) (fun _ h => h) ?_ ?_ ?_ ?_
  · intro e he m1 h1
    obtain rfl := List.mem_singleton.1 he
    refine leads_runAll_single.2 (leads_stepped trivial (fun _ => trivial) ?_)
    refine leads_isNull.2 (gives_of_forall fun b => leads_primitive_of_forall fun _ => ?_)
    exact h1.ticked.bind List.mem_cons_self (by simp) _
  · intro e he m1 h1
    obtain rfl := List.mem_singleton.1 he
    exact leads_andThen_nil
      ((hnull hbodies.of_append_left).leads_value (by simp) hn ht rfl hm h1)
  · rintro b ⟨⟩ m1 h1
    exact (hset hbodies.of_append_right).leads_value (by simp) hn ht rfl hm h1
  · rintro ⟨⟩

/-- The right part belongs to the scope if it runs. -/
theorem logical {b : LogicalBlock Instr}
    (hl : (binds b.leftEvaluation).Nodup → Owns cfg rounds k b.leftEvaluation)
    (hr : (binds b.rightEvaluation).Nodup → Owns cfg rounds k b.rightEvaluation)
    (hc : (binds b.computation).Nodup → Owns cfg rounds k b.computation)
    (hn : (binds [logicalBlock location t b]).Nodup) :
    Owns cfg rounds k [logicalBlock location t b] := by
  refine .single fun m hm => ?_
  rw [binds_logicalBlock, binds_append, binds_append] at hn ⊢
  obtain ⟨ht, hn⟩ := List.nodup_cons.1 hn
  have hn' := hn.of_append_left
  change Leads _ (perform exitScope cfg rounds (logicalBlock location t b) (.logical (b.map _))) _ _
  rw [perform_logicalBlock]
  refine leads_runLogical ((hl hn'.of_append_left true m hm).onward fun m1 h1 => ?_)
  refine leads_primitive_of_forall fun holds => ?_
  split
  · exact gives_of_forall fun v _ => (h1.mono (by simp)).bind ht v
  · have hm1 := h1.innermost hm
    refine (hr hn'.of_append_right true m1 hm1).onward fun m2 h2 => ?_
    refine (hc hn.of_append_right true m2 (h2.innermost hm1)).onward fun m3 h3 => ?_
    refine gives_of_forall fun v _ => Gains.bind ?_ ht v
    exact (h1.append h2 (List.disjoint_of_nodup_append hn')).append h3 (List.disjoint_of_nodup_append hn)

end Owns

/-- The code of an expression adds to the scope it is generated in. -/
theorem Calc.owns (harc : cfg.memory = .arc) (hanswers : cfg.Answers) (h : Calc π B k Γ l Γ1)
    (hn : (binds l).Nodup) : Owns cfg rounds k l := by
  induction h with
  | nil => exact fun _ m _ _ => ⟨[], .refl m⟩
  | append _ _ ih ih' =>
    have hn' := hn
    rw [binds_append] at hn'
    exact (ih hn'.of_append_left).append (ih' hn'.of_append_right) hn
  | create _ _ ho =>
    refine .registered harc rfl fun m => leads_create ho (fun _ _ => trivial) fun v _ => ?_
    exact ⟨.bind (.alloc m v) List.mem_cons_self (by simp) _, awaits_alloc (.refl (W := []) m) v⟩
  | load | loadField => exact .load
  | call _ _ ho hr =>
    refine .registered harc rfl fun m => ?_
    rw [perform_calling ho]
    exact (leads_call_adds hanswers fun _ => hr).mono fun c m' hc hn => (hc hn).imp id (· _ rfl)
  | perform ho => exact .call hanswers ho nofun
  | test _ hr => exact .call hanswers rfl fun _ => hr
  | isSet _ _ _ _ _ _ _ ih ih' => exact .question ih ih' hn
  | logical _ _ _ _ _ _ _ ihl ihr ihc => exact .logical ihl ihr ihc hn

end Layout

/-- An expression owns what it creates. When its code goes on to its end, no binding has changed but
those of the temporaries drawn for it, and no scope but the innermost one, to which names were
registered. Older objects keep their counts, and a newer one has as many references as registered
names that are bound to it. -/
theorem lower_owns_created (e : Expr) (setting : Lowering.Setting) (s : Lowering.State) (k : String)
    (hscope : s.currentScope = .ok k) (r : Lowering.Generated (Option String))
    (hgen : e.lower.gen.run setting s = .ok r) (cfg : Config σ) (harc : cfg.memory = .arc)
    (hanswers : cfg.Answers) (rounds : Nat) (inner : Bool) (m m' : Machine σ) (frame : OpenScope)
    (outer : List OpenScope) (hm : m.scopes = frame :: outer) (hk : frame.id = k)
    (hrun : Exec.runAll (r.instrs.map (Instr.stepped cfg rounds inner)) m = .ok .next m') :
    ∃ new : List String,
      m'.scopes = { frame with registered := new ++ frame.registered } :: outer ∧
      (∀ x, (∀ n, s.temps < n → n ≤ r.state.temps → x ≠ numbered "_temp" n) →
        m'.vars.get? x = m.vars.get? x) ∧
      (∀ id o, m.heap.get? id = some o →
        ∃ o', m'.heap.get? id = some o' ∧ o'.refcount = o.refcount ∧ o'.freed = o.freed) ∧
      ∀ id o, m.heap.get? id = none → m'.heap.get? id = some o → o.refcount = m'.bearers new id := by
  have hyields := Expr.codeYields_lower (π := ⟨False, False, False⟩) e s k hscope r hgen
  obtain ⟨Γ, hcalc, -⟩ := hyields.code { frames := [{ id := k }] } []
    (by simp [Layout.Context.reach, Layout.Context.ids])
    (fun _ _ => ⟨nofun, nofun⟩) (by simp)
  have howns : Layout.Owns cfg rounds k r.instrs := hcalc.owns harc hanswers hyields.issues.nodup
  have hleads := howns inner m ⟨frame, outer, hm, hk⟩
  unfold Exec.Leads at hleads
  rw [hrun] at hleads
  obtain ⟨new, h⟩ := hleads rfl
  refine ⟨new, h.scopes frame outer hm, fun x hx => h.vars x fun hmem => ?_, h.kept, h.made⟩
  obtain ⟨n, hlt, hle, rfl⟩ := hyields.issues.mem x hmem
  exact hx n hlt hle rfl

/-- A conjunction whose right part runs, with a null check in its left part. -/
def guardedList : Expr :=
  .ofLogical .and (.ofIsSet (.ofString "given")) (.ofItems [.ofString "kept"])

/-- A handler that answers truth tests with the truth, and every other call with a new object. -/
def obliging : Config Unit :=
  { maxSteps := 60
    handler := fun site receiver _ s =>
      (.ok ⟨if site.method = "_true" then .primitive true else .object (.string "made"), receiver⟩, s) }

theorem lower_owns_guardedList :
    ∃ r m' new, guardedList.lower.gen.run { types := fun _ _ => false }
        { scopes := [{ id := "_scope_1" }] } = .ok r ∧
      Exec.runAll (r.instrs.map (Instr.stepped obliging 0 false))
        { scopes := [{ id := "_scope_1" }], calls := () } = .ok .next m' ∧
      m'.scopes = [{ id := "_scope_1", registered := new }] ∧
      ∀ id o, m'.heap.get? id = some o → o.refcount = m'.bearers new id := by
  have hok : ((guardedList.lower.gen.run { types := fun _ _ => false }
      { scopes := [{ id := "_scope_1" }] }).toOption.bind fun r =>
        (Exec.runAll (r.instrs.map (Instr.stepped obliging 0 false))).run'
          { scopes := [{ id := "_scope_1" }], calls := () }) = some .next := by decide +kernel
  cases hgen : guardedList.lower.gen.run { types := fun _ _ => false }
      { scopes := [{ id := "_scope_1" }] } with
  | error d =>
    rw [hgen] at hok
    cases hok
  | ok r =>
    rw [hgen] at hok
    change EStateM.run' _ _ = _ at hok
    unfold EStateM.run' EStateM.run at hok
    cases hrun : Exec.runAll (r.instrs.map (Instr.stepped obliging 0 false))
        { scopes := [{ id := "_scope_1" }], calls := () } with
    | error halt m' =>
      rw [hrun] at hok
      cases hok
    | ok c m' =>
      rw [hrun] at hok
      cases hok
      obtain ⟨new, hscopes, -, -, hmade⟩ := lower_owns_created guardedList _ _ "_scope_1" rfl r hgen
        obliging rfl (by rintro site _ _ _ _ _ ⟨⟩ _; dsimp only; split <;> nofun) 0 false _ m' _ _ rfl rfl
        hrun
      exact ⟨r, m', new, rfl, hrun, by simpa using hscopes, fun id o => hmade id o rfl⟩

end ScopedIR
