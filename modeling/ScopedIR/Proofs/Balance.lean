import Mathlib.Data.List.TakeDrop
import Mathlib.Data.List.TakeWhile
import ScopedIR.Proofs.CountedHeap
import ScopedIR.Proofs.Layout
import ScopedIR.Proofs.NestedExecution

/-!
# Registered names own what they are bound to

The state of a run is balanced when every registered name is bound and holds exactly one reference
to its object, besides a list of references that something else holds: a value on its way out, an
exception that waits for a finally block. Leaving a scope then drops exactly what the scope holds.

Main definitions:

* `Balanced`: the references of a state are accounted for;
* `Inv`: a balanced state agrees with a context of the layout;
* `After`: what code of the layout leads to, by the way control leaves it.

Main statements: `Balanced.leads_exitScope` and `Balanced.leads_unwind`, that scopes can be left.
-/

namespace ScopedIR

variable {σ : Type} {cfg : Config σ} {π : Policy} {Γ Γ1 : Context} {l r : List Instr}
  {m m1 : Machine σ} {held : List ObjectId}

/-! ### The objects that names are bound to -/

/-- The objects that names are bound to, once per name. -/
def objectsOf (vars : FinMap String Binding) (names : List String) : List ObjectId :=
  names.flatMap fun x => ((vars.get? x).map Binding.objects).getD []

variable {b : Binding} {vars : FinMap String Binding} {x : String} {names : List String}
  {id : ObjectId}

theorem objectsOf_cons (names : List String) (hb : vars.get? x = some b) :
    objectsOf vars (x :: names) = b.objects ++ objectsOf vars names := by
  simp [objectsOf, hb]

theorem objectsOf_append (vars : FinMap String Binding) (l r : List String) :
    objectsOf vars (l ++ r) = objectsOf vars l ++ objectsOf vars r := by
  simp [objectsOf]

theorem objectsOf_insert (hx : x ∉ names) :
    objectsOf (vars.insert x b) names = objectsOf vars names := by
  unfold objectsOf
  refine List.flatMap_congr fun y hy => ?_
  rw [FinMap.get?_insert_ne]
  rintro rfl
  exact hx hy

theorem objectsOf_congr {vars' : FinMap String Binding}
    (h : ∀ x ∈ names, vars'.get? x = vars.get? x) :
    objectsOf vars' names = objectsOf vars names := by
  unfold objectsOf
  exact List.flatMap_congr fun x hx => by rw [h x hx]

theorem mem_objectsOf (hx : x ∈ names) (hb : vars.get? x = some (.object id)) :
    id ∈ objectsOf vars names := by
  refine List.mem_flatMap.2 ⟨x, hx, ?_⟩
  rw [hb]
  exact List.mem_singleton.2 rfl

theorem objectsOf_perm {v : FinMap String Binding} {l r : List String} (h : l.Perm r) :
    (objectsOf v l).Perm (objectsOf v r) := h.flatMap_right _

/-- The objects of names, with one name set apart. -/
theorem objectsOf_erase (hx : x ∈ names) (hb : vars.get? x = some b) :
    (objectsOf vars names).Perm (b.objects ++ objectsOf vars (names.erase x)) := by
  rw [← objectsOf_cons _ hb]
  exact objectsOf_perm (List.perm_cons_erase hx)

/-- The names registered to open scopes. -/
def Machine.registered (m : Machine σ) : List String := m.scopes.flatMap (·.registered)

theorem registered_eq {m m' : Machine σ} (h : m'.scopes = m.scopes) :
    m'.registered = m.registered := by
  unfold Machine.registered
  rw [h]

/-- A binding to an object is to a live one. -/
def Heap.Holds (h : Heap) (b : Binding) : Prop := ∀ id ∈ b.objects, h.Alive id

theorem Heap.holds_object {h : Heap} (ha : h.Alive id) : h.Holds (.object id) := by
  intro a hmem
  rw [List.mem_singleton.1 hmem]
  exact ha

/-- A name that was just bound is bound to something live. -/
theorem Heap.Holds.of_insert {h : Heap} {c : Binding} (hb : h.Holds b)
    (hc : (vars.insert x b).get? x = some c) : h.Holds c := by
  rw [FinMap.get?_insert_self] at hc
  cases hc
  exact hb

namespace Layout

open Exec Instr

/-! ### Balanced states -/

/-- Every registered name holds one reference to its object, and `held` is what else is held. The
names in `params` stand for objects of the caller. Where `flat` is set, no field was written. -/
structure Balanced (flat : Prop) (params : List String) (m : Machine σ) (held : List ObjectId) :
    Prop where
  nodup : m.registered.Nodup
  bound : ∀ x ∈ m.registered, ∃ b, m.vars.get? x = some b
  counts : m.heap.Counts (objectsOf m.vars m.registered ++ held)
  plain : ∀ x b, m.vars.get? x = some b → '.' ∉ x.toList
  handlers : m.handlers = []
  unwritten : flat → ∀ id, m.heap.fieldRefs id = 0
  caller : ∀ p ∈ params, ¬ IsTemp p ∧ p ∉ m.registered ∧
    ∀ b, m.vars.get? p = some b → ∃ id, b = .object id ∧ m.heap.External id

namespace Balanced

variable {flat : Prop} {params : List String} (h : Balanced flat params m held)

include h

theorem tick : Balanced flat params (ticked m) held :=
  { h with }

variable {held' : List ObjectId} {heap : Heap} {outer extra : List OpenScope}
  {s : OpenScope} {post : Unit → Machine σ → Prop}

/-- Only how often an object is held matters. -/
theorem perm (hp : held.Perm held') : Balanced flat params m held' :=
  { h with counts := h.counts.perm (hp.append_left _) }

/-- The heap may change as long as it is counted exactly. -/
theorem withHeap (hc : heap.Counts (objectsOf m.vars m.registered ++ held'))
    (hd : m.heap.Drops heap) :
    Balanced flat params { m with heap } held' :=
  { h with
    counts := hc
    unwritten := by
      intro hf id
      have := h.unwritten hf id
      have := hd.fieldRefs id
      change heap.fieldRefs id = 0
      omega
    caller := by
      intro p hp
      obtain ⟨ht, hr, hb⟩ := h.caller p hp
      refine ⟨ht, hr, fun b hb' => ?_⟩
      obtain ⟨id, rfl, he⟩ := hb b hb'
      exact ⟨id, rfl, hd.external id he⟩ }

/-- A name that nobody owns may be bound to anything. -/
theorem bind {x : String} {b : Binding} (hr : x ∉ m.registered) (hp : x ∉ params)
    (hd : '.' ∉ x.toList) :
    Balanced flat params { m with vars := m.vars.insert x b } held :=
  { h with
    bound := by
      intro y hy
      change ∃ c, (m.vars.insert x b).get? y = some c
      rw [FinMap.get?_insert_ne]
      · exact h.bound y hy
      · rintro rfl
        exact hr hy
    counts := by
      change m.heap.Counts (objectsOf (m.vars.insert x b) m.registered ++ held)
      rw [objectsOf_insert hr]
      exact h.counts
    plain := FinMap.forall_insert hd h.plain
    caller := by
      intro p hp'
      obtain ⟨ht, hr', hb⟩ := h.caller p hp'
      refine ⟨ht, hr', fun c hc => hb c ?_⟩
      change (m.vars.insert x b).get? p = some c at hc
      rwa [FinMap.get?_insert_ne] at hc
      rintro rfl
      exact hp hp' }

omit h in
/-- A name may be registered along with the reference it is to own. -/
theorem register {x : String} {scopes : List OpenScope}
    (h : Balanced flat params m (b.objects ++ held)) (hb : m.vars.get? x = some b)
    (hr : x ∉ m.registered) (hp : x ∉ params)
    (hs : (scopes.flatMap (·.registered)).Perm (x :: m.registered)) :
    Balanced flat params { m with scopes } held :=
  { h with
    nodup := hs.nodup_iff.2 (List.nodup_cons.2 ⟨hr, h.nodup⟩)
    bound := by
      intro y hy
      rcases List.mem_cons.1 (hs.mem_iff.1 hy) with rfl | hy
      · exact ⟨b, hb⟩
      · exact h.bound y hy
    counts := by
      refine h.counts.perm ?_
      have hnew := objectsOf_perm (v := m.vars) hs
      rw [objectsOf_cons _ hb] at hnew
      refine (List.perm_append_comm_assoc ..).trans ?_
      rw [← List.append_assoc]
      exact hnew.symm.append_right held
    caller := by
      intro p hp'
      obtain ⟨ht, hr', hb⟩ := h.caller p hp'
      refine ⟨ht, ?_, hb⟩
      intro hmem
      rcases List.mem_cons.1 (hs.mem_iff.1 hmem) with rfl | hmem
      · exact hp hp'
      · exact hr' hmem }

/-- A registered name may be bound to something else, if the heap is counted as if it had held that
all along. -/
theorem rebind {x : String} (hx : x ∈ m.registered)
    (hc : heap.Counts (b.objects ++ (objectsOf m.vars (m.registered.erase x) ++ held')))
    (hd : m.heap.Drops heap) :
    Balanced flat params { m with heap, vars := m.vars.insert x b } held' := by
  have hnot : x ∉ m.registered.erase x := h.nodup.not_mem_erase
  have hnew : (objectsOf (m.vars.insert x b) m.registered).Perm
      (b.objects ++ objectsOf m.vars (m.registered.erase x)) := by
    have := objectsOf_erase hx (FinMap.get?_insert_self m.vars x b)
    rwa [objectsOf_insert hnot] at this
  have hcounts : heap.Counts (objectsOf (m.vars.insert x b) m.registered ++ held') := by
    refine hc.perm ?_
    rw [← List.append_assoc]
    exact hnew.symm.append_right _
  exact
    { h with
      bound := by
        intro y hy
        change ∃ c, (m.vars.insert x b).get? y = some c
        rw [FinMap.get?_insert]
        split
        · exact ⟨b, rfl⟩
        · exact h.bound y hy
      counts := hcounts
      plain := by
        obtain ⟨c, hc⟩ := h.bound x hx
        exact FinMap.forall_insert (h.plain x c hc) h.plain
      unwritten := by
        intro hf id
        have := h.unwritten hf id
        have := hd.fieldRefs id
        change heap.fieldRefs id = 0
        omega
      caller := by
        intro p hp
        obtain ⟨ht, hr, hb'⟩ := h.caller p hp
        refine ⟨ht, hr, fun c hc => ?_⟩
        change (m.vars.insert x b).get? p = some c at hc
        rw [FinMap.get?_insert_ne _ (by rintro rfl; exact hr hx)] at hc
        obtain ⟨id, rfl, he⟩ := hb' c hc
        exact ⟨id, rfl, hd.external id he⟩ }

/-- The innermost scope may be forgotten along with the references of its names. -/
theorem leave (hs : m.scopes = s :: outer) : Balanced flat params { m with scopes := outer }
      (objectsOf m.vars s.registered ++ held) := by
  have hr : m.registered = s.registered ++ outer.flatMap (·.registered) := by
    rw [Machine.registered, hs, List.flatMap_cons]
  have hsub : ∀ y ∈ outer.flatMap (·.registered), y ∈ m.registered := by
    intro y hy
    rw [hr]
    exact List.mem_append_right _ hy
  exact
    { h with
      nodup := (List.nodup_append.1 (hr ▸ h.nodup)).2.1
      bound := fun y hy => h.bound y (hsub y hy)
      counts := by
        refine h.counts.perm ?_
        rw [hr, objectsOf_append, List.append_assoc]
        exact List.perm_append_comm_assoc ..
      caller := by
        intro p hp
        obtain ⟨ht, hr', hb⟩ := h.caller p hp
        exact ⟨ht, fun hmem => hr' (hsub p hmem), hb⟩ }

/-- What a registered name, the caller or something else holds is live. -/
theorem holds
    (hb : b.objects ⊆ objectsOf m.vars (m.registered ++ params) ++ held) : m.heap.Holds b := by
  intro id hid
  have hmem := hb hid
  rw [objectsOf_append] at hmem
  rcases List.mem_append.1 hmem with hmem | hmem
  · rcases List.mem_append.1 hmem with hmem | hmem
    · exact h.counts.alive_of_mem (List.mem_append_left _ hmem)
    · obtain ⟨p, hp, hmem⟩ := List.mem_flatMap.1 hmem
      cases hv : m.vars.get? p with
      | none =>
        rw [hv] at hmem
        cases hmem
      | some c =>
        obtain ⟨a, rfl, he⟩ := (h.caller p hp).2.2 c hv
        rw [hv] at hmem
        rw [List.mem_singleton.1 hmem]
        exact h.counts.alive_of_external he
  · exact h.counts.alive_of_mem (List.mem_append_right _ hmem)

/-! ### Leaving scopes -/

variable {E : Fault → Prop}

omit h in
/-- Names that hold their objects can be released. -/
theorem leads_releaseNames {names : List String}
    (h : Balanced flat params m (objectsOf m.vars names ++ held))
    (hb : ∀ x ∈ names, ∃ b, m.vars.get? x = some b)
    (hpost : ∀ heap, Balanced flat params { m with heap } held → m.heap.Drops heap →
      post () { m with heap }) : Leads E (releaseNames names) m post := by
  induction names generalizing m with
  | nil => exact hpost m.heap h (Heap.Keeps.refl _).drops
  | cons x rest ih =>
    obtain ⟨b, hx⟩ := hb x List.mem_cons_self
    have hlook : m.lookup x = .ok b := by
      unfold Machine.lookup
      rw [hx]
    rw [objectsOf_cons _ hx, List.append_assoc] at h
    have hc : m.heap.Counts (b.objects ++
        (objectsOf m.vars m.registered ++ (objectsOf m.vars rest ++ held))) :=
      h.counts.perm (List.perm_append_comm_assoc ..)
    obtain ⟨heap, hr, hc', hd⟩ := hc.releaseAll
    have hrest : Leads E (releaseNames rest) { m with heap } post := by
      refine ih (h.withHeap hc' hd) (fun y hy => hb y (List.mem_cons_of_mem _ hy)) ?_
      intro heap' hbal hd'
      exact hpost heap' hbal (hd.trans hd')
    unfold releaseNames
    rw [leads_bind, leads_lookup, hlook]
    cases b with
    | object id =>
      change Leads E (onHeap (·.release id) >>= fun _ => releaseNames rest) m post
      have hrel : m.heap.release id = (.ok (), heap) := hr
      rw [leads_bind, leads_onHeap, hrel]
      exact hrest
    | null | primitive v =>
      have hheap : heap = m.heap := by
        rw [Binding.objects, Heap.releaseAll] at hr
        exact (congrArg Prod.snd hr).symm
      rw [hheap] at hrest
      exact hrest

/-- Leaving the innermost scope drops what it holds and nothing else. -/
theorem leads_exitScope (hs : m.scopes = s :: outer)
    (hpost : ∀ heap, Balanced flat params { m with scopes := outer, heap } held →
      m.heap.Drops heap → post () { m with scopes := outer, heap }) :
    Leads E (exitScope s.id) m post := by
  unfold exitScope
  rw [leads_bind, leads_get, hs]
  change Leads E (modify _ >>= fun _ => _) m post
  rw [leads_bind, leads_modify, if_pos rfl]
  refine leads_releaseNames (h.leave hs) ?_ hpost
  intro x hx
  refine h.bound x ?_
  rw [Machine.registered, hs, List.flatMap_cons]
  exact List.mem_append_left _ hx

/-- Any number of scopes can be left. -/
theorem leads_exitScopes (hs : m.scopes = extra ++ outer)
    (hpost : ∀ heap, Balanced flat params { m with scopes := outer, heap } held →
      m.heap.Drops heap → post () { m with scopes := outer, heap }) :
    Leads E (exitScopes exitScope extra.length) m post := by
  induction extra generalizing m with
  | nil =>
    have hm : { m with scopes := outer, heap := m.heap } = m := by
      obtain ⟨heap, vars, scopes, handlers, previous, steps, calls⟩ := m
      have hs' : scopes = outer := hs
      rw [hs']
    have := hpost m.heap (by rw [hm]; exact h) (Heap.Keeps.refl _).drops
    rw [hm] at this
    exact this
  | cons s extra ih =>
    rw [List.length_cons, exitScopes, leads_bind, leads_get, hs]
    refine leads_bind.2 (h.leads_exitScope hs ?_)
    intro heap hbal hd
    refine ih hbal rfl ?_
    intro heap' hbal' hd'
    exact hpost heap' hbal' (hd.trans hd')

/-- Scopes can be left down to any depth. -/
theorem leads_unwind (hs : m.scopes = extra ++ outer)
    (hpost : ∀ heap, Balanced flat params { m with scopes := outer, heap } held →
      m.heap.Drops heap → post () { m with scopes := outer, heap }) :
    Leads E (unwind exitScope outer.length) m post := by
  unfold unwind
  rw [leads_bind, leads_get, hs, List.length_append, Nat.add_sub_cancel]
  exact h.leads_exitScopes hs hpost

end Balanced

/-! ### States that agree with a context -/

/-- The names of each frame are registered to the scope with its identity. -/
def Registers (frames : List Frame) (scopes : List OpenScope) : Prop :=
  List.Forall₂ (fun f s => s.id = f.id ∧ f.names ⊆ s.registered) frames scopes

/-- A balanced state that agrees with a context: its scopes are open, its names registered, and where
objects must be held, its aliases stand for ones that something holds. -/
structure Inv (π : Policy) (Γ : Context) (m : Machine σ) (held : List ObjectId) : Prop extends
    Balanced π.held Γ.params m held where
  frames : Registers Γ.frames m.scopes
  owned : ∀ x ∈ m.registered, IsTemp x ∨ x ∈ Γ.owned
  aliases : π.held → ∀ t ∈ Γ.aliases, ∀ b, m.vars.get? t = some b →
    b.objects ⊆ objectsOf m.vars (m.registered ++ Γ.params) ++ held
  temps : ∀ t, t ∈ Γ.aliases ∨ t ∈ Γ.truths → IsTemp t
  undotted : ∀ p ∈ Γ.params, '.' ∉ p.toList

/-- The faults of a run: where objects must be held, none of memory, unless the handler of calls
itself fails with it. -/
def Allowed (π : Policy) (cfg : Config σ) (f : Fault) : Prop :=
  π.held → f.isMemory = true → cfg.handler.FailsWith f

variable {post : Binding → Prop}

theorem Allowed.of_isMemory {f : Fault} (hf : f.isMemory = false) : Allowed π cfg f := by
  intro _ h
  rw [hf] at h
  cases h

namespace Registers

variable {frames : List Frame} {scopes : List OpenScope} {k : String}

theorem length_eq (h : Registers frames scopes) : scopes.length = frames.length :=
  (List.Forall₂.length_eq h).symm

theorem mem_registered (h : Registers frames scopes) (hx : x ∈ frames.flatMap (·.names)) :
    x ∈ scopes.flatMap (·.registered) := by
  unfold Registers at h
  induction h with
  | nil => exact hx
  | cons hf _ ih =>
    rw [List.flatMap_cons] at hx ⊢
    rcases List.mem_append.1 hx with hx | hx
    · exact List.mem_append_left _ (hf.2 hx)
    · exact List.mem_append_right _ (ih hx)

/-- A name can be registered to a scope that is open. Scopes outside the innermost `n` stay as they
are when the scope is among these. -/
theorem registerIn (h : Registers frames scopes) (hk : k ∈ frames.map (·.id)) :
    ∃ scopes', Machine.registerIn k x scopes = some scopes' ∧
      Registers (Context.ownIn k x frames) scopes' ∧
      (scopes'.flatMap (·.registered)).Perm (x :: scopes.flatMap (·.registered)) ∧
      ∀ n, k ∈ (frames.map (·.id)).take n → scopes'.drop n = scopes.drop n := by
  unfold Registers at h
  induction h with
  | nil => simp at hk
  | @cons f s frames scopes hf hrest ih =>
    by_cases hid : f.id = k
    · have hs : s.id = k := hf.1.trans hid
      refine ⟨_, by rw [Machine.registerIn, if_pos hs], ?_, ?_, ?_⟩
      · rw [Context.ownIn, if_pos hid]
        exact .cons ⟨hf.1, List.cons_subset_cons x hf.2⟩ hrest
      · rw [List.flatMap_cons, List.flatMap_cons]
        exact List.Perm.refl _
      · intro n hn
        cases n with
        | zero => simp at hn
        | succ n => rfl
    · have hs : s.id ≠ k := fun h => hid (hf.1.symm.trans h)
      have hk' : k ∈ frames.map (·.id) := by
        rw [List.map_cons] at hk
        exact (List.mem_cons.1 hk).resolve_left fun h => hid h.symm
      obtain ⟨scopes', hr, hreg, hperm, hdrop⟩ := ih hk'
      refine ⟨s :: scopes', by rw [Machine.registerIn, if_neg hs, hr]; rfl, ?_, ?_, ?_⟩
      · rw [Context.ownIn, if_neg hid]
        exact .cons hf hreg
      · rw [List.flatMap_cons, List.flatMap_cons]
        exact (hperm.append_left _).trans List.perm_middle
      · intro n hn
        cases n with
        | zero => simp at hn
        | succ n =>
          rw [List.map_cons, List.take_succ_cons] at hn
          have hn' := (List.mem_cons.1 hn).resolve_left fun h => hid h.symm
          rw [List.drop_succ_cons, List.drop_succ_cons, hdrop n hn']

end Registers

/-- A name without a dot is no path to a field. -/
theorem fieldPath?_eq_none (hx : '.' ∉ x.toList) : fieldPath? x = none := by
  unfold fieldPath?
  have hp : ∀ c ∈ x.toList, (decide (c ≠ '.')) = true := by
    intro c hc
    rw [decide_eq_true_eq]
    rintro rfl
    exact hx hc
  rw [List.span_eq_takeWhile_dropWhile, List.dropWhile_eq_nil_iff.2 hp]

theorem lookup_eq_ok (hb : m.vars.get? x = some b) : m.lookup x = .ok b := by
  unfold Machine.lookup
  rw [hb]

theorem gives_bound {E : Fault → Prop} (hb : m.vars.get? x = some b) (h : post b) :
    Gives E (m.lookup x) post := by
  rw [lookup_eq_ok hb]
  exact h

/-- Looking up a name without a dot finds what it is bound to. -/
theorem gives_lookup (hx : '.' ∉ x.toList) (hpost : ∀ b, m.vars.get? x = some b → post b) :
    Gives (Allowed π cfg) (m.lookup x) post := by
  cases hb : m.vars.get? x with
  | some b =>
    rw [lookup_eq_ok hb]
    exact hpost b hb
  | none =>
    have he : m.lookup x = .error (.unbound x) := by
      unfold Machine.lookup
      rw [hb, fieldPath?_eq_none hx]
    rw [he]
    exact Allowed.of_isMemory rfl

namespace Inv

variable {held1 : List ObjectId} {t k : String} (h : Inv π Γ m held)

include h

theorem tick : Inv π Γ (ticked m) held := { h with }

theorem mem_registered (hx : x ∈ Γ.owned) : x ∈ m.registered :=
  h.frames.mem_registered hx

theorem notMem_params (ht : IsTemp t) : t ∉ Γ.params :=
  fun hp => (h.caller t hp).1 ht

/-- What a name stands for is held where objects must be held. -/
theorem backs (hx : x ∈ Γ.names) (hh : π.held) (hb : m.vars.get? x = some b) :
    b.objects ⊆ objectsOf m.vars (m.registered ++ Γ.params) ++ held := by
  simp only [Context.names, List.mem_append] at hx
  intro id hid
  have hown : x ∈ m.registered ++ Γ.params →
      id ∈ objectsOf m.vars (m.registered ++ Γ.params) ++ held := by
    intro hx
    refine List.mem_append_left _ ?_
    cases b with
    | object a =>
      rw [List.mem_singleton.1 hid]
      exact mem_objectsOf hx hb
    | null | primitive _ => cases hid
  rcases hx with (hx | hx) | hx
  · exact hown (List.mem_append_left _ (h.mem_registered hx))
  · exact h.aliases hh x hx b hb hid
  · exact hown (List.mem_append_right _ hx)

/-- What a name stands for is live where objects must be held. -/
theorem holds (hx : x ∈ Γ.names) (hh : π.held)
    (hb : m.vars.get? x = some b) : m.heap.Holds b := h.toBalanced.holds (h.backs hx hh hb)

variable {post : Binding → Prop}

theorem gives_name (hx : x ∈ Γ.names) (hpost : ∀ b, m.vars.get? x = some b →
      (π.held → b.objects ⊆ objectsOf m.vars (m.registered ++ Γ.params) ++ held) → post b) :
    Gives (Allowed π cfg) (m.lookup x) post := by
  have hall : ∀ b, m.vars.get? x = some b → post b := fun b hb =>
    hpost b hb fun hh => h.backs hx hh hb
  simp only [Context.names, List.mem_append] at hx
  rcases hx with (hx | hx) | hx
  · obtain ⟨b, hb⟩ := h.bound x (h.mem_registered hx)
    rw [lookup_eq_ok hb]
    exact hall b hb
  · exact gives_lookup (h.temps x (.inl hx)).dot_notMem hall
  · exact gives_lookup (h.undotted x hx) hall

theorem gives_readable {B : List String} (hn : π.named) (hB : B ⊆ Γ.names) (hx : Readable π B x)
    (hpost : ∀ b, m.vars.get? x = some b →
      (π.held → b.objects ⊆ objectsOf m.vars (m.registered ++ Γ.params) ++ held) → post b) :
    Gives (Allowed π cfg) (m.lookup x) post :=
  gives_lookup (hx.1 hn).2 fun b hb => hpost b hb fun hh => h.backs (hB (hx.1 hn).1) hh hb

/-! ### Changes of the state -/

/-- A name that nobody owns and that stands for nothing may be bound to anything. -/
theorem set (hr : x ∉ m.registered) (hp : x ∉ Γ.params) (hd : '.' ∉ x.toList) (ha : x ∉ Γ.aliases) :
    Inv π Γ { m with vars := m.vars.insert x b } held :=
  { h with
    toBalanced := h.toBalanced.bind hr hp hd
    aliases := by
      intro hh s hs c hc
      change (m.vars.insert x b).get? s = some c at hc
      change c.objects ⊆ objectsOf (m.vars.insert x b) (m.registered ++ Γ.params) ++ held
      rw [FinMap.get?_insert_ne _ (by rintro rfl; exact ha hs)] at hc
      rw [objectsOf_insert (by simp [hr, hp])]
      exact h.aliases hh s hs c hc }

theorem bind (ht : IsTemp t) (hr : t ∉ m.registered) (ha : t ∉ Γ.aliases) :
    Inv π Γ { m with vars := m.vars.insert t b } held :=
  h.set hr (h.notMem_params ht) ht.dot_notMem ha

/-- The heap may change as long as nothing is freed and nothing less is held. -/
theorem withHeap {heap : Heap} (hc : heap.Counts (objectsOf m.vars m.registered ++ held1))
    (hk : m.heap.Keeps heap)
    (hs : held ⊆ held1) : Inv π Γ { m with heap } held1 :=
  { h with
    toBalanced := h.toBalanced.withHeap hc hk.drops
    aliases := fun hh s hs' c hc => List.Subset.trans (h.aliases hh s hs' c hc)
      (List.append_subset.2
        ⟨List.subset_append_left _ _, List.subset_append_of_subset_right _ hs⟩) }

/-! ### Changes of the context -/

/-- A fresh temporary may stand for an object that something holds. -/
theorem shared (ht : IsTemp t) (hr : t ∉ m.registered) (ha : t ∉ Γ.aliases)
    (hb : π.held → b.objects ⊆ objectsOf m.vars (m.registered ++ Γ.params) ++ held) :
    Inv π (Γ.share t) { m with vars := m.vars.insert t b } held :=
  { h.bind ht hr ha (b := b) with
    aliases := by
      intro hh s hs c hc
      change c.objects ⊆ objectsOf (m.vars.insert t b) (m.registered ++ Γ.params) ++ held
      rcases List.mem_cons.1 hs with rfl | hs
      · change (m.vars.insert s b).get? s = some c at hc
        rw [FinMap.get?_insert_self] at hc
        cases hc
        rw [objectsOf_insert (by simp [hr, h.notMem_params ht])]
        exact hb hh
      · exact (h.bind ht hr ha).aliases hh s hs c hc
    temps := by
      intro y hy
      rcases hy with hy | hy
      · rcases List.mem_cons.1 hy with rfl | hy
        · exact ht
        · exact h.temps y (.inl hy)
      · exact h.temps y (.inr hy) }

theorem truth (ht : IsTemp t) : Inv π (Γ.truth t) m held :=
  { h with
    temps := by
      intro y hy
      rcases hy with hy | hy
      · exact h.temps y (.inl hy)
      · rcases List.mem_cons.1 hy with rfl | hy
        · exact ht
        · exact h.temps y (.inr hy) }

omit h in
/-- A name that is bound may be registered to an open scope, with the reference it is to own. -/
theorem register (h : Inv π Γ m (b.objects ++ held)) (hb : m.vars.get? x = some b)
    (hr : x ∉ m.registered) (hp : x ∉ Γ.params) (hk : k ∈ Γ.ids) :
    ∃ scopes, Machine.registerIn k x m.scopes = some scopes ∧
      Inv π (Γ.own k x) { m with scopes } held ∧
      (scopes.flatMap (·.registered)).Perm (x :: m.registered) ∧
      ∀ n, k ∈ Γ.ids.take n → scopes.drop n = m.scopes.drop n := by
  obtain ⟨scopes, hreg, hframes, hperm, hdrop⟩ := h.frames.registerIn (x := x) hk
  refine ⟨scopes, hreg, ?_, hperm, hdrop⟩
  have hbase : objectsOf m.vars (m.registered ++ Γ.params) ++ (b.objects ++ held) ⊆
      objectsOf m.vars (scopes.flatMap (·.registered) ++ Γ.params) ++ held := by
    have hnew := objectsOf_perm (v := m.vars) (hperm.append_right Γ.params)
    rw [List.cons_append, objectsOf_cons _ hb] at hnew
    refine List.Subset.trans ?_ (hnew.symm.append_right held).subset
    rw [List.append_assoc]
    exact (List.perm_append_comm_assoc ..).subset
  exact
    { h with
      toBalanced := h.toBalanced.register hb hr hp hperm
      frames := hframes
      owned := by
        intro y hy
        rcases List.mem_cons.1 (hperm.mem_iff.1 hy) with rfl | hy
        · exact .inr (Context.mem_owned_own hk)
        · exact (h.owned y hy).imp_right fun hy => Context.owned_own_subset hy
      aliases := fun hh s hs c hc => List.Subset.trans (h.aliases hh s hs c hc) hbase }

/-- A later state agrees with an earlier context when the frames are the same and nothing was
remembered. -/
theorem back (h1 : Inv π Γ1 m1 held1) (hf : Γ1.frames = Γ.frames) (hp : Γ1.params = Γ.params)
    (ha : π.held → Γ.aliases = []) : Inv π Γ m1 held1 where
  toBalanced := hp ▸ h1.toBalanced
  frames := hf ▸ h1.frames
  owned := by
    have := h1.owned
    unfold Context.owned at this ⊢
    rwa [hf] at this
  aliases := by
    intro hh s hs
    rw [ha hh] at hs
    cases hs
  temps := h.temps
  undotted := h.undotted

/-- A balanced state with the same scopes agrees with the context as well, where nothing is
remembered. -/
theorem resume (hb : Balanced π.held Γ.params m1 held1) (hs : m1.scopes = m.scopes)
    (ha : π.held → Γ.aliases = []) : Inv π Γ m1 held1 :=
  { hb with
    frames := hs ▸ h.frames
    owned := by
      rw [registered_eq hs]
      exact h.owned
    aliases := by
      intro hh s hs
      rw [ha hh] at hs
      cases hs
    temps := h.temps
    undotted := h.undotted }

theorem forget : Inv π Γ.forget m held :=
  { h with
    aliases := fun _ s hs => by cases hs
    temps := by
      intro y hy
      rcases hy with hy | hy
      · cases hy
      · exact h.temps y (.inr hy) }

theorem settle : Inv π (Γ.settle π) m held := by
  unfold Context.settle
  split
  · exact h.forget
  · exact h

/-- Where nothing is remembered, anything may be freed that is not held. -/
theorem settled (hb : Balanced π.held Γ.params m1 held1)
    (hs : m1.scopes = m.scopes) : Inv π (Γ.settle π) m1 held1 := by
  unfold Context.settle
  split
  · exact h.forget.resume hb hs fun _ => rfl
  · next hh => exact h.resume hb hs fun h => absurd h hh

end Inv

/-! ### What code leads to -/

/-- The temporaries that code binds are new: no scope owns one, and none stands for an object. -/
structure Fresh (Γ : Context) (l : List Instr) (m : Machine σ) : Prop where
  nodup : (binds l).Nodup
  temp : ∀ t ∈ binds l, IsTemp t
  apart : ∀ t ∈ binds l, t ∉ m.registered
  unshared : ∀ t ∈ binds l, t ∉ Γ.aliases

/-- What holds when control leaves code that started in state `m`. References may be lost, but not
where the run is strict: only an exception inside a finally block loses one. -/
def After (π : Policy) (strict inside : Bool) (Γ : Context) (d : Bool) (l : List Instr)
    (Γ' : Context) (m : Machine σ) (held : List ObjectId) (c : Control) (m' : Machine σ) : Prop :=
  ∃ lost, (strict = true → lost = []) ∧
    match c with
    | .next => d = false ∧ Inv π Γ' m' (lost ++ held) ∧
        m'.scopes.drop (Γ.frames.length - Γ.floor) = m.scopes.drop (Γ.frames.length - Γ.floor) ∧
        ∀ t ∈ m'.registered, IsTemp t → t ∈ m.registered ∨ t ∈ binds l
    | .throw e => (strict && inside) = false ∧
        (∃ extra, m'.scopes = extra ++ m.scopes.drop (Γ.frames.length - Γ.boundary)) ∧
        Balanced π.held Γ.params m' (e.objects ++ (lost ++ held))
    | .ret v => Γ.mayReturn = true ∧ m'.scopes = [] ∧
        Balanced π.held Γ.params m' ((v.map Binding.objects).getD [] ++ (lost ++ held))
    | .jump _ => False

/-! ### Running lists -/

section

variable {rounds : Nat} {strict inner inside : Bool} {post : Control → Machine σ → Prop}
  {location : Option Location} {i : Instr}

/-- Where a list of instructions leads to in a run that knows about finally blocks. -/
abbrev LeadsAll (π : Policy) (cfg : Config σ) (rounds : Nat) (strict inner inside : Bool)
    (l : List Instr) (m : Machine σ) (post : Control → Machine σ → Prop) : Prop :=
  Leads (Allowed π cfg) (runAll (l.map (watchedIn cfg rounds strict inner inside))) m post

theorem leadsAll_append : LeadsAll π cfg rounds strict inner inside (l ++ r) m post ↔
    LeadsAll π cfg rounds strict inner inside l m fun c m' =>
      Through c (LeadsAll π cfg rounds strict inner inside r m' post) (post c m') := by
  rw [LeadsAll, List.map_append, leads_runAll_append]

/-- Run an instruction. The limit, a refused exception and a jump are faults that have nothing to do
with memory. -/
theorem leads_watched (h : Leads (Allowed π cfg)
      (perform exitScope cfg rounds i (i.payload.mapWith (watchedIn cfg rounds strict true inside)
        (watchedIn cfg rounds strict true true)))
      (ticked m) fun c m' => (inner = true → ∀ l, c ≠ .jump l) →
        (∀ e, c = .throw e → (strict && inside && i.opcode.isCall) = false) → post c m') :
    Leads (Allowed π cfg) (i.watchedIn cfg rounds strict inner inside) m post := by
  rw [watchedIn_eq, leads_bind]
  refine leads_tick (.of_isMemory rfl) ?_
  rw [leads_bind]
  refine h.mono ?_
  intro c m' hc
  rw [leads_bind]
  have hend : ∀ c : Control, ((inner = true → ∀ l, c ≠ .jump l) → post c m') →
      Leads (Allowed π cfg) (if inner then stayInside i c else pure c) m' post := by
    intro c hp
    cases inner with
    | false => exact hp (by simp)
    | true =>
      cases c with
      | jump l => exact Allowed.of_isMemory rfl
      | _ => exact hp (by simp)
  cases c with
  | next | jump l | ret v => exact hend _ fun hj => hc hj (by simp)
  | throw e =>
    cases hr : strict && inside && i.opcode.isCall with
    | true => exact Allowed.of_isMemory (f := .callFailed _) rfl
    | false => exact hend _ fun hj => hc hj fun _ _ => hr

/-- Run the first instruction of a list, and the others where control goes on. -/
theorem leadsAll_cons (h : Leads (Allowed π cfg)
      (perform exitScope cfg rounds i (i.payload.mapWith (watchedIn cfg rounds strict true inside)
        (watchedIn cfg rounds strict true true)))
      (ticked m) fun c m' =>
        Through c (LeadsAll π cfg rounds strict inner inside l m' post) (post c m')) :
    LeadsAll π cfg rounds strict inner inside (i :: l) m post :=
  leads_runAll_cons.2 (leads_watched (h.mono fun _ _ hc _ _ => hc))

theorem leadsAll_single (h : Leads (Allowed π cfg)
      (perform exitScope cfg rounds i (i.payload.mapWith (watchedIn cfg rounds strict true inside)
        (watchedIn cfg rounds strict true true)))
      (ticked m) post) :
    LeadsAll π cfg rounds strict inner inside [i] m post :=
  leads_runAll_single.2 (leads_watched (h.mono fun _ _ hc _ _ => hc))

theorem leadsAll_chained {c : Chain Instr} (h : Leads (Allowed π cfg)
      (runChain exitScope rounds (chained location c) (c.mapWith
        (watchedIn cfg rounds strict true inside) (watchedIn cfg rounds strict true true)))
      (ticked m) post) :
    LeadsAll π cfg rounds strict inner inside [chained location c] m post :=
  leadsAll_single h

theorem leadsAll_logicalBlock {t : String} {b : LogicalBlock Instr} (h : Leads (Allowed π cfg)
      (runLogical (logicalBlock location t b) (b.map (watchedIn cfg rounds strict true inside)))
      (ticked m) post) :
    LeadsAll π cfg rounds strict inner inside [logicalBlock location t b] m post := by
  refine leadsAll_single ?_
  change Leads _ (perform exitScope cfg rounds _ (.logical (b.map _))) _ _
  rw [perform_logicalBlock]
  exact h

end

/-- Code does what the layout says, from every state that agrees with the context before it. -/
def Sound (π : Policy) (cfg : Config σ) (rounds : Nat) (strict inside : Bool) (Γ : Context)
    (d : Bool) (l : List Instr) (Γ' : Context) : Prop :=
  ∀ inner m held, Inv π Γ m held → Fresh Γ l m →
    LeadsAll π cfg rounds strict inner inside l m (After π strict inside Γ d l Γ' m held)

/-- Fewer scopes are open at the innermost try chain than at the innermost loop, and fewer there than
in all. -/
structure Context.Ordered (Γ : Context) : Prop where
  boundary : Γ.boundary ≤ Γ.floor
  floor : Γ.floor ≤ Γ.frames.length

theorem Context.Ordered.alike {Γ Γ' : Context} (h : Γ.Ordered) (ha : Γ.Alike Γ') : Γ'.Ordered := by
  refine ⟨?_, ?_⟩
  · rw [ha.boundary, ha.floor]
    exact h.boundary
  · rw [ha.floor, ha.length_frames]
    exact h.floor

namespace Fresh

variable {m' : Machine σ}

/-- Only what is registered matters. -/
theorem of_scopes (h : Fresh Γ l m) (hm : m'.scopes = m.scopes) : Fresh Γ l m' :=
  { h with apart := fun t ht => by rw [registered_eq hm]; exact h.apart t ht }

theorem tick (h : Fresh Γ l m) : Fresh Γ l (ticked m) := h.of_scopes rfl

/-- Only what stands for objects matters. -/
theorem of_aliases (h : Fresh Γ l m) (ha : Γ1.aliases ⊆ Γ.aliases) : Fresh Γ1 l m :=
  { h with unshared := fun t ht hmem => h.unshared t ht (ha hmem) }

theorem sublist (h : Fresh Γ r m) (hs : (binds l).Sublist (binds r)) : Fresh Γ l m :=
  ⟨h.nodup.sublist hs, fun t ht => h.temp t (hs.subset ht), fun t ht => h.apart t (hs.subset ht),
    fun t ht => h.unshared t (hs.subset ht)⟩

theorem left (h : Fresh Γ (l ++ r) m) : Fresh Γ l m :=
  h.sublist (by rw [binds_append]; exact List.sublist_append_left _ _)

/-- What stands later in the code is still new when only earlier names were used. -/
theorem right (h : Fresh Γ (l ++ r) m)
    (hm : ∀ t ∈ m'.registered, IsTemp t → t ∈ m.registered ∨ t ∈ binds l)
    (ha : ∀ t ∈ Γ1.aliases, t ∈ Γ.aliases ∨ t ∈ binds l) : Fresh Γ1 r m' := by
  have hs : (binds r).Sublist (binds (l ++ r)) := by
    rw [binds_append]
    exact List.sublist_append_right _ _
  have hr := h.sublist hs
  have hd : ∀ t ∈ binds r, t ∉ binds l := by
    intro t ht hmem
    have hd := h.nodup
    rw [binds_append] at hd
    exact (List.nodup_append.1 hd).2.2 t hmem t ht rfl
  refine ⟨hr.nodup, hr.temp, ?_, ?_⟩
  · intro t ht hmem
    rcases hm t hmem (hr.temp t ht) with hmem | hmem
    · exact hr.apart t ht hmem
    · exact hd t ht hmem
  · intro t ht hmem
    rcases ha t hmem with hmem | hmem
    · exact hr.unshared t ht hmem
    · exact hd t ht hmem

end Fresh

section

variable {rounds : Nat} {strict inner inside d : Bool} {Γ2 : Context}

/-- What is left of `scopes` below an outer mark depends only on what is left below an inner one. -/
theorem drop_eq_of_le {α : Type} {s s' : List α} {n a b : Nat} (hab : a ≤ b) (hb : b ≤ n)
    (h : s'.drop (n - b) = s.drop (n - b)) : s'.drop (n - a) = s.drop (n - a) := by
  have hn : n - a = (n - b) + (b - a) := by omega
  rw [hn, ← List.drop_drop, ← List.drop_drop, h]

variable {c : Control} {m2 : Machine σ}

/-- Control that left a part has left the whole. -/
theorem After.widen {d' : Bool} (hm : m1.scopes = m.scopes) (hc : c ≠ .next)
    (h : After π strict inside Γ d l Γ1 m1 held c m2) :
    After π strict inside Γ d' r Γ2 m held c m2 := by
  obtain ⟨lost, hlost, h⟩ := h
  refine ⟨lost, hlost, ?_⟩
  cases c with
  | next => exact absurd rfl hc
  | throw e => rwa [← hm]
  | ret v | jump _ => exact h

/-- Control that left a part of a loop has left the loop. -/
theorem After.unfence {d' : Bool} (hc : c ≠ .next)
    (h : After π strict inside Γ.fence d l Γ1 m held c m1) :
    After π strict inside Γ d' r Γ2 m held c m1 := by
  obtain ⟨lost, hlost, h⟩ := h
  refine ⟨lost, hlost, ?_⟩
  cases c with
  | next => exact absurd rfl hc
  | _ => exact h

/-- Going on after a first part. -/
theorem After.trans {L : List ObjectId} (ho : Γ.Ordered) (ha : Γ.Alike Γ1)
    (hlost : strict = true → L = []) (hbelow : m1.scopes.drop (Γ.frames.length - Γ.floor) =
      m.scopes.drop (Γ.frames.length - Γ.floor))
    (hnew : ∀ t ∈ m1.registered, IsTemp t → t ∈ m.registered ∨ t ∈ binds l)
    (h : After π strict inside Γ1 d r Γ2 m1 (L ++ held) c m2) :
    After π strict inside Γ d (l ++ r) Γ2 m held c m2 := by
  obtain ⟨lost2, hlost2, h⟩ := h
  refine ⟨lost2 ++ L, fun hs => by rw [hlost hs, hlost2 hs]; rfl, ?_⟩
  cases c with
  | next =>
    obtain ⟨hd, hI, hb, hn⟩ := h
    refine ⟨hd, by rwa [List.append_assoc], ?_, ?_⟩
    · rw [ha.length_frames, ha.floor] at hb
      exact hb.trans hbelow
    · intro t ht htemp
      rw [binds_append]
      rcases hn t ht htemp with ht | ht
      · exact (hnew t ht htemp).imp_right (List.mem_append_left _)
      · exact .inr (List.mem_append_right _ ht)
  | throw e =>
    obtain ⟨hs, ⟨extra, he⟩, hbal⟩ := h
    refine ⟨hs, ⟨extra, ?_⟩, ?_⟩
    · rw [he, ha.length_frames, ha.boundary, drop_eq_of_le ho.boundary ho.floor hbelow]
    · rw [ha.params] at hbal
      rwa [List.append_assoc]
  | ret v =>
    obtain ⟨hr, hs, hbal⟩ := h
    rw [ha.params] at hbal
    exact ⟨ha.mayReturn ▸ hr, hs, by rwa [List.append_assoc]⟩
  | jump _ => exact h

theorem Sound.nil : Sound π cfg rounds strict inside Γ false [] Γ := by
  intro _ m held hI _
  exact ⟨[], fun _ => rfl, rfl, hI, rfl, fun t ht _ => .inl ht⟩

theorem Sound.append (ho : Γ.Ordered) (ha : Γ.Alike Γ1)
    (hal : ∀ t ∈ Γ1.aliases, t ∈ Γ.aliases ∨ t ∈ binds l)
    (h : Sound π cfg rounds strict inside Γ false l Γ1)
    (h' : Sound π cfg rounds strict inside Γ1 d r Γ2) :
    Sound π cfg rounds strict inside Γ d (l ++ r) Γ2 := by
  intro inner m held hI hF
  rw [leadsAll_append]
  refine (h inner m held hI hF.left).through (fun m1 hc => ?_) ?_
  · obtain ⟨lost, hlost, -, hI1, hbelow, hnew⟩ := hc
    refine (h' inner m1 _ hI1 (hF.right hnew hal)).mono fun c m2 hc2 => ?_
    exact hc2.trans ho ha hlost hbelow hnew
  · intro c m1 hc h
    exact h.widen rfl hc

end

end Layout

end ScopedIR
