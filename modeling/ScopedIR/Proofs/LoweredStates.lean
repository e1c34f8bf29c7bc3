import ScopedIR.Proofs.LoweredExpr

/-!
# States of lowering beside contexts

The state of lowering and the context of the layout go side by side. They speak of the same scopes and
try chains, and the names visible in the source are readable. Code numbers its temporaries and scopes
in order, and leaves the scopes open that were open before.

Main definitions: `Fits`, `Issued`, `Kept`, and `BlockYields` for the code of a block.
-/

namespace ScopedIR.Layout

open Instr Lowering Gen

variable {R U V p r : List String} {k type x : String} {l : List Instr} {s s' s1 s2 : State}
  {π : Policy} {isParam : Bool} {Γ Γ1 Γ' : Context}

/-- How many scopes are open at the innermost try chain. -/
def boundaryOf (s : State) : Nat :=
  match s.handlers with
  | [] => 0
  | handler :: _ => handler.depth

/-- A name that stays readable while statements run: a variable, or where objects must be held a
temporary that owns its object. -/
def Stable (π : Policy) (Γ : Context) (x : String) : Prop :=
  (π.held ∨ ¬ IsTemp x → x ∈ Γ.owned ∨ x ∈ Γ.params) ∧ x ∈ Γ.names ∧ (π.named → '.' ∉ x.toList)

/-- The names `U` may be read where the names `V` are visible. -/
def Reads (π : Policy) (U V : List String) : Prop :=
  (π.named → U ⊆ V) ∧ (π.plain → ∀ x ∈ U, IsTemp x → x ∈ V)

namespace Reads

variable {W : List String}

theorem of_subset (h : U ⊆ V) : Reads π U V := ⟨fun _ => h, fun _ _ hx _ => h hx⟩

theorem refl (U : List String) : Reads π U U := .of_subset (List.Subset.refl _)

theorem trans (h : Reads π U V) (hV : V ⊆ W) : Reads π U W :=
  ⟨fun hs => List.Subset.trans (h.1 hs) hV, fun hs x hx ht => hV (h.2 hs x hx ht)⟩

theorem append (h : Reads π U W) (h' : Reads π V W) : Reads π (U ++ V) W :=
  ⟨fun hs => List.append_subset.2 ⟨h.1 hs, h'.1 hs⟩, fun hs x hx ht =>
    (List.mem_append.1 hx).elim (fun hx => h.2 hs x hx ht) fun hx => h'.2 hs x hx ht⟩

theorem cons (h : Reads π U V) (hx : x ∈ V) : Reads π (x :: U) V :=
  append (U := [x]) (of_subset (by simpa using hx)) h

end Reads

/-- The name of a variable that may be declared where the names `V` are visible. -/
def Introduces (π : Policy) (V : List String) (x : String) : Prop :=
  (π.named → Declares V x) ∧ (π.plain → Ordinary x)

/-- The name of a variable that may be assigned where the names `V` are visible. -/
def Reassigns (π : Policy) (V : List String) (x : String) : Prop :=
  (π.named → x ∈ V ∧ ¬ IsTemp x) ∧ (π.plain → Ordinary x)

/-- The context of the layout agrees with the state of lowering, and the names `V` are visible. -/
structure Fits (π : Policy) (V : List String) (s : State) (Γ : Context) : Prop where
  ids : Γ.ids = s.openScopes
  issued : ∀ k ∈ s.openScopes, ∃ n ≤ s.scopeIds, k = numbered "_scope_" n
  boundary : s.inFinally = false → Γ.boundary = boundaryOf s
  inside : Γ.floor < Γ.frames.length
  mayReturn : s.inFinally = false → s.returnsPastFinally = false → Γ.mayReturn = true
  mayThrow : s.inFinally = false → Γ.mayThrow = true
  reads : ∀ x ∈ V, Stable π Γ x
  closed : π.named → (∀ x ∈ Γ.owned, IsTemp x ∨ x ∈ V) ∧ ∀ x ∈ Γ.params, x ∈ V ∧ ¬ IsTemp x
  assignable : π.named → ∀ x ∈ V, ¬ IsTemp x →
    x ∈ Γ.owned ∨ ∃ v, s.lookup x = some v ∧ v.isParam = true

/-- The code `l` was generated between the two states, with fresh names in order. -/
structure Issued (s : State) (l : List Instr) (s' : State) : Prop where
  temps : Numbered "_temp" s.temps s'.temps (binds l)
  scopes : Numbered "_scope_" s.scopeIds s'.scopeIds (enters l)

/-- The same scopes and try chains, up to fresh names. -/
structure Same (s s' : State) : Prop where
  scopes : s'.scopes = s.scopes
  handlers : s'.handlers = s.handlers
  finallyDepth : s'.finallyDepth = s.finallyDepth

/-- The same scopes and try chains, up to fresh names and declarations in the innermost scope. -/
structure Kept (s s' : State) : Prop where
  outer : s'.scopes.tail = s.scopes.tail
  ids : s'.openScopes = s.openScopes
  handlers : s'.handlers = s.handlers
  finallyDepth : s'.finallyDepth = s.finallyDepth

/-! ### States side by side -/

namespace Issued

variable {r : List Instr}

theorem nil (s : State) : Issued s [] s := ⟨.nil (Nat.le_refl _), .nil (Nat.le_refl _)⟩

theorem append (h : Issued s l s1) (h' : Issued s1 r s2) : Issued s (l ++ r) s2 where
  temps := by
    rw [binds_append]
    exact h.temps.append h'.temps
  scopes := by
    rw [enters_append]
    exact h.scopes.append h'.scopes

/-- Only the counters matter, not the rest of the state. -/
theorem of_counters (h : Issued s l s1) (ht : s2.temps = s1.temps)
    (hn : s2.scopeIds = s1.scopeIds) : Issued s l s2 :=
  ⟨ht ▸ h.temps, hn ▸ h.scopes⟩

/-- Only the names matter, not the order of the code. -/
theorem of_perm (h : Issued s l s1) (hb : (binds l).Perm (binds r))
    (he : (enters l).Perm (enters r)) : Issued s r s1 :=
  ⟨h.temps.perm hb, h.scopes.perm he⟩

end Issued

theorem Yields.issued (h : Yields π U R k s l s' r p) : Issued s l s' := by
  refine ⟨h.issues, ?_⟩
  rw [h.quiet, h.state]
  exact .nil (Nat.le_refl _)

theorem Yields.same (h : Yields π U R k s l s' r p) : Same s s' := by
  rw [h.state]
  exact ⟨rfl, rfl, rfl⟩

namespace Same

theorem refl (s : State) : Same s s := ⟨rfl, rfl, rfl⟩

theorem trans (h : Same s s1) (h' : Same s1 s2) : Same s s2 :=
  ⟨h'.scopes.trans h.scopes, h'.handlers.trans h.handlers,
    h'.finallyDepth.trans h.finallyDepth⟩

theorem kept (h : Same s s1) : Kept s s1 := by
  refine ⟨by rw [h.scopes], ?_, h.handlers, h.finallyDepth⟩
  unfold State.openScopes
  rw [h.scopes]

end Same

namespace Kept

theorem refl (s : State) : Kept s s := (Same.refl s).kept

theorem trans (h : Kept s s1) (h' : Kept s1 s2) : Kept s s2 :=
  ⟨h'.outer.trans h.outer, h'.ids.trans h.ids, h'.handlers.trans h.handlers,
    h'.finallyDepth.trans h.finallyDepth⟩

end Kept

theorem kept_declare (h : s.declare x type isParam = .ok s') : Kept s s' := by
  unfold State.declare at h
  split at h
  · cases h
  · next frame outer hs =>
    cases h
    refine ⟨?_, ?_, rfl, rfl⟩
    · simp [hs]
    · simp [State.openScopes, hs]

theorem scopeIds_declare (h : s.declare x type isParam = .ok s') :
    s.scopeIds = s'.scopeIds ∧ s.temps = s'.temps := by
  unfold State.declare at h
  split at h
  · cases h
  · cases h
    exact ⟨rfl, rfl⟩

theorem lookup_declare {y : String} (h : s.declare x type isParam = .ok s') (hy : x ≠ y) :
    s'.lookup y = s.lookup y := by
  unfold State.declare at h
  split at h
  · cases h
  · next frame outer hs =>
    cases h
    simp [State.lookup, hs, List.findSome?_cons, FinMap.get?_insert_ne _ hy]

theorem exitScope_eq (h : s.exitScope k = .ok s') : s' = { s with scopes := s.scopes.tail } := by
  unfold State.exitScope at h
  split at h
  · cases h
  · next frame outer hs =>
    split at h
    · cases h
      simp [hs]
    · cases h

/-- Leaving a scope that was entered restores the scopes around it. -/
theorem same_of_exitScope (hk : Kept (s.enterScope k) s1) (h : s1.exitScope k = .ok s2) :
    Same s s2 := by
  rw [exitScope_eq h]
  exact ⟨by simpa [State.enterScope] using hk.outer, hk.handlers, hk.finallyDepth⟩

/-- A scope that was named, entered and left again. -/
theorem Kept.exit (hk : Kept s.inside s1)
    (h : s1.exitScope s.scopeId.1 = .ok s2) : Same s s2 := by
  have hs := same_of_exitScope hk h
  exact ⟨hs.scopes, hs.handlers, hs.finallyDepth⟩

theorem Issued.exit (h : Issued s l s1) (hx : s1.exitScope k = .ok s2) : Issued s l s2 := by
  rw [exitScope_eq hx]
  exact ⟨h.temps, h.scopes⟩

/-! ### How contexts and states move together -/

namespace Stable

theorem mono (h : Stable π Γ x) (hp : Γ'.params = Γ.params) (ho : Γ.owned ⊆ Γ'.owned)
    (hn : ¬ π.held → Γ.names ⊆ Γ'.names) : Stable π Γ' x := by
  refine ⟨fun hx => ?_, ?_, h.2.2⟩
  · rw [hp]
    exact (h.1 hx).imp_left fun hx => ho hx
  · by_cases hh : π.held
    · rcases h.1 (.inl hh) with hx | hx
      · exact Context.owned_subset_names (ho hx)
      · exact Context.params_subset_names (hp ▸ hx)
    · exact hn hh h.2.1

end Stable

namespace Fits

variable (h : Fits π V s Γ)

include h

/-- The scope that lowering is in. -/
theorem exists_current : ∃ k, s.currentScope = .ok k ∧ Γ.ids.head? = some k ∧ k ∈ Γ.reach := by
  have hlen : 0 < Γ.frames.length := by
    have := h.inside
    omega
  have hids := h.ids
  unfold State.openScopes at hids
  cases hs : s.scopes with
  | nil =>
    rw [hs, List.map_nil, ← List.length_eq_zero_iff, Context.length_ids] at hids
    omega
  | cons frame outer =>
    rw [hs, List.map_cons] at hids
    refine ⟨frame.id, ?_, by rw [hids, List.head?_cons], ?_⟩
    · simp [State.currentScope, hs]
    · unfold Context.reach
      have hn : Γ.frames.length - Γ.floor = (Γ.frames.length - Γ.floor - 1) + 1 := by
        have := h.inside
        omega
      rw [hn, hids, List.take_succ_cons]
      exact List.mem_cons_self

theorem current (hk : s.currentScope = .ok k) : Γ.ids.head? = some k ∧ k ∈ Γ.reach := by
  obtain ⟨k', hk', h'⟩ := h.exists_current
  obtain rfl : k' = k := Except.ok.inj (hk'.symm.trans hk)
  exact h'

theorem readable {U : List String} (hU : Reads π U V) : ∀ x ∈ U, Readable π Γ.names x :=
  fun x hx => ⟨fun hs => (h.reads x (hU.1 hs hx)).2.imp_right fun hd => hd hs,
    fun hs ht => (h.reads x (hU.2 hs x hx ht)).2.1⟩

/-- Only the scopes, the try chains and the visible names matter. -/
theorem kept (hk : Kept s s') (hn : s.scopeIds ≤ s'.scopeIds)
    (hl : π.named → ∀ x ∈ V, s'.lookup x = s.lookup x) : Fits π V s' Γ where
  ids := h.ids.trans hk.ids.symm
  issued := by
    intro k hk'
    rw [hk.ids] at hk'
    obtain ⟨n, hle, rfl⟩ := h.issued k hk'
    exact ⟨n, by omega, rfl⟩
  boundary := by
    have := h.boundary
    unfold boundaryOf State.inFinally at *
    rwa [hk.handlers, hk.finallyDepth]
  inside := h.inside
  mayReturn := by
    have := h.mayReturn
    unfold State.inFinally State.returnsPastFinally at *
    rwa [hk.finallyDepth, hk.handlers]
  mayThrow := by
    have := h.mayThrow
    unfold State.inFinally at *
    rwa [hk.finallyDepth]
  reads := h.reads
  closed := h.closed
  assignable := by
    intro hs x hx hxt
    rw [hl hs x hx]
    exact h.assignable hs x hx hxt

/-- Fresh names do not matter. -/
theorem same (hs : Same s s') (hn : s.scopeIds ≤ s'.scopeIds) : Fits π V s' Γ :=
  h.kept hs.kept hn fun _ x _ => by rw [State.lookup, hs.scopes, State.lookup]

/-- The context may learn of more names, as long as those it owns are temporaries. -/
theorem grow (ha : Γ.Alike Γ') (ho : Γ.owned ⊆ Γ'.owned) (hn : ¬ π.held → Γ.names ⊆ Γ'.names)
    (ht : ∀ x ∈ Γ'.owned, x ∈ Γ.owned ∨ IsTemp x) :
    Fits π V s Γ' where
  ids := ha.ids.trans h.ids
  issued := h.issued
  boundary := fun hf => ha.boundary.trans (h.boundary hf)
  inside := by
    rw [ha.floor, ha.length_frames]
    exact h.inside
  mayReturn := by
    rw [ha.mayReturn]
    exact h.mayReturn
  mayThrow := by
    rw [ha.mayThrow]
    exact h.mayThrow
  reads := fun x hx => (h.reads x hx).mono ha.params ho hn
  closed := by
    intro hs
    refine ⟨fun x hx => ?_, by rw [ha.params]; exact (h.closed hs).2⟩
    rcases ht x hx with hx | hx
    · exact (h.closed hs).1 x hx
    · exact .inl hx
  assignable := by
    intro hs x hx hxt
    exact (h.assignable hs x hx hxt).imp_left fun hx => ho hx

theorem compute {B : List String} {l : List Instr} (hc : Calc π B k Γ l Γ') : Fits π V s Γ' :=
  h.grow hc.alike hc.owned_subset (fun _ => hc.names_subset) fun _ hx => hc.mem_owned hx

theorem settle : Fits π V s (Γ.settle π) := by
  refine h.grow .settle ?_ ?_ ?_
  · unfold Context.owned
    rw [Context.frames_settle]
    exact List.Subset.refl _
  · intro hh
    unfold Context.settle
    rw [if_neg hh]
    exact List.Subset.refl _
  · intro x hx
    unfold Context.owned at hx
    rw [Context.frames_settle] at hx
    exact .inl hx

/-- A fresh scope is none of those that are open. -/
theorem scopeId_notMem : s.scopeId.1 ∉ Γ.ids := by
  intro hk
  rw [h.ids] at hk
  obtain ⟨n, hn, he⟩ := h.issued _ hk
  have : s.scopeIds + 1 = n := numbered_injective "_scope_" he
  omega

theorem push : Fits π V s.inside (Γ.push s.scopeId.1) where
  ids := by
    rw [Context.ids_push, h.ids]
    rfl
  issued := by
    intro k hk
    rcases List.mem_cons.1 hk with rfl | hk
    · exact ⟨s.scopeIds + 1, Nat.le_refl _, rfl⟩
    · obtain ⟨n, hn, rfl⟩ := h.issued k hk
      refine ⟨n, ?_, rfl⟩
      change n ≤ s.scopeIds + 1
      omega
  boundary := h.boundary
  inside := by
    have := h.inside
    simp only [Context.push, List.length_cons]
    omega
  mayReturn := h.mayReturn
  mayThrow := h.mayThrow
  reads := by
    intro x hx
    refine (h.reads x hx).mono rfl ?_ ?_
    · simp [Context.owned, Context.push]
    · intro _
      simp [Context.names, Context.owned, Context.push]
  closed := by
    intro hs
    refine ⟨fun x hx => (h.closed hs).1 x ?_, (h.closed hs).2⟩
    simpa [Context.owned, Context.push] using hx
  assignable := by
    intro hs x hx hxt
    refine (h.assignable hs x hx hxt).imp ?_ ?_
    · intro hx
      simpa [Context.owned, Context.push] using hx
    · rintro ⟨v, hv, hp⟩
      refine ⟨v, ?_, hp⟩
      simpa [State.lookup, State.enterScope, State.scopeId, FinMap.get?, FinMap.empty, FinMap.find,
        List.findSome?_cons] using hv

/-- In a loop, a scope must be opened before anything is registered. -/
theorem push_fence : Fits π V s.inside (Γ.fence.push s.scopeId.1) :=
  { h.push with inside := Nat.lt_succ_self _ }

/-- A declaration in the state alone does not touch the names that are visible. -/
theorem declare {type : String} (hx : π.named → x ∉ V)
    (hd : s.declare x type false = .ok s') : Fits π V s' Γ := by
  refine h.kept (kept_declare hd) (Nat.le_of_eq (scopeIds_declare hd).1) fun hs y hy => ?_
  refine lookup_declare hd ?_
  rintro rfl
  exact hx hs hy

/-- A registered variable becomes visible. -/
theorem own (hk : k ∈ Γ.ids) (hx : π.named → ¬ IsTemp x ∧ '.' ∉ x.toList) :
    Fits π (V ++ [x]) s (Γ.own k x) where
  ids := Context.ids_own.trans h.ids
  issued := h.issued
  boundary := h.boundary
  inside := by
    rw [Context.length_frames_own]
    exact h.inside
  mayReturn := h.mayReturn
  mayThrow := h.mayThrow
  reads := by
    intro y hy
    rcases List.mem_append.1 hy with hy | hy
    · exact (h.reads y hy).mono rfl Context.owned_own_subset fun _ => Context.names_own_subset
    · rw [List.mem_singleton.1 hy]
      exact ⟨fun _ => .inl (Context.mem_owned_own hk),
        Context.owned_subset_names (Context.mem_owned_own hk), fun hs => (hx hs).2⟩
  closed := by
    intro hs
    refine ⟨fun y hy => ?_, fun y hy =>
      ((h.closed hs).2 y hy).imp_left (List.mem_append_left _)⟩
    rcases Context.mem_of_mem_owned_own hy with rfl | hy
    · exact .inr (by simp)
    · exact ((h.closed hs).1 y hy).imp_right (List.mem_append_left _)
  assignable := by
    intro hs y hy hyt
    rcases List.mem_append.1 hy with hy | hy
    · exact (h.assignable hs y hy hyt).imp_left fun hy => Context.owned_own_subset hy
    · rw [List.mem_singleton.1 hy]
      exact .inl (Context.mem_owned_own hk)

/-- Temporaries need not be visible. -/
theorem restrict {V' : List String} (hV : V' ⊆ V)
    (ht : ∀ x ∈ V, x ∈ V' ∨ IsTemp x) : Fits π V' s Γ :=
  { h with
    reads := fun x hx => h.reads x (hV hx)
    closed := by
      intro hs
      refine ⟨fun x hx => ?_, fun x hx => ?_⟩
      · rcases (h.closed hs).1 x hx with hx | hx
        · exact .inl hx
        · exact (ht x hx).symm
      · obtain ⟨hx, hxt⟩ := (h.closed hs).2 x hx
        exact ⟨(ht x hx).resolve_right hxt, hxt⟩
    assignable := fun hs x hx hxt => h.assignable hs x (hV hx) hxt }

/-- What may be declared in the source may be declared in the code. -/
theorem declarable (hx : Introduces π V x) : Declarable π Γ x := by
  refine ⟨fun hs => ?_, hx.2⟩
  obtain ⟨hv, ht, hd⟩ := hx.1 hs
  refine ⟨fun ho => ?_, fun hp => hv ((h.closed hs).2 x hp).1, ht, hd⟩
  rcases (h.closed hs).1 x ho with h' | h'
  · exact ht h'
  · exact hv h'

end Fits

/-- Registering to the innermost scope leaves the scopes around it as they are. -/
theorem Context.tail_own (hk : Γ.ids.head? = some k) : (Γ.own k x).frames.tail = Γ.frames.tail := by
  cases hf : Γ.frames with
  | nil => simp [Context.ids, hf] at hk
  | cons f outer =>
    have hid : f.id = k := by simpa [Context.ids, hf] using hk
    simp [Context.own, Context.ownIn, hf, hid]

theorem Calc.tail {B : List String} (h : Calc π B k Γ l Γ1) (hk : Γ.ids.head? = some k) :
    Γ1.frames.tail = Γ.frames.tail := by
  induction h with
  | append h _ ih ih' => exact (ih' (by rwa [h.alike.ids])).trans (ih hk)
  | create | call => exact Context.tail_own hk
  | _ => rfl

/-! ### Code laid out -/

/-- The code `l`, generated between two states, leads from one context to another. -/
structure Laid (π : Policy) (Γ : Context) (s : State) (d : Bool) (l : List Instr) (s' : State)
    (Γ' : Context) : Prop where
  code : Emits π Γ d l Γ'
  outer : Γ'.frames.tail = Γ.frames.tail
  issued : Issued s l s'
  kept : Kept s s'

theorem Laid.nil (Γ : Context) (s : State) : Laid π Γ s false [] s Γ :=
  ⟨.nil, rfl, .nil s, .refl s⟩

theorem Laid.append {Γ2 : Context} {d : Bool} {r : List Instr} (h : Laid π Γ s false l s1 Γ1)
    (h' : Laid π Γ1 s1 d r s2 Γ2) : Laid π Γ s d (l ++ r) s2 Γ2 :=
  ⟨h.code.append h'.code, h'.outer.trans h.outer, h.issued.append h'.issued, h.kept.trans h'.kept⟩

/-- The code of a block where the names `V` are visible. -/
def BlockYields (π : Policy) (setting : Setting) (V : List String) (block : BlockCode) : Prop :=
  ∀ s Γ, Fits π V s Γ → block.Ensures setting s fun d s' l =>
    ∃ Γ', Laid π Γ s d l s' Γ' ∧ (d = false → ∃ N, Fits π (V ++ N) s' Γ')

theorem BlockYields.laid {setting : Setting} {V : List String} {block : BlockCode}
    (h : BlockYields π setting V block) (hF : Fits π V s Γ) :
    block.Ensures setting s fun d s' l => ∃ Γ', Laid π Γ s d l s' Γ' :=
  (h s Γ hF).mono fun _ _ _ ⟨Γ', hl, _⟩ => ⟨Γ', hl⟩

/-- The code of a statement where the names `V` are visible, which declares the names `N`. -/
def StmtYields (π : Policy) (setting : Setting) (V N : List String) (d : Bool) (g : Gen Unit) :
    Prop :=
  ∀ s Γ, Fits π V s Γ → g.Ensures setting s fun _ s' l =>
    ∃ Γ', Laid π Γ s d l s' Γ' ∧ (d = false → Fits π (V ++ N) s' Γ')

/-- What is known of the code of an expression in a context. -/
theorem Fits.calc_of_yields (h : Fits π V s Γ) (hU : Reads π U V)
    (hy : Yields π U [] k s l s' r p) :
    ∃ Γ', Calc π Γ.names k Γ l Γ' ∧ Γ'.frames.tail = Γ.frames.tail ∧ Fits π V s' Γ' ∧
      (∀ x ∈ r, Γ'.Near k x) ∧ ∀ x ∈ p, x ∈ Γ'.truths := by
  obtain ⟨hhead, hreach⟩ := h.current hy.scope
  obtain ⟨Γ', hc, hr, hp⟩ := hy.code Γ Γ.names hreach (h.readable hU) (by simp)
  refine ⟨Γ', hc, hc.tail hhead, ?_, hr, hp⟩
  exact (h.compute hc).same hy.same (Nat.le_of_eq (by rw [hy.state]))

theorem Laid.compute (hc : Calc π Γ.names k Γ l Γ1) (ht : Γ1.frames.tail = Γ.frames.tail)
    (hy : Yields π U R k s l s' r p) : Laid π Γ s false l s' Γ1 :=
  ⟨.compute (List.Subset.refl _) hc, ht, hy.issued, hy.same.kept⟩

theorem Fits.yields (h : Fits π V s Γ) (hy : Yields π U R k s l s' r p) : Fits π V s' Γ := by
  exact h.same hy.same (Nat.le_of_eq (by rw [hy.state]))

end ScopedIR.Layout
