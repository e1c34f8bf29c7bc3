import ScopedIR.Proofs.BalancedCalc
import ScopedIR.Proofs.OpenScopes

/-!
# Names that stay known

An action may rely on names that are bound, and the names that it binds are known after it. No action
forgets a binding, and none registers a name to a scope that is not known: a scope releases by name
whatever was registered to it. This holds when references are counted and when they are not.

Main definitions: `Knows`, and `Secures` for actions.
-/

namespace ScopedIR

variable {σ α β : Type}

/-- A fault other than that a temporary is not bound, unless the handler of calls itself answers with
it. -/
def Fault.Spares (cfg : Config σ) (f : Fault) : Prop :=
  ∀ t, f = .unbound t → IsTemp t → cfg.handler.FailsWith f

theorem Fault.Spares.of_isHeap {cfg : Config σ} {f : Fault} (h : f.isHeap = true) : f.Spares cfg := by
  rintro t rfl
  cases h

/-- The handler never answers nothing to a call that has a result. -/
def Config.Answers (cfg : Config σ) : Prop :=
  ∀ site receiver args calls reply calls', cfg.handler site receiver args calls = (.ok reply, calls') →
    site.hasResult = true → reply.outcome ≠ .void

/-- The name of a variable, or of a field of one. -/
def Writable (x : String) : Prop := Ordinary x ∨ ∃ o f, Ordinary o ∧ x = o ++ "." ++ f

theorem Writable.not_isTemp {x : String} (h : Writable x) : ¬ IsTemp x := by
  rcases h with h | ⟨o, f, -, rfl⟩
  · exact h.1
  · exact fun ht => absurd (by simp) ht.dot_notMem

namespace Exec

/-! ### Names that are known -/

/-- The temporaries among the names are bound, and so are those that open scopes release. No handler of a
block is pending. -/
structure Knows (X : List String) (m : Machine σ) : Prop where
  names : ∀ x ∈ X, IsTemp x → (m.vars.get? x).isSome = true
  registered : ∀ s ∈ m.scopes, ∀ x ∈ s.registered, IsTemp x → (m.vars.get? x).isSome = true
  handlers : m.handlers = []

variable {X Y Z : List String} {m m' : Machine σ} {cfg : Config σ} {x t : String}

namespace Knows

theorem mono (h : Knows X m) (hY : Y ⊆ X) : Knows Y m :=
  ⟨fun x hx => h.names x (hY hx), h.registered, h.handlers⟩

theorem insert (h : Knows X m) (t : String) (b : Binding) :
    Knows (t :: X) { m with vars := m.vars.insert t b } := by
  have hkeep : ∀ x, (m.vars.get? x).isSome = true → ((m.vars.insert t b).get? x).isSome = true := by
    intro x hx
    rw [FinMap.get?_insert]
    split
    · rfl
    · exact hx
  refine ⟨fun x hx ht => ?_, fun s hs x hx ht => hkeep x (h.registered s hs x hx ht), h.handlers⟩
  rcases List.mem_cons.1 hx with rfl | hx
  · rw [FinMap.get?_insert_self]
    rfl
  · exact hkeep x (h.names x hx ht)

theorem bound (h : Knows X m) (result : Option String) (b : Binding) :
    Knows (result.toList ++ X) (bound m result b) := by
  cases result with
  | none => exact h
  | some t => exact h.insert t b

/-- A temporary that is known is bound, so looking a name up spares temporaries. -/
theorem gives_lookup {post : Binding → Prop} (h : Knows X m) (hx : IsTemp x → x ∈ X)
    (hpost : ∀ b, post b) : Gives (Fault.Spares cfg) (m.lookup x) post := by
  cases hl : m.lookup x with
  | ok b => exact hpost b
  | error f =>
    rcases Machine.lookup_error hl with hf | ⟨rfl, hnone⟩
    · exact .of_isHeap hf
    · rintro t ⟨⟩ ht
      have hsome := h.names x (hx ht) ht
      rw [hnone] at hsome
      cases hsome

theorem register {k : String} {scopes : List OpenScope} (h : Knows X m) (hx : x ∈ X)
    (hr : Machine.registerIn k x m.scopes = some scopes) : Knows X { m with scopes } := by
  have hmem : ∀ {l l' : List OpenScope}, Machine.registerIn k x l = some l' →
      ∀ s ∈ l', ∀ y ∈ s.registered, y = x ∨ ∃ s ∈ l, y ∈ s.registered := by
    intro l
    induction l with
    | nil => exact fun hr => (by cases hr)
    | cons s outer ih =>
      intro l' hr s' hs' y hy
      rw [Machine.registerIn] at hr
      split at hr
      · cases hr
        rcases List.mem_cons.1 hs' with rfl | hs'
        · exact (List.mem_cons.1 hy).imp_right fun hy => ⟨s, List.mem_cons_self, hy⟩
        · exact .inr ⟨s', List.mem_cons_of_mem _ hs', hy⟩
      · obtain ⟨rest, hrest, rfl⟩ := Option.map_eq_some_iff.1 hr
        rcases List.mem_cons.1 hs' with rfl | hs'
        · exact .inr ⟨s', List.mem_cons_self, hy⟩
        · obtain rfl | ⟨s0, hs0, hy⟩ := ih hrest s' hs' y hy
          · exact .inl rfl
          · exact .inr ⟨s0, List.mem_cons_of_mem _ hs0, hy⟩
  refine ⟨h.names, fun s hs y hy ht => ?_, h.handlers⟩
  obtain rfl | ⟨s0, hs0, hy⟩ := hmem hr s hs y hy
  · exact h.names y hx ht
  · exact h.registered s0 hs0 y hy ht

end Knows

/-! ### Actions -/

/-- Where the names `X` are known, the action reads no temporary that is not bound, and after it the
names `Y` are known. -/
def Secures (cfg : Config σ) (X : List String) (a : Exec σ α) (Y : α → List String) : Prop :=
  ∀ m, Knows X m → Leads (Fault.Spares cfg) a m fun x m' => Knows (Y x) m'

namespace Secures

theorem mono {a : Exec σ α} {Y Y' : α → List String} (h : Secures cfg X a Y) (hX : X ⊆ Z)
    (hY : ∀ x, Y' x ⊆ Y x) : Secures cfg Z a Y' :=
  fun m hm => (h m (hm.mono hX)).mono fun x _ hx => hx.mono (hY x)

theorem pure (x : α) : Secures cfg X (Pure.pure x) fun _ => X := fun _ h => h

theorem fail {f : Fault} {Y : α → List String} (hf : f.Spares cfg) : Secures cfg X (Exec.fail f) Y :=
  fun _ _ => hf

theorem bind {a : Exec σ α} {f : α → Exec σ β} {Y : α → List String} {Z : β → List String}
    (h : Secures cfg X a Y) (hf : ∀ x, Secures cfg (Y x) (f x) Z) : Secures cfg X (a >>= f) Z :=
  fun m hm => leads_bind.2 ((h m hm).mono fun x m' hx => hf x m' hx)

theorem get_bind {f : Machine σ → Exec σ β} {Z : β → List String}
    (hf : ∀ m, Secures cfg X (f m) Z) : Secures cfg X (get >>= f) Z := fun m => hf m m

theorem ofExcept {e : Except Fault α} (he : ∀ f, e = .error f → f.isHeap = true) :
    Secures cfg X (Exec.ofExcept e) fun _ => X :=
  match e, he with
  | .ok x, _ => .pure x
  | .error f, he => .fail (.of_isHeap (he f rfl))

theorem lookup (hx : IsTemp x → x ∈ X) : Secures cfg X (Exec.lookup x) fun _ => X :=
  fun _ h => leads_lookup.2 (h.gives_lookup hx fun _ => h)

theorem primitive (hx : IsTemp x → x ∈ X) : Secures cfg X (Exec.primitive x) fun _ => X :=
  (lookup hx).bind fun b => match b with
    | .primitive _ => .pure _
    | .null => .fail nofun
    | .object _ => .fail nofun

theorem bindResult (result : Option String) (b : Binding) :
    Secures cfg X (Exec.bindResult result b) fun _ => result.toList ++ X :=
  fun _ h => leads_bindResult.2 (h.bound result b)

variable {i : Instr} {names : List String}

theorem required (part : Option α) : Secures cfg X (Exec.required i part) fun _ => X :=
  match part with
  | some x => .pure x
  | none => .fail nofun

theorem yield (i : Instr) (b : Binding) :
    Secures cfg X (Exec.yield i b) fun _ => i.result.toList ++ X :=
  (bindResult _ b).bind fun _ => .pure _

theorem allocate (f : Heap → Heap) : Secures cfg X (Exec.allocate f) fun _ => X :=
  fun _ h => ⟨h.names, h.registered, h.handlers⟩

theorem onHeap {f : Heap → Heap.Update} (hf : ∀ h e, (f h).1 = .error e → e.isHeap = true) :
    Secures cfg X (Exec.onHeap f) fun _ => X := by
  intro m h
  rw [leads_onHeap]
  cases he : (f m.heap).1 with
  | ok _ => exact ⟨h.names, h.registered, h.handlers⟩
  | error e => exact .of_isHeap (hf m.heap e he)

theorem store {target : String} (b : Binding) (ht : Writable target) :
    Secures cfg X (Exec.store target b) fun _ => X := by
  unfold Exec.store
  rcases ht with ht | ⟨o, f, ho, rfl⟩
  · rw [Layout.fieldPath?_eq_none ht.2]
    exact (bindResult (some target) b).mono (List.Subset.refl _) fun _ => List.subset_cons_self _ _
  · rw [Layout.fieldPath?_field ho.2]
    refine (lookup fun h => absurd h ho.1).bind fun holder => ?_
    cases holder with
    | null | primitive _ => exact .fail nofun
    | object id =>
      cases b with
      | null | object _ => exact onHeap fun _ _ => Heap.updateLive_error
      | primitive _ =>
        refine .fail ?_
        rintro t ⟨⟩ ht
        exact absurd ht (Writable.not_isTemp (.inr ⟨o, f, ho, rfl⟩))

theorem counted {a : Exec σ Control} (h : Secures cfg X a fun _ => X) :
    Secures cfg X (Exec.counted cfg a) fun _ => X := by
  unfold Exec.counted
  split
  · exact h
  · exact .pure _

theorem onObject {u : ObjectId → Heap → Heap.Update} (ho : i.operand? 0 = some x)
    (hx : IsTemp x → x ∈ X) (hu : ∀ id h e, (u id h).1 = .error e → e.isHeap = true) :
    Secures cfg X (Exec.onObject i u) fun _ => X := by
  intro m h
  rw [leads_onObject ho]
  refine h.gives_lookup hx fun b => ?_
  cases b with
  | null | primitive _ => exact h
  | object id => exact leads_onHeap.1 (onHeap (hu id) m h)

/-! ### Leaving scopes -/

theorem releaseNames (h : names ⊆ X) : Secures cfg X (Exec.releaseNames names) fun _ => X := by
  induction names with
  | nil => exact .pure _
  | cons x rest ih =>
    obtain ⟨hx, hrest⟩ := List.cons_subset.1 h
    refine (lookup fun _ => hx).bind fun b => ?_
    cases b with
    | object id => exact (onHeap fun _ _ => Heap.releaseAll_error).bind fun _ => ih hrest
    | null | primitive _ => exact ih hrest

theorem exitScope (k : String) : Secures cfg X (Exec.exitScope k) fun _ => X := by
  intro m h
  unfold Exec.exitScope
  rw [leads_bind, leads_get]
  cases hs : m.scopes with
  | nil => exact nofun
  | cons s outer =>
    change Leads _ (modify _ >>= fun _ => _) m _
    rw [leads_bind, leads_modify]
    split
    · -- what the scope registered is known for as long as the scope is open
      have hrelease : Knows (s.registered ++ X) { m with scopes := outer } := by
        refine ⟨fun x hx => ?_, fun s' hs' => h.registered s' (hs ▸ List.mem_cons_of_mem _ hs'),
          h.handlers⟩
        rcases List.mem_append.1 hx with hx | hx
        · exact h.registered s (hs ▸ List.mem_cons_self) x hx
        · exact h.names x hx
      exact ((releaseNames (List.subset_append_left _ _)).mono (List.Subset.refl _)
        fun _ => List.subset_append_right _ _) _ hrelease
    · exact nofun

theorem unwind (depth : Nat) : Secures cfg X (Exec.unwind Exec.exitScope depth) fun _ => X := by
  refine get_bind fun m => ?_
  generalize m.scopes.length - depth = n
  induction n with
  | zero => exact .pure _
  | succ n ih =>
    refine get_bind fun m => ?_
    split
    · exact .pure _
    · exact (exitScope _).bind fun _ => ih

/-! ### Calls -/

theorem receiver {site : CallSite} (h : i.opcode = .callStatic ∨ site.target ∈ X) :
    Secures cfg X (Exec.receiver i site) fun _ => X := by
  unfold Exec.receiver
  split
  · exact .pure _
  · next hs =>
    refine (lookup fun _ => h.resolve_left hs).bind fun b => ?_
    cases b with
    | null => exact .pure _
    | primitive _ => exact .fail nofun
    | object id =>
      exact get_bind fun m => (ofExcept fun _ => Heap.value_error).bind fun _ => .pure _

theorem arguments (h : ∀ a ∈ names, a ∈ X) : Secures cfg X (Exec.arguments i names) fun _ => X := by
  induction names with
  | nil => exact .pure _
  | cons x rest ih =>
    obtain ⟨hx, hrest⟩ := List.forall_mem_cons.1 h
    have hvalue : ∀ b, Secures cfg X (get >>= fun m : Machine σ => Exec.ofExcept (m.valueOf b) >>=
        fun v => Exec.arguments i rest >>= fun vs => Pure.pure (v :: vs)) fun _ => X :=
      fun b => get_bind fun m => (ofExcept fun _ => Machine.valueOf_error).bind fun _ =>
        (ih hrest).bind fun _ => .pure _
    refine (lookup fun _ => hx).bind fun b => ?_
    cases b with
    | primitive _ => exact .fail nofun
    | null | object id => exact hvalue _

theorem updating (target : Option ObjectId) (r : Receiver) :
    Secures cfg X (Exec.updating target r) fun _ => X :=
  match target, r with
  | some id, .object v => onHeap (f := fun h => h.setValue id v) fun _ _ => Heap.updateLive_error
  | some _, .static => .pure _
  | some _, .null => .pure _
  | none, _ => .pure _

end Secures

/-- What is known where control goes on, and where it leaves. -/
def knownAfter (X Y : List String) : Control → List String
  | .next => Y
  | _ => X

theorem knownAfter_of_ne {c : Control} (hc : c ≠ .next) : knownAfter X Y c = X := by
  cases c with
  | next => exact absurd rfl hc
  | _ => rfl

theorem knownAfter_subset (hXY : X ⊆ Y) (c : Control) : knownAfter X Y c ⊆ Y := by
  cases c with
  | next => exact List.Subset.refl _
  | _ => exact hXY

namespace Secures

theorem onward {a : Exec σ Control} (hXY : X ⊆ Y) (h : Secures cfg X a fun _ => Y) :
    Secures cfg X a (knownAfter X Y) := h.mono (List.Subset.refl _) (knownAfter_subset hXY)

/-- Go on where control goes on. Where it leaves, what was known at first is known. -/
theorem through {a : Exec σ Control} {W : List String} {next : Machine σ → Prop}
    (h : Secures cfg Y a (knownAfter Y Z)) (hX : X ⊆ Y) (hm : Knows Y m)
    (hnext : ∀ m', Knows Z m' → next m') :
    Leads (Fault.Spares cfg) a m fun c m' => Through c (next m') (Knows (knownAfter X W c) m') := by
  refine (h m hm).through hnext fun c m' hc h' => ?_
  rw [knownAfter_of_ne hc] at h' ⊢
  exact h'.mono hX

theorem call {i : Instr} {site : CallSite} (hanswers : cfg.Answers)
    (hr : i.result.isSome = true → site.hasResult = true)
    (ht : i.opcode = .callStatic ∨ site.target ∈ X) (ha : ∀ a ∈ site.args, a ∈ X) :
    Secures cfg X (Exec.call cfg i site) (knownAfter X (i.result.toList ++ X)) := by
  have hsub : X ⊆ i.result.toList ++ X := List.subset_append_right _ _
  rw [call_eq]
  refine (receiver ht).bind fun target => (arguments ha).bind fun args m h => ?_
  rw [leads_bind]
  unfold ask
  rw [leads_bind, leads_get]
  dsimp only
  rw [leads_bind, leads_modify, leads_ofExcept]
  cases hreply : (cfg.handler site target.1 args m.calls).1 with
  | error f => exact fun _ _ _ => ⟨site, target.1, args, m.calls, hreply⟩
  | ok reply =>
    have hconclude : Secures cfg X (concluding i.result reply.outcome)
        (knownAfter X (i.result.toList ++ X)) := by
      cases ho : reply.outcome with
      | void =>
        cases hi : i.result with
        | none => exact .onward (List.Subset.refl _) (.pure _)
        | some t =>
          exact absurd ho (hanswers site target.1 args m.calls reply _ (Prod.ext hreply rfl)
            (hr (by rw [hi]; rfl)))
      | object v =>
        exact .onward hsub ((allocate _).bind fun _ => (bindResult _ _).bind fun _ => .pure _)
      | primitive b => exact .onward hsub ((bindResult _ _).bind fun _ => .pure _)
      | throw v => exact (allocate _).bind fun _ _ h => h
    exact ((updating target.2 reply.receiver).bind fun _ => hconclude) _ ⟨h.names, h.registered, h.handlers⟩

/-- The end of a chain. -/
theorem finishChain {i : Instr} {returning : Option (ChainVariable (Exec σ Control))}
    {result : Option String} (hv : ∀ v ∈ returning, v.name ∈ X) (hx : ∀ x ∈ result, x ∈ X) :
    Secures cfg X (Exec.finishChain i returning result) fun _ => i.result.toList ++ X := by
  have hyield : ∀ x ∈ X, Secures cfg X (Exec.lookup x >>= fun b => Exec.bindResult i.result b >>=
      fun _ => Pure.pure Control.next) fun _ => i.result.toList ++ X :=
    fun x hx => (lookup fun _ => hx).bind fun _ => (bindResult _ _).bind fun _ => .pure _
  cases returning with
  | none =>
    cases result with
    | none => exact (bindResult _ _).bind fun _ => .pure _
    | some x => exact hyield x (hx x rfl)
  | some v =>
    cases result with
    | none => exact hyield v.name (hv v rfl)
    | some x =>
      have hassign : ∀ b, Secures cfg X (Exec.bindResult (some v.name) b) fun _ => X :=
        fun b => (bindResult _ b).mono (List.Subset.refl _) fun _ => List.subset_cons_self _ _
      exact (lookup fun _ => hx x rfl).bind fun b => (hassign b).bind fun _ =>
        hyield v.name (hv v rfl)

end Secures

end Exec

end ScopedIR
