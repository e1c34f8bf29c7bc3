import ScopedIR.Proofs.LoweredFlow
import ScopedIR.Proofs.WellFormed

/-!
# Generators that succeed

The counterpart of what every successful run of a generator ensures: that a run from a given state is
successful at all. A generator fails where an instruction lacks a name, a chain lacks a part, or the
state has no scope to work in, so its success rests on names that are not empty and on a state with
scopes open. Fresh names are never empty.

Main definitions:

* `Gen.Succeeds`: the generator succeeds, and its answer and the state it leaves satisfy a condition;
* `Gen.Reaches` and `Gen.Moves`: it does so from every state that is a given one up to fresh names;
* `State.Ready`: scopes are open and have names;
* `Code.Computes` and `Code.Valued`: the code of an expression succeeds in every such state, and has a
  value if it should.

Main statements: one for each form of expression, and `Expr.lower_computes`.
-/

namespace ScopedIR

open Lowering Layout

/-! ### Constructors of instructions -/

namespace Instr

variable {role x y : String} {opcode : Opcode} {result : Option String}

theorem named_ok {name : String} (h : name ≠ "") : named role name = .ok name :=
  (named_eq_ok_iff role name name).2 ⟨h, rfl⟩

theorem bare_ok {operands : List String} (h : result ≠ some "") :
    bare opcode result operands = .ok (simple none opcode operands result) := by
  unfold bare
  rw [if_neg h]
  rfl

/-- A form with one checked name. -/
theorem one_ok {f : String → List String} (hx : x ≠ "") :
    (do bare opcode none (f (← named role x))) = .ok (simple none opcode (f x) none) := by
  rw [named_ok hx]
  show bare opcode none (f x) = _
  exact bare_ok (by simp)

/-- A form with two checked names. -/
theorem two_ok {role' : String} {r : String → Option String} {f : String → String → List String}
    (hx : x ≠ "") (hy : y ≠ "") (hr : r x ≠ some "") :
    (do
      let x ← named role x
      bare opcode (r x) (f x (← named role' y))) = .ok (simple none opcode (f x y) (r x)) := by
  rw [named_ok hx]
  show (do bare opcode (r x) (f x (← named role' y))) = _
  rw [named_ok hy]
  exact bare_ok hr

theorem retain_ok (h : x ≠ "") : retain x = .ok (simple none .retain [x] none) :=
  one_ok h

theorem release_ok (h : x ≠ "") : release x = .ok (simple none .release [x] none) :=
  one_ok h

theorem assert_ok (h : x ≠ "") : assert x = .ok (simple none .assert [x] none) :=
  one_ok h

theorem throw_ok (h : x ≠ "") : throw x = .ok (simple none .throw [x] none) :=
  one_ok h

theorem scopeEnter_ok (h : x ≠ "") :
    scopeEnter x = .ok (simple none .scopeEnter [x] none) := one_ok h

theorem scopeExit_ok (h : x ≠ "") : scopeExit x = .ok (simple none .scopeExit [x] none) := one_ok h

theorem ret_ok (x : Option String) : ret x = .ok (simple none .ret x.toList none) :=
  bare_ok (by simp)

theorem store_ok (hx : x ≠ "") (hy : y ≠ "") :
    store x y = .ok (simple none .store [x, y] none) := two_ok hx hy (by simp)

theorem reference_ok (hx : x ≠ "") (hy : y ≠ "") :
    reference x y = .ok (simple none .reference [x, y] none) := two_ok hx hy (by simp)

theorem scopeRegister_ok (hx : x ≠ "") (hy : y ≠ "") :
    scopeRegister x y = .ok (simple none .scopeRegister [x, y] none) := two_ok hx hy (by simp)

theorem load_ok (hx : x ≠ "") (hy : y ≠ "") :
    load x y = .ok (simple none .load [y] (some x)) := two_ok hx hy (by simpa using hx)

theorem isNull_ok (hx : x ≠ "") (hy : y ≠ "") :
    isNull x y = .ok (simple none .isNull [y] (some x)) := two_ok hx hy (by simpa using hx)

theorem allocObject_ok (hx : x ≠ "") (hy : y ≠ "") :
    allocObject x y = .ok (simple none .allocObject [y] (some x)) :=
  two_ok hx hy (by simpa using hx)

theorem loadLiteral_ok {z : String} (hx : x ≠ "") (hz : z ≠ "") :
    loadLiteral x y z = .ok (simple none .loadLiteral [y, z] (some x)) :=
  two_ok hx hz (by simpa using hx)

theorem call_ok {site : CallSite} (hopcode : opcode.isCall = true) (hresult : result ≠ some "") :
    call opcode result site = .ok (calling none opcode result site) := by
  unfold call
  rw [hopcode, bare_ok hresult]
  rfl

theorem ofChain_ok {c : Chain Instr} (h : c.result ≠ some "") : ofChain c = .ok (chained none c) := by
  unfold ofChain
  rw [bare_ok h]
  rfl

theorem ofLogical_ok {result : String} {b : LogicalBlock Instr} (hresult : result ≠ "")
    (hleft : b.left ≠ "") (hcondition : b.condition ≠ "") (hright : b.right ≠ "")
    (hcomputed : b.result ≠ "") (hscope : b.scope ≠ "") :
    ofLogical result b = .ok (logicalBlock none result b) := by
  unfold ofLogical
  simp only [named_ok hleft, named_ok hcondition, named_ok hright, named_ok hcomputed,
    named_ok hscope, named_ok hresult]
  have hsome : (some result) ≠ some "" := by simpa using hresult
  show (bare _ (some result) [b.left, b.condition, b.right, b.result, b.scope] >>= _) = _
  rw [bare_ok hsome]
  rfl

end Instr

/-- What succeeds on every element succeeds on the list. -/
theorem exists_mapM {α β : Type} {f : α → Except Defect β} {l : List α}
    (h : ∀ a ∈ l, ∃ b, f a = .ok b) : ∃ r, l.mapM f = .ok r := by
  induction l with
  | nil => exact ⟨[], rfl⟩
  | cons a rest ih =>
    obtain ⟨b, hb⟩ := h a List.mem_cons_self
    obtain ⟨r, hr⟩ := ih fun a ha => h a (List.mem_cons_of_mem _ ha)
    rw [List.mapM_cons, hb, hr]
    exact ⟨b :: r, rfl⟩

namespace Ownership

variable {location : Option Location}

theorem sequence_ok {l : List (Except Defect Instr)} (h : ∀ e ∈ l, ∃ i, e = .ok i) :
    ∃ code, sequence location l = .ok code := by
  apply exists_mapM
  intro e he
  obtain ⟨i, rfl⟩ := h e he
  exact ⟨i.withLocation location, rfl⟩

variable {scope name value : String}

theorem register_ok {temp : String} (ht : temp ≠ "") (hs : scope ≠ "") :
    ∃ code, register location temp scope = .ok code := by
  apply sequence_ok
  simp [Instr.retain_ok ht, Instr.scopeRegister_ok ht hs]

theorem declare_ok {type : String} (hn : name ≠ "") (ht : type ≠ "") (hs : scope ≠ "") :
    ∃ code, declare location name type scope = .ok code := by
  apply sequence_ok
  simp [Instr.reference_ok hn ht, Instr.scopeRegister_ok hn hs]

theorem initialise_ok (hn : name ≠ "") (hv : value ≠ "") :
    ∃ code, initialise location name value = .ok code := by
  apply sequence_ok
  simp [Instr.store_ok hn hv, Instr.retain_ok hn]

theorem assign_ok (hn : name ≠ "") (hv : value ≠ "") :
    ∃ code, assign location name value = .ok code := by
  apply sequence_ok
  simp [Instr.retain_ok hv, Instr.release_ok hn, Instr.store_ok hn hv]

theorem exits_ok {scopes : List String} (h : ∀ k ∈ scopes, k ≠ "") :
    ∃ code, exits location scopes = .ok code := by
  apply sequence_ok
  intro e he
  obtain ⟨k, hk, rfl⟩ := List.mem_map.1 he
  exact ⟨_, Instr.scopeExit_ok (h k hk)⟩

end Ownership

theorem Chain.place_ok {c : Chain Instr} {guards : Option (GuardVariables Instr)}
    {location : Option Location} (hresult : c.result ≠ some "") (hscope : c.scope ≠ "")
    (hguards : ∀ g ∈ guards, g.scope ≠ "") : ∃ code, c.place guards location = .ok code := by
  unfold Chain.place
  rw [Instr.scopeEnter_ok hscope, Instr.ofChain_ok hresult, Instr.scopeExit_ok hscope]
  cases guards with
  | none => exact ⟨_, rfl⟩
  | some g =>
    simp only [Instr.scopeEnter_ok (hguards g rfl), Instr.scopeExit_ok (hguards g rfl)]
    exact ⟨_, rfl⟩

namespace Lowering

/-! ### The rules of success -/

namespace Gen

variable {α β : Type} {setting : Setting} {s : State}

/-- The generator succeeds, and its answer and the state it leaves satisfy `post`. -/
def Succeeds (g : Gen α) (setting : Setting) (s : State) (post : α → State → Prop) : Prop :=
  ∃ r, g.run setting s = .ok r ∧ post r.value r.state

variable {g : Gen α} {post : Unit → State → Prop} {e : Except Defect Instr}

theorem Succeeds.mono {post post' : α → State → Prop} (h : g.Succeeds setting s post)
    (hp : ∀ a s', post a s' → post' a s') : g.Succeeds setting s post' := by
  obtain ⟨r, hr, hpost⟩ := h
  exact ⟨r, hr, hp _ _ hpost⟩

theorem Succeeds.bind {g : Gen α} {f : α → Gen β} {mid : α → State → Prop}
    {post : β → State → Prop} (h : g.Succeeds setting s mid)
    (hf : ∀ a s', mid a s' → (f a).Succeeds setting s' post) : (g >>= f).Succeeds setting s post := by
  obtain ⟨a, ha, hmid⟩ := h
  obtain ⟨b, hb, hpost⟩ := hf _ _ hmid
  exact ⟨_, (run_bind_eq_ok_iff g f setting s _).2 ⟨a, b, ha, hb, rfl⟩, hpost⟩

theorem succeeds_bind {f : α → Gen β} {post : β → State → Prop}
    (h : g.Succeeds setting s fun a s' => (f a).Succeeds setting s' post) :
    (g >>= f).Succeeds setting s post :=
  h.bind fun _ _ hf => hf

theorem Succeeds.map {f : α → β} {post : β → State → Prop}
    (h : g.Succeeds setting s fun a s' => post (f a) s') : (f <$> g).Succeeds setting s post :=
  h.bind fun a s' ha => ⟨⟨f a, s', []⟩, rfl, ha⟩

theorem succeeds_pure {a : α} {post : α → State → Prop} (h : post a s) :
    (Pure.pure a : Gen α).Succeeds setting s post :=
  ⟨⟨a, s, []⟩, rfl, h⟩

theorem succeeds_ofExcept {e : Except Defect α} {a : α} {post : α → State → Prop} (he : e = .ok a)
    (h : post a s) : (ofExcept e).Succeeds setting s post := by
  subst he
  exact succeeds_pure h

theorem succeeds_setting {post : Setting → State → Prop} (h : post setting s) :
    Gen.setting.Succeeds setting s post :=
  ⟨⟨setting, s, []⟩, rfl, h⟩

theorem succeeds_state {post : State → State → Prop} (h : post s s) :
    Gen.state.Succeeds setting s post :=
  ⟨⟨s, s, []⟩, rfl, h⟩

theorem succeeds_update {f : State → State} {hf : ∀ s, (f s).temps = s.temps} (h : post () (f s)) :
    (update f hf).Succeeds setting s post :=
  ⟨⟨(), f s, []⟩, rfl, h⟩

theorem succeeds_tryUpdate {f : State → Except Defect State}
    {hf : ∀ {s s'}, f s = .ok s' → s'.temps = s.temps} {s' : State} (hs' : f s = .ok s')
    (h : post () s') : (tryUpdate f hf).Succeeds setting s post := by
  refine ⟨⟨(), s', []⟩, ?_, h⟩
  simp only [tryUpdate]
  rw [hs']

theorem succeeds_fresh {f : State → String × State} {hf : ∀ s, s.temps ≤ (f s).2.temps}
    {post : String → State → Prop} (h : post (f s).1 (f s).2) :
    (fresh f hf).Succeeds setting s post :=
  ⟨⟨(f s).1, (f s).2, []⟩, rfl, h⟩

theorem succeeds_location {token : Option Location} {post : Option Location → State → Prop}
    (h : post (setting.location token) s) : (location token).Succeeds setting s post :=
  ⟨⟨setting.location token, s, []⟩, rfl, h⟩

theorem succeeds_emitAll {e : Except Defect (List Instr)} (he : ∃ l, e = .ok l) (h : post () s) :
    (emitAll e).Succeeds setting s post := by
  obtain ⟨l, rfl⟩ := he
  exact ⟨⟨(), s, l⟩, rfl, h⟩

theorem succeeds_emitAt {location : Option Location} (he : ∃ i, e = .ok i) (h : post () s) :
    (emitAt location e).Succeeds setting s post := by
  obtain ⟨i, rfl⟩ := he
  exact ⟨⟨(), s, [i.withLocation location]⟩, rfl, h⟩

theorem succeeds_emit (he : ∃ i, e = .ok i) (h : post () s) : (emit e).Succeeds setting s post := by
  obtain ⟨i, rfl⟩ := he
  exact ⟨⟨(), s, [i]⟩, rfl, h⟩

/-- What a captured generator would have emitted does not matter. -/
theorem Succeeds.captured {post : α → State → Prop} (h : g.Succeeds setting s post) :
    (capture g).Succeeds setting s fun r s' => post r.1 s' := by
  obtain ⟨r, hr, hpost⟩ := h
  refine ⟨⟨(r.value, r.instrs), r.state, []⟩, ?_, hpost⟩
  simp only [capture]
  rw [hr]

/-- From every state that is `s` up to fresh names the generator succeeds, and its answer and the state
it leaves satisfy `post`. -/
def Reaches (g : Gen α) (setting : Setting) (s : State) (post : α → State → Prop) : Prop :=
  ∀ s', Same s s' → g.Succeeds setting s' post

/-- The answer is as `P` says, and the state that is left is `t` up to fresh names. -/
abbrev Moves (g : Gen α) (setting : Setting) (s : State) (P : α → Prop) (t : State) : Prop :=
  g.Reaches setting s fun a t' => P a ∧ Same t t'

/-- The state that is left is the one before, up to fresh names. -/
abbrev Stays (g : Gen α) (setting : Setting) (s : State) : Prop := g.Moves setting s (fun _ => True) s

namespace Reaches

variable {f : α → Gen β} {P : α → Prop} {t : State} {mid : α → State → Prop} {post : β → State → Prop}

theorem reach (h : g.Reaches setting s mid)
    (hf : ∀ a s1, mid a s1 → (f a).Reaches setting s1 post) : (g >>= f).Reaches setting s post :=
  fun s' hs => (h s' hs).bind fun a s1 ha => hf a s1 ha s1 (.refl s1)

theorem bind (h : g.Reaches setting s fun a t' => P a ∧ Same t t')
    (hf : ∀ a, P a → (f a).Reaches setting t post) : (g >>= f).Reaches setting s post :=
  fun s' hs => (h s' hs).bind fun a t' ha => hf a ha.1 t' ha.2

theorem mono {P' : α → Prop} (h : g.Reaches setting s fun a t' => P a ∧ Same t t')
    (hp : ∀ a, P a → P' a) : g.Moves setting s P' t :=
  fun s' hs => (h s' hs).mono fun a _ ha => ⟨hp a ha.1, ha.2⟩

theorem map {f : α → β} (h : g.Reaches setting s fun a => post (f a)) :
    (f <$> g).Reaches setting s post :=
  fun s' hs => .map (h s' hs)

theorem captured (h : g.Reaches setting s mid) : (capture g).Reaches setting s fun r => mid r.1 :=
  fun s' hs => (h s' hs).captured

/-- What a captured generator emits is answered. -/
theorem capturing {f : α × List Instr → Gen β} (h : g.Reaches setting s fun a t' => P a ∧ Same t t')
    (hf : ∀ a l, P a → (f (a, l)).Reaches setting t post) : (capture g >>= f).Reaches setting s post :=
  h.captured.bind fun r hr => hf r.1 r.2 hr

theorem pure {a : α} (h : P a) : (Pure.pure a : Gen α).Moves setting s P s :=
  fun _ hs => succeeds_pure ⟨h, hs⟩

/-- A construction that does not fail. -/
theorem check {e : Except Defect α} {a : α} (he : e = .ok a) (h : (f a).Reaches setting s post) :
    (ofExcept e >>= f).Reaches setting s post :=
  fun s' hs => succeeds_bind (succeeds_ofExcept he (h s' hs))

theorem ofSetting {f : Setting → Gen β} (h : (f setting).Reaches setting s post) :
    (Gen.setting >>= f).Reaches setting s post :=
  fun s' hs => succeeds_bind (succeeds_setting (h s' hs))

theorem ofState {f : State → Gen β} (h : ∀ s', Same s s' → (f s').Reaches setting s post) :
    (Gen.state >>= f).Reaches setting s post :=
  fun s' hs => succeeds_bind (succeeds_state (h s' hs s' hs))

theorem located {f : Option Location → Gen β} {token : Option Location}
    (h : (f (setting.location token)).Reaches setting s post) :
    (Gen.location token >>= f).Reaches setting s post :=
  fun s' hs => succeeds_bind (succeeds_location (h s' hs))

theorem update {f : State → State} {hf : ∀ s, (f s).temps = s.temps}
    (h : ∀ s', Same s s' → Same t (f s')) : (Gen.update f hf).Moves setting s (fun _ => True) t :=
  fun s' hs => succeeds_update ⟨trivial, h s' hs⟩

theorem tryUpdate {f : State → Except Defect State} {hf : ∀ {s s'}, f s = .ok s' → s'.temps = s.temps}
    (h : ∀ s', Same s s' → ∃ t', f s' = .ok t' ∧ Same t t') :
    (Gen.tryUpdate f hf).Moves setting s (fun _ => True) t := by
  intro s' hs
  obtain ⟨t', ht, hsame⟩ := h s' hs
  exact succeeds_tryUpdate ht ⟨trivial, hsame⟩

variable {location : Option Location}

theorem emitAll {e : Except Defect (List Instr)} (he : ∃ l, e = .ok l) :
    (Gen.emitAll e).Stays setting s :=
  fun _ hs => succeeds_emitAll he ⟨trivial, hs⟩

theorem emitAt {i : Instr} (he : e = .ok i) : (Gen.emitAt location e).Stays setting s :=
  fun _ hs => succeeds_emitAt ⟨i, he⟩ ⟨trivial, hs⟩

theorem emit {i : Instr} (he : e = .ok i) : (Gen.emit e).Stays setting s :=
  fun _ hs => succeeds_emit ⟨i, he⟩ ⟨trivial, hs⟩

end Reaches

end Gen

/-! ### States with scopes to work in -/

/-- Scopes are open, and each has a name. -/
structure State.Ready (s : State) : Prop where
  opened : s.scopes ≠ []
  named : ∀ frame ∈ s.scopes, frame.id ≠ ""

theorem State.Ready.same {s s' : State} (h : s.Ready) (hsame : Same s s') : s'.Ready := by
  constructor
  · rw [hsame.scopes]
    exact h.opened
  · rw [hsame.scopes]
    exact h.named

theorem State.Ready.currentScope {s : State} (h : s.Ready) :
    ∃ k, s.currentScope = .ok k ∧ k ≠ "" := by
  unfold State.currentScope
  cases hs : s.scopes with
  | nil => exact absurd hs h.opened
  | cons frame outer =>
    exact ⟨frame.id, rfl, h.named frame (by rw [hs]; exact List.mem_cons_self)⟩

theorem numbered_ne_empty {stem : String} (h : stem ≠ "") (n : Nat) : stem ++ Nat.repr n ≠ "" := by
  intro hempty
  exact h (String.append_eq_empty_iff.1 hempty).1

theorem State.temp_ne_empty (s : State) : s.temp.1 ≠ "" := numbered_ne_empty (by decide) _

theorem State.scopeId_ne_empty (s : State) : s.scopeId.1 ≠ "" := numbered_ne_empty (by decide) _

/-- A name that is not empty was answered, and the state is the same up to fresh names. -/
def Answers (s : State) (x : String) (s' : State) : Prop := x ≠ "" ∧ Same s s'

/-- A name that is not empty may have been answered, and was if there is a value. -/
structure AnswersIf (valued : Bool) (s : State) (r : Option String) (s' : State) : Prop where
  named : ∀ x ∈ r, x ≠ ""
  same : Same s s'
  isSome : valued = true → r.isSome = true

/-- An answer of a name that is not empty, which is there if `valued` says so. -/
def Named (valued : Bool) (r : Option String) : Prop :=
  (∀ x ∈ r, x ≠ "") ∧ (valued = true → r.isSome = true)

theorem named_some {x : String} (h : x ≠ "") (valued : Bool) : Named valued (some x) :=
  ⟨by simpa using h, fun _ => rfl⟩

open Gen

variable {setting : Setting} {s : State} {location : Option Location}

theorem temp_moves : Gen.temp.Moves setting s (· ≠ "") s :=
  fun s' hs => succeeds_fresh ⟨s'.temp_ne_empty, hs.scopes, hs.handlers, hs.finallyDepth⟩

theorem scopeId_moves : Gen.scopeId.Moves setting s (· ≠ "") s :=
  fun s' hs => succeeds_fresh ⟨s'.scopeId_ne_empty, hs.scopes, hs.handlers, hs.finallyDepth⟩

theorem currentScope_moves (h : s.Ready) : Gen.currentScope.Moves setting s (· ≠ "") s := by
  refine .ofState fun s' hs => ?_
  obtain ⟨k, hk, hne⟩ := (h.same hs).currentScope
  exact fun t ht => succeeds_ofExcept hk ⟨hne, ht⟩

/-! ### Objects, variables and calls -/

theorem own_moves (h : s.Ready) {temp : String} (ht : temp ≠ "") :
    (own location temp).Stays setting s :=
  (currentScope_moves h).bind fun _ hk => .emitAll (Ownership.register_ok ht hk)

theorem genLiteral_moves (h : s.Ready) {text type : String} (htype : type ≠ "") :
    (genLiteral location text type).Moves setting s (· ≠ "") s := by
  refine temp_moves.bind fun temp htemp => (currentScope_moves h).bind fun scope hscope => ?_
  refine .bind (.emitAt (Instr.loadLiteral_ok htemp htype)) fun _ _ => ?_
  exact .bind (.emitAll (Ownership.register_ok htemp hscope)) fun _ _ => .pure htemp

theorem genVar_moves {name : String} (hname : name ≠ "") :
    (genVar location name).Moves setting s (· ≠ "") s :=
  temp_moves.bind fun _ htemp => .bind (.emitAt (Instr.load_ok htemp hname)) fun _ _ => .pure htemp

/-- A call succeeds; it answers a name if it returns something. -/
theorem genCall_moves (h : s.Ready) {opcode : Opcode} (hopcode : opcode.isCall = true)
    (target : String) (symbol : Symbol) (args : List String) :
    (genCall location opcode target symbol args).Moves setting s
      (Named (symbol.returns ≠ TypeName.void)) s := by
  refine .ofSetting ?_
  dsimp only
  split
  · refine temp_moves.bind fun temp htemp => ?_
    refine .bind (.emitAt (Instr.call_ok hopcode (by simpa using htemp))) fun _ _ => ?_
    exact (own_moves h htemp).bind fun _ _ => .pure (named_some htemp _)
  · next hresult =>
    refine .bind (.emitAt (Instr.call_ok hopcode (by simp))) fun _ _ => .pure ?_
    exact ⟨by simp, fun hreturns => absurd hreturns hresult⟩

theorem boolean_ne_void : TypeName.boolean ≠ TypeName.void := by decide

variable {symbol operator : Symbol} {args items : List Code} {op : String} {left right : Code}
  {target : Option Code}

theorem genCallValue_moves (h : s.Ready) (target : String) (args : List String)
    (hreturns : symbol.returns ≠ TypeName.void) :
    (genCallValue target symbol args).Moves setting s (· ≠ "") s := by
  refine (genCall_moves h rfl target symbol args).bind fun r hr => ?_
  cases r with
  | none => exact absurd (hr.2 (decide_eq_true hreturns)) (by simp)
  | some x => exact .pure (hr.1 x rfl)

theorem genPrimitive_moves (value type : String) :
    (genPrimitive value type).Moves setting s (· ≠ "") s := by
  refine temp_moves.bind fun primitive hprimitive => .ofSetting ?_
  exact .bind (.emit (Instr.call_ok rfl (by simpa using hprimitive))) fun _ _ => .pure hprimitive

/-! ### The code of expressions -/

namespace Code

/-- The code succeeds wherever scopes are open; it has a value if `valued` says so. -/
def Computes (valued : Bool) (c : Code) : Prop :=
  ∀ setting s, s.Ready → c.gen.Succeeds setting s (AnswersIf valued s)

/-- The code succeeds wherever scopes are open, and has a value. -/
def Valued (c : Code) : Prop :=
  ∀ setting s, s.Ready → c.value.Succeeds setting s (Answers s)

variable {c : Code} {needed : Bool}

theorem computes_iff : c.Computes needed ↔
    ∀ {setting s}, s.Ready → c.gen.Moves setting s (Named needed) s := by
  constructor
  · exact fun h setting s hs s' hsame => (h setting s' (hs.same hsame)).mono fun r t hr =>
      ⟨⟨hr.named, hr.isSome⟩, hsame.trans hr.same⟩
  · exact fun h setting s hs => (h hs s (.refl s)).mono fun r t hr => ⟨hr.1.1, hr.2, hr.1.2⟩

theorem valued_iff : c.Valued ↔ ∀ {setting s}, s.Ready → c.value.Moves setting s (· ≠ "") s := by
  constructor
  · exact fun h setting s hs s' hsame => (h setting s' (hs.same hsame)).mono fun x t hx =>
      ⟨hx.1, hsame.trans hx.2⟩
  · exact fun h setting s hs => h hs s (.refl s)

theorem Computes.moves (h : c.Computes needed) (hs : s.Ready) :
    c.gen.Moves setting s (Named needed) s := computes_iff.1 h hs

theorem Valued.moves (h : c.Valued) (hs : s.Ready) : c.value.Moves setting s (· ≠ "") s :=
  valued_iff.1 h hs

theorem Computes.valued (h : c.Computes true) : c.Valued := by
  refine valued_iff.2 fun hs => (h.moves hs).bind fun r hr => ?_
  cases r with
  | none => cases hr.2 rfl
  | some x => exact .pure (hr.1 x rfl)

theorem Computes.of_some {g : Gen String} (valued : Bool) (hg : c.gen = some <$> g)
    (h : ∀ {setting s}, s.Ready → g.Moves setting s (· ≠ "") s) : c.Computes valued := by
  refine computes_iff.2 fun hs => ?_
  rw [hg]
  exact .map ((h hs).mono fun _ hx => named_some hx valued)

theorem values_moves {args : List Code} (hargs : ∀ c ∈ args, c.Valued) (h : s.Ready) :
    (values args).Stays setting s := by
  induction args with
  | nil => exact .pure trivial
  | cons c rest ih =>
    refine ((hargs c List.mem_cons_self).moves h).bind fun _ _ => ?_
    exact (ih fun c hc => hargs c (List.mem_cons_of_mem _ hc)).bind fun _ _ => .pure trivial

end Code

theorem genConstruct_moves (hargs : ∀ c ∈ args, c.Valued) (howner : symbol.owner ≠ "")
    (h : s.Ready) : (genConstruct location symbol args).Moves setting s (· ≠ "") s := by
  refine (Code.values_moves hargs h).bind fun names _ => temp_moves.bind fun object hobject => ?_
  refine (currentScope_moves h).bind fun scope hscope => ?_
  refine .bind (.emitAt (Instr.allocObject_ok hobject howner)) fun _ _ => ?_
  refine .bind (.emitAll (Ownership.register_ok hobject hscope)) fun _ _ => ?_
  exact (genCall_moves h rfl object (initOf symbol) names).bind fun _ _ => .pure hobject

theorem genItems_moves (hitems : ∀ c ∈ items, c.Valued) (list : String) (h : s.Ready) :
    (genItems location list items).Stays setting s := by
  induction items with
  | nil => exact .pure trivial
  | cons c rest ih =>
    refine ((hitems c List.mem_cons_self).moves h).bind fun x _ => ?_
    refine (genCall_moves h rfl list _ [x]).bind fun _ _ => ?_
    exact ih fun c hc => hitems c (List.mem_cons_of_mem _ hc)

theorem genList_moves (hitems : ∀ c ∈ items, c.Valued) (h : s.Ready) :
    (genList location items).Moves setting s (· ≠ "") s :=
  (genConstruct_moves (by simp) (by decide) h).bind fun list hlist =>
    (genItems_moves hitems list h).bind fun _ _ => .pure hlist

theorem checkOperator_ok (h : Operator.Resolved op operator) :
    checkOperator op operator = .ok () := by
  unfold checkOperator operatorMethod
  rw [h]
  simp [bind, Except.bind]
  rfl

theorem genBinary_moves (hop : Operator.Resolved op operator) (hleft : left.Valued)
    (hright : right.Valued) (h : s.Ready) :
    (genBinary location op left right operator).Moves setting s
      (Named (operator.returns ≠ TypeName.void)) s :=
  .check (checkOperator_ok hop) ((hleft.moves h).bind fun x _ => (hright.moves h).bind fun y _ =>
    genCall_moves h rfl x operator [y])

theorem genUnary_moves {operand : Code} (hop : Operator.Resolved op operator)
    (hoperand : operand.Valued) (h : s.Ready) :
    (genUnary location op operand operator).Moves setting s
      (Named (operator.returns ≠ TypeName.void)) s :=
  .check (checkOperator_ok hop) ((hoperand.moves h).bind fun x _ => genCall_moves h rfl x operator [])

theorem buildCondition_ok {ι : Type} {evaluation : List ι} {result : Option String}
    {primitive : String} (h : primitive ≠ "") :
    CaseCondition.build evaluation result primitive = .ok { evaluation, result, primitive } := by
  unfold CaseCondition.build
  rw [if_neg (by simpa using h)]

theorem question_ok (result : String) {scope : String} {condition : CaseCondition Instr}
    {setCase nullBody : CaseBody Instr} (hscope : scope ≠ "") :
    ∃ c, Chain.question result (Case.build .nullCheck (some scope) condition nullBody) setCase
      scope = .ok c ∧ c.result = some result := by
  unfold Chain.question Chain.start
  rw [if_neg (by simpa using hscope)]
  exact ⟨_, rfl, rfl⟩

theorem genIsSet_moves {operand : String} (hoperand : operand ≠ "") (type : String)
    (h : s.Ready) : (genIsSet location operand type).Moves setting s (· ≠ "") s := by
  refine (currentScope_moves h).bind fun scope hscope => temp_moves.bind fun isNull hisNull => ?_
  refine .check (Instr.isNull_ok hisNull hoperand) (.check (buildCondition_ok hisNull) ?_)
  refine (genLiteral_moves h (by decide)).captured.bind fun unset _ => ?_
  have hmethod : operatorMethod "?" = .ok "_isSet" := by decide +kernel
  refine .check hmethod ?_
  refine (genCallValue_moves h operand [] boolean_ne_void).captured.bind fun set _ => ?_
  refine temp_moves.bind fun result hresult => ?_
  obtain ⟨chain, hchain, hchainResult⟩ := question_ok result hscope
  refine .check hchain (.bind (.emitAt (Instr.ofChain_ok ?_)) fun _ _ => .pure hresult)
  rw [hchainResult]
  simpa using hresult

/-- The value of an object and its primitive truth. -/
theorem valueAndPrimitive_moves {c : Code} (hc : c.Valued) (h : s.Ready) :
    (do
      let value ← c.value
      return (value, ← genPrimitive value c.type)).Moves setting s (fun r => r.1 ≠ "" ∧ r.2 ≠ "") s :=
  (hc.moves h).bind fun value hvalue => (genPrimitive_moves value c.type).bind fun _ hprimitive =>
    .pure ⟨hvalue, hprimitive⟩

theorem genLogical_moves (op : LogicalOp) (hleft : left.Valued) (hright : right.Valued)
    (h : s.Ready) : (genLogical location op left right).Moves setting s (· ≠ "") s := by
  refine (currentScope_moves h).bind fun scope hscope => ?_
  refine (valueAndPrimitive_moves hleft h).captured.bind fun l hl => ?_
  refine (hright.moves h).captured.bind fun r hr => ?_
  obtain ⟨method, hmethod⟩ : ∃ method, operatorMethod (logicalSymbol op) = .ok method := by
    cases op
    · exact ⟨"_and", by decide +kernel⟩
    · exact ⟨"_or", by decide +kernel⟩
  refine .check hmethod ?_
  refine (genCallValue_moves h l.1.1 [r.1] boolean_ne_void).captured.bind fun combined hcombined => ?_
  refine temp_moves.bind fun result hresult => ?_
  exact .bind (.emitAt (Instr.ofLogical_ok hresult hl.1 hl.2 hr hcombined hscope)) fun _ _ =>
    .pure hresult

theorem genTarget_moves (hconstructor : symbol.isConstructor = false)
    (htarget : ∀ c ∈ target, c.Computes symbol.needsReceiver) (h : s.Ready) :
    (genTarget symbol target).Moves setting s (fun r => r.1.isCall = true) s := by
  cases target with
  | none => exact .pure rfl
  | some c =>
    have hc := htarget c rfl
    unfold Symbol.needsReceiver at hc
    rw [hconstructor] at hc
    unfold genTarget
    dsimp only
    cases hdispatch : symbol.dispatch with
    | static => exact (hc.moves h).bind fun _ _ => .pure rfl
    | dispatcher =>
      rw [hdispatch] at hc
      exact (hc.valued.moves h).bind fun _ _ => .pure rfl
    | method =>
      rw [hdispatch] at hc
      exact (hc.valued.moves h).bind fun _ _ => .pure (by cases symbol.traitMember <;> rfl)

theorem genApply_moves (htarget : ∀ c ∈ target, c.Computes symbol.needsReceiver)
    (hargs : ∀ c ∈ args, c.Valued) (howner : symbol.isConstructor = true → symbol.owner ≠ "")
    (h : s.Ready) :
    (genApply location target symbol args).Moves setting s
      (Named (symbol.isConstructor || symbol.returns ≠ TypeName.void)) s := by
  unfold genApply
  by_cases hconstructor : symbol.isConstructor = true
  · rw [if_pos hconstructor]
    have hconstruct : (some <$> genConstruct location symbol args).Moves setting s
        (Named (symbol.isConstructor || symbol.returns ≠ TypeName.void)) s :=
      .map ((genConstruct_moves hargs (howner hconstructor) h).mono fun _ hx => named_some hx _)
    cases target with
    | none => exact hconstruct
    | some c => exact ((htarget c rfl).moves h).bind fun _ _ => hconstruct
  · rw [if_neg hconstructor]
    rw [Bool.not_eq_true] at hconstructor
    refine (genTarget_moves hconstructor htarget h).bind fun t hcall => ?_
    refine (Code.values_moves hargs h).bind fun names _ => ?_
    rw [hconstructor, Bool.false_or]
    exact genCall_moves h hcall t.2 symbol names

/-! ### Code without a place in the source -/

namespace Code

theorem Computes.of_true {c : Code} (h : c.Computes true) (valued : Bool) : c.Computes valued :=
  computes_iff.2 fun hs => (h.moves hs).mono fun _ hr => ⟨hr.1, fun _ => hr.2 rfl⟩

variable {name : String}

theorem ofVar_computes (hname : name ≠ "") (type : String) : (ofVar name type).Computes true :=
  .of_some true rfl fun _ => genVar_moves hname

theorem ofLiteral_computes (text : String) {type : String} (htype : type ≠ "") :
    (ofLiteral text type).Computes true :=
  .of_some true rfl fun h => genLiteral_moves h htype

theorem ofCall_computes {target : Code} {symbol : Symbol} {args : List Code}
    (htarget : target.Computes true) (hargs : ∀ c ∈ args, c.Valued)
    (hconstructor : symbol.isConstructor = false) (hreturns : symbol.returns ≠ TypeName.void) :
    (ofCall target symbol args).Computes true := by
  refine computes_iff.2 fun {setting s} h => ?_
  have happly : (genApply none (some target) symbol args).Moves setting s
      (Named (symbol.isConstructor || symbol.returns ≠ TypeName.void)) s := by
    refine genApply_moves ?_ hargs (by simp [hconstructor]) h
    rintro c ⟨⟩
    exact htarget.of_true _
  rw [decide_eq_true hreturns, Bool.or_true] at happly
  exact happly

theorem guarded_valued (hname : name ≠ "") (type : String) {condition : Code}
    (hcondition : condition.Valued) : (guarded name type condition).Valued := by
  refine Computes.valued (.of_some true rfl fun h => genLogical_moves .and ?_ hcondition h)
  refine Computes.valued (computes_iff.2 fun h => ?_)
  refine ((ofVar_computes hname type).valued.moves h).bind fun value hvalue => .map ?_
  exact (genIsSet_moves hvalue type h).mono fun _ hx => named_some hx true

end Code

end Lowering

/-! ### Expressions -/

namespace Expr

open Gen

mutual

/-- The code of a well-formed expression succeeds. -/
theorem lower_computes (e : Expr) (h : e.WellFormed) : e.lower.Computes e.hasValue := by
  refine Code.computes_iff.2 fun hs => ?_
  cases e <;> simp only [WellFormed] at h <;> simp only [lower] <;> refine .located ?_
  case literal info text | enumConstant info constant =>
    exact .map ((genLiteral_moves hs h).mono fun _ hx => named_some hx _)
  case var info name => exact .map ((genVar_moves h).mono fun _ hx => named_some hx _)
  case binary info op left right operator =>
    exact genBinary_moves h.1 (lower_valued left h.2.1) (lower_valued right h.2.2) hs
  case unary info op operand operator => exact genUnary_moves h.1 (lower_valued operand h.2) hs
  case isSet info operand =>
    refine ((lower_valued operand h).moves hs).bind fun value hvalue => .map ?_
    exact (genIsSet_moves hvalue operand.type hs).mono fun _ hx => named_some hx _
  case logical info op left right =>
    refine .map ((genLogical_moves op ?_ ?_ hs).mono fun _ hx => named_some hx _)
    · exact lower_valued left h.1
    · exact lower_valued right h.2
  case call info target symbol args =>
    exact genApply_moves (lowerTarget_computes target h.2.1) (lowerAll_valued args h.2.2) h.1 hs
  case list info items =>
    exact .map ((genList_moves (lowerAll_valued items h) hs).mono fun _ hx => named_some hx _)
  case field info object name =>
    exact .map ((genVar_moves (by simp)).mono fun _ hx => named_some hx _)

theorem lower_valued (e : Expr) (h : e.hasValue = true ∧ e.WellFormed) : e.lower.Valued := by
  have he := lower_computes e h.2
  rw [h.1] at he
  exact he.valued

theorem lowerTarget_computes {needed : Bool} (target : Option Expr)
    (h : TargetWellFormed needed target) : ∀ c ∈ lowerTarget target, c.Computes needed := by
  cases target with
  | none => exact nofun
  | some e =>
    simp only [TargetWellFormed] at h
    rintro c ⟨⟩
    refine Code.computes_iff.2 fun hs => ((lower_computes e h.1).moves hs).mono fun r hr => ?_
    exact ⟨hr.1, fun hneeded => hr.2 (h.2 hneeded)⟩

theorem lowerAll_valued (l : List Expr) (h : AllValues l) : ∀ c ∈ lowerAll l, c.Valued := by
  cases l with
  | nil => exact nofun
  | cons e rest =>
    simp only [AllValues] at h
    intro c hc
    simp only [lowerAll, List.mem_cons] at hc
    rcases hc with rfl | hc
    · exact lower_valued e h.1
    · exact lowerAll_valued rest h.2 c hc

end

theorem IsValue.lower_valued {e : Expr} (h : e.IsValue) : e.lower.Valued := e.lower_valued h

end Expr

end ScopedIR
