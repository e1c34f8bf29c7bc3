import ScopedIR.Lowering.Module

/-!
# Reasoning about generators

What holds of every successful run of a generator. A generator ensures a property of its answer, of
the state it leaves and of the instructions it emits; a failing generator ensures everything. There
is one rule for each way generators are put together, so a proof about a generator follows its text.

Main definition: `Gen.Ensures`.

Main statements: `Gen.ensures_bind` for a sequence and `Gen.ensures_capture` for code that becomes a
value, and the inversions of the constructors of instructions, such as `Instr.retain_eq_ok`.
-/

namespace ScopedIR

/-- A sequence of computations that may fail succeeds exactly when both parts do. -/
theorem except_bind_eq_ok {ε α β : Type} {x : Except ε α} {f : α → Except ε β} {b : β} :
    (x >>= f) = .ok b ↔ ∃ a, x = .ok a ∧ f a = .ok b := by
  cases x with
  | error e | ok a => simp [bind, Except.bind]

theorem except_map_eq_ok {ε α β : Type} {x : Except ε α} {f : α → β} {b : β} :
    x.map f = .ok b ↔ ∃ a, x = .ok a ∧ f a = b := by
  cases x with
  | error e | ok a => simp [Except.map]

theorem toOption_eq_some {ε α : Type} {x : Except ε α} {y : α} (h : x.toOption = some y) :
    x = .ok y := by
  cases x <;> cases h
  rfl

/-- The state of lowering in a new scope. -/
abbrev Lowering.State.inside (s : State) : State := s.scopeId.2.enterScope s.scopeId.1

namespace Lowering.Gen

variable {α β : Type} {setting : Setting} {s : State}

/-- Whenever the generator succeeds, its answer, the state it leaves and the instructions it emits
satisfy `post`. -/
def Ensures (g : Gen α) (setting : Setting) (s : State) (post : α → State → List Instr → Prop) :
    Prop :=
  ∀ r, g.run setting s = .ok r → post r.value r.state r.instrs

variable {g : Gen α} {post post' : α → State → List Instr → Prop}

theorem Ensures.mono (h : g.Ensures setting s post)
    (hp : ∀ a s' l, post a s' l → post' a s' l) : g.Ensures setting s post' :=
  fun r hr => hp _ _ _ (h r hr)

/-! ### Sequences -/

theorem ensures_of_run
    (h : ∀ a s' l, g.run setting s = .ok ⟨a, s', l⟩ → post a s' l) : g.Ensures setting s post :=
  fun r hr => h r.value r.state r.instrs hr

theorem Ensures.of_run {a : α} {s' : State} {l : List Instr}
    (h : g.Ensures setting s post) (hr : g.run setting s = .ok ⟨a, s', l⟩) :
    post a s' l := h _ hr

theorem Ensures.and (h : g.Ensures setting s post)
    (h' : g.Ensures setting s post') :
    g.Ensures setting s fun a s' l => post a s' l ∧ post' a s' l := fun r hr => ⟨h r hr, h' r hr⟩

theorem ensures_pure {a : α} :
    (pure a : Gen α).Ensures setting s post ↔ post a s [] := by
  constructor
  · intro h
    exact h ⟨a, s, []⟩ rfl
  · intro h r hr
    cases hr
    exact h

theorem ensures_bind {f : α → Gen β} {post : β → State → List Instr → Prop} :
    (g >>= f).Ensures setting s post ↔
      g.Ensures setting s fun a s1 l1 =>
        (f a).Ensures setting s1 fun b s2 l2 => post b s2 (l1 ++ l2) := by
  constructor
  · intro h a ha b hb
    exact h { b with instrs := a.instrs ++ b.instrs }
      ((run_bind_eq_ok_iff g f setting s _).2 ⟨a, b, ha, hb, rfl⟩)
  · intro h r hr
    obtain ⟨a, b, ha, hb, rfl⟩ := (run_bind_eq_ok_iff g f setting s r).1 hr
    exact h a ha b hb

theorem Ensures.bind {f : α → Gen β}
    {post' : β → State → List Instr → Prop} (h : g.Ensures setting s post)
    (hf : ∀ a s1 l1, post a s1 l1 →
      (f a).Ensures setting s1 fun b s2 l2 => post' b s2 (l1 ++ l2)) :
    (g >>= f).Ensures setting s post' := ensures_bind.2 (h.mono hf)

theorem ensures_map {f : α → β} {post : β → State → List Instr → Prop} :
    (f <$> g).Ensures setting s post ↔ g.Ensures setting s fun a s' l => post (f a) s' l := by
  change (g >>= fun a => pure (f a)).Ensures setting s post ↔ _
  rw [ensures_bind]
  simp only [ensures_pure, List.append_nil]

theorem ensures_fail {d : Defect} :
    (fail d : Gen α).Ensures setting s post ↔ True :=
  ⟨fun _ => trivial, fun _ _ hr => by cases hr⟩

theorem ensures_ofExcept {e : Except Defect α} :
    (ofExcept e).Ensures setting s post ↔ ∀ a, e = .ok a → post a s [] := by
  cases e with
  | error d => simp [ofExcept, ensures_fail]
  | ok a => simp [ofExcept, ensures_pure]

/-! ### The setting and the state -/

theorem ensures_setting {post : Setting → State → List Instr → Prop} :
    Gen.setting.Ensures setting s post ↔ post setting s [] :=
  ⟨fun h => h ⟨setting, s, []⟩ rfl, fun h _ hr => by cases hr; exact h⟩

theorem ensures_state {post : State → State → List Instr → Prop} :
    Gen.state.Ensures setting s post ↔ post s s [] :=
  ⟨fun h => h ⟨s, s, []⟩ rfl, fun h _ hr => by cases hr; exact h⟩

variable {post : Unit → State → List Instr → Prop} {id : String} {e : Except Defect Instr}

theorem ensures_update {f : State → State} {hf : ∀ s, (f s).temps = s.temps} :
    (update f hf).Ensures setting s post ↔ post () (f s) [] :=
  ⟨fun h => h ⟨(), f s, []⟩ rfl, fun h _ hr => by cases hr; exact h⟩

theorem ensures_tryUpdate {f : State → Except Defect State}
    {hf : ∀ {s s'}, f s = .ok s' → s'.temps = s.temps} :
    (tryUpdate f hf).Ensures setting s post ↔ ∀ s', f s = .ok s' → post () s' [] := by
  simp only [Ensures, tryUpdate]
  cases f s with
  | error d => simp
  | ok s' =>
    constructor
    · intro hr t ht
      cases ht
      exact hr ⟨(), s', []⟩ rfl
    · intro hp r hr
      cases hr
      exact hp s' rfl

theorem ensures_temp {post : String → State → List Instr → Prop} :
    temp.Ensures setting s post ↔ post s.temp.1 s.temp.2 [] :=
  ⟨fun h => h ⟨s.temp.1, s.temp.2, []⟩ rfl, fun h _ hr => by cases hr; exact h⟩

theorem ensures_scopeId {post : String → State → List Instr → Prop} :
    scopeId.Ensures setting s post ↔ post s.scopeId.1 s.scopeId.2 [] :=
  ⟨fun h => h ⟨s.scopeId.1, s.scopeId.2, []⟩ rfl, fun h _ hr => by cases hr; exact h⟩

theorem ensures_currentScope {post : String → State → List Instr → Prop} :
    currentScope.Ensures setting s post ↔ ∀ k, s.currentScope = .ok k → post k s [] := by
  unfold currentScope
  rw [ensures_bind, ensures_state, ensures_ofExcept]
  simp

theorem ensures_enterScope :
    (enterScope id).Ensures setting s post ↔ post () (s.enterScope id) [] :=
  ensures_update

theorem ensures_exitScope :
    (exitScope id).Ensures setting s post ↔ ∀ s', s.exitScope id = .ok s' → post () s' [] :=
  ensures_tryUpdate

theorem ensures_declare {name type : String} {isParam : Bool} :
    (Gen.declare name type isParam).Ensures setting s post ↔
      ∀ s', s.declare name type isParam = .ok s' → post () s' [] :=
  ensures_tryUpdate

theorem ensures_location {token : Option Location}
    {post : Option Location → State → List Instr → Prop} :
    (location token).Ensures setting s post ↔ post (setting.location token) s [] := by
  unfold location
  rw [ensures_bind, ensures_setting, ensures_pure]
  simp

/-! ### Emitted code -/

theorem ensures_emitAll {e : Except Defect (List Instr)} :
    (emitAll e).Ensures setting s post ↔ ∀ l, e = .ok l → post () s l := by
  cases e with
  | error d | ok l => simp [Ensures, emitAll]

theorem ensures_emit : (emit e).Ensures setting s post ↔ ∀ i, e = .ok i → post () s [i] := by
  unfold emit
  rw [ensures_emitAll]
  cases e with
  | error d | ok i => simp [Except.map]

theorem ensures_emitAt {location : Option Location} :
    (emitAt location e).Ensures setting s post ↔
      ∀ i, e = .ok i → post () s [i.withLocation location] := by
  unfold emitAt
  rw [ensures_emit]
  cases e with
  | error d | ok i => simp [Except.map]

/-- What a captured generator would have emitted is part of its answer. -/
theorem ensures_capture {post : α × List Instr → State → List Instr → Prop} :
    (capture g).Ensures setting s post ↔
      g.Ensures setting s fun a s' l => post (a, l) s' [] := by
  simp only [Ensures, capture]
  cases g.run setting s with
  | error d | ok a => simp

/-! ### The steps of a generator, one after the other -/

namespace Ensures

variable {f : Unit → Gen β} {h : String → Gen β} {post : β → State → List Instr → Prop}
  {location : Option Location} {i : Instr} {l : List Instr} {k : String}

theorem pure {b : β} (hp : post b s []) : (Pure.pure b : Gen β).Ensures setting s post :=
  ensures_pure.2 hp

theorem fail {d : Defect} : (Gen.fail d : Gen β).Ensures setting s post := ensures_fail.2 trivial

theorem ofExcept {x : Except Defect α} {f : α → Gen β}
    (hf : ∀ a, x = .ok a → (f a).Ensures setting s post) :
    (Gen.ofExcept x >>= f).Ensures setting s post := ensures_bind.2 (ensures_ofExcept.2 hf)

/-- A construction that has one result. -/
theorem check {x : Except Defect α} {a : α} {f : α → Gen β} (hx : ∀ {b}, x = .ok b → b = a)
    (hf : (f a).Ensures setting s post) : (Gen.ofExcept x >>= f).Ensures setting s post := by
  refine .ofExcept fun b hb => ?_
  obtain rfl := hx hb
  exact hf

theorem temp (hf : (h s.temp.1).Ensures setting s.temp.2 post) :
    (Gen.temp >>= h).Ensures setting s post := ensures_bind.2 (ensures_temp.2 hf)

theorem scopeId (hf : (h s.scopeId.1).Ensures setting s.scopeId.2 post) :
    (Gen.scopeId >>= h).Ensures setting s post := ensures_bind.2 (ensures_scopeId.2 hf)

theorem inScope (hk : s.currentScope = .ok k) (hf : (h k).Ensures setting s post) :
    (Gen.currentScope >>= h).Ensures setting s post := by
  refine ensures_bind.2 (ensures_currentScope.2 fun k' hk' => ?_)
  obtain rfl : k = k' := Except.ok.inj (hk.symm.trans hk')
  exact hf

theorem currentScope (hf : ∀ k, s.currentScope = .ok k → (h k).Ensures setting s post) :
    (Gen.currentScope >>= h).Ensures setting s post := ensures_bind.2 (ensures_currentScope.2 hf)

theorem ofSetting {f : Setting → Gen β} (hf : (f setting).Ensures setting s post) :
    (Gen.setting >>= f).Ensures setting s post := ensures_bind.2 (ensures_setting.2 hf)

theorem state {f : State → Gen β} (hf : (f s).Ensures setting s post) :
    (Gen.state >>= f).Ensures setting s post := ensures_bind.2 (ensures_state.2 hf)

theorem located {f : Option Location → Gen β} {token : Option Location}
    (hf : (f (setting.location token)).Ensures setting s post) :
    (Gen.location token >>= f).Ensures setting s post := ensures_bind.2 (ensures_location.2 hf)

theorem enterScope (hf : (f ()).Ensures setting (s.enterScope k) post) :
    (Gen.enterScope k >>= f).Ensures setting s post := ensures_bind.2 (ensures_enterScope.2 hf)

theorem exitScope (hf : ∀ s', s.exitScope k = .ok s' → (f ()).Ensures setting s' post) :
    (Gen.exitScope k >>= f).Ensures setting s post := ensures_bind.2 (ensures_exitScope.2 hf)

theorem declare {name type : String} {isParam : Bool}
    (hf : ∀ s', s.declare name type isParam = .ok s' → (f ()).Ensures setting s' post) :
    (Gen.declare name type isParam >>= f).Ensures setting s post :=
  ensures_bind.2 (ensures_declare.2 hf)

theorem captured {f : α × List Instr → Gen β}
    (hf : g.Ensures setting s fun a s' l => (f (a, l)).Ensures setting s' post) :
    (Gen.capture g >>= f).Ensures setting s post := ensures_bind.2 (ensures_capture.2 hf)

theorem lastAll {x : Except Defect (List Instr)} {post : Unit → State → List Instr → Prop}
    (hx : ∀ {l'}, x = .ok l' → l' = l) (hp : post () s l) :
    (Gen.emitAll x).Ensures setting s post := by
  refine ensures_emitAll.2 fun l' hl => ?_
  obtain rfl := hx hl
  exact hp

theorem emitAll {x : Except Defect (List Instr)} (hx : ∀ {l'}, x = .ok l' → l' = l)
    (hf : (f ()).Ensures setting s fun b s' r => post b s' (l ++ r)) :
    (Gen.emitAll x >>= f).Ensures setting s post := ensures_bind.2 (.lastAll hx hf)

theorem lastAt {post : Unit → State → List Instr → Prop} (he : ∀ {j}, e = .ok j → j = i)
    (hp : post () s [i.withLocation location]) : (Gen.emitAt location e).Ensures setting s post := by
  refine ensures_emitAt.2 fun j hj => ?_
  obtain rfl := he hj
  exact hp

theorem emitAt (he : ∀ {j}, e = .ok j → j = i)
    (hf : (f ()).Ensures setting s fun b s' r => post b s' (i.withLocation location :: r)) :
    (Gen.emitAt location e >>= f).Ensures setting s post := ensures_bind.2 (.lastAt he hf)

theorem last {post : Unit → State → List Instr → Prop} (he : ∀ {j}, e = .ok j → j = i)
    (hp : post () s [i]) : (Gen.emit e).Ensures setting s post := by
  refine ensures_emit.2 fun j hj => ?_
  obtain rfl := he hj
  exact hp

theorem emit (he : ∀ {j}, e = .ok j → j = i)
    (hf : (f ()).Ensures setting s fun b s' r => post b s' (i :: r)) :
    (Gen.emit e >>= f).Ensures setting s post := ensures_bind.2 (.last he hf)

end Ensures

end Lowering.Gen

/-! ### The instructions that constructors build -/

namespace Instr

/-- An instruction without payload. -/
def simple (location : Option Location) (opcode : Opcode) (operands : List String)
    (result : Option String) : Instr :=
  { opcode, operands, result, location }

/-- A call. -/
def calling (location : Option Location) (opcode : Opcode) (result : Option String)
    (site : CallSite) : Instr :=
  { opcode, operands := [site.operand], result, location, payload := .call site }

/-- The instruction of a chain. -/
def chained (location : Option Location) (c : Chain Instr) : Instr :=
  { opcode := .chain
    operands :=
      [c.kind.name, c.scope] ++ (c.subject.map (·.name)).toList ++ (c.returning.map (·.name)).toList
    result := c.result
    location
    payload := .chain c }

/-- The opcode of a logical block. -/
def logicalOpcode : LogicalOp → Opcode
  | .and => .logicalAnd
  | .or => .logicalOr

/-- The instruction of a logical block. -/
def logicalBlock (location : Option Location) (result : String) (b : LogicalBlock Instr) : Instr :=
  { opcode := logicalOpcode b.op
    operands := [b.left, b.condition, b.right, b.result, b.scope]
    result := some result
    location
    payload := .logical b }

section

variable (location location' : Option Location) (opcode : Opcode) (operands : List String)
  (result : Option String) (site : CallSite) (c : Chain Instr) (t : String) (b : LogicalBlock Instr)

@[simp] theorem withLocation_simple :
    (simple location opcode operands result).withLocation location' =
      simple location' opcode operands result := rfl

@[simp] theorem withLocation_calling :
    (calling location opcode result site).withLocation location' =
      calling location' opcode result site := rfl

end

variable {i : Instr} {opcode : Opcode} {result : Option String} {role x y : String}

theorem bare_eq_ok {operands : List String} (h : bare opcode result operands = .ok i) :
    i = simple none opcode operands result := by
  unfold bare at h
  split at h
  · cases h
  · cases h
    rfl

/-- A form with one checked name. -/
theorem one_eq_ok {f : String → List String}
    (h : (do bare opcode none (f (← named role x))) = .ok i) :
    i = simple none opcode (f x) none := by
  obtain ⟨x', hx, hi⟩ := except_bind_eq_ok.1 h
  obtain ⟨-, rfl⟩ := (named_eq_ok_iff _ _ _).1 hx
  exact bare_eq_ok hi

/-- A form with two checked names. -/
theorem two_eq_ok {role' : String} {r : String → Option String}
    {f : String → String → List String} (h : (do
      let x ← named role x
      bare opcode (r x) (f x (← named role' y))) = .ok i) :
    i = simple none opcode (f x y) (r x) := by
  obtain ⟨x', hx, hy⟩ := except_bind_eq_ok.1 h
  obtain ⟨-, rfl⟩ := (named_eq_ok_iff _ _ _).1 hx
  obtain ⟨y', hy, hi⟩ := except_bind_eq_ok.1 hy
  obtain ⟨-, rfl⟩ := (named_eq_ok_iff _ _ _).1 hy
  exact bare_eq_ok hi

theorem retain_eq_ok (h : retain x = .ok i) : i = simple none .retain [x] none := one_eq_ok h

theorem release_eq_ok (h : release x = .ok i) : i = simple none .release [x] none := one_eq_ok h

theorem assert_eq_ok (h : assert x = .ok i) : i = simple none .assert [x] none := one_eq_ok h

theorem throw_eq_ok (h : throw x = .ok i) : i = simple none .throw [x] none := one_eq_ok h

theorem scopeEnter_eq_ok (h : scopeEnter x = .ok i) :
    i = simple none .scopeEnter [x] none := one_eq_ok h

theorem scopeExit_eq_ok (h : scopeExit x = .ok i) :
    i = simple none .scopeExit [x] none := one_eq_ok h

theorem ret_eq_ok {x : Option String} (h : ret x = .ok i) :
    i = simple none .ret x.toList none := bare_eq_ok h

theorem store_eq_ok (h : store x y = .ok i) : i = simple none .store [x, y] none := two_eq_ok h

theorem reference_eq_ok (h : reference x y = .ok i) :
    i = simple none .reference [x, y] none := two_eq_ok h

theorem scopeRegister_eq_ok (h : scopeRegister x y = .ok i) :
    i = simple none .scopeRegister [x, y] none := two_eq_ok h

theorem load_eq_ok (h : load x y = .ok i) : i = simple none .load [y] (some x) := two_eq_ok h

theorem isNull_eq_ok (h : isNull x y = .ok i) : i = simple none .isNull [y] (some x) := two_eq_ok h

theorem allocObject_eq_ok (h : allocObject x y = .ok i) :
    i = simple none .allocObject [y] (some x) := two_eq_ok h

theorem loadLiteral_eq_ok {z : String} (h : loadLiteral x y z = .ok i) :
    i = simple none .loadLiteral [y, z] (some x) := two_eq_ok h

theorem call_eq_ok {site : CallSite} (h : call opcode result site = .ok i) :
    opcode.isCall = true ∧ i = calling none opcode result site := by
  unfold call at h
  cases hc : opcode.isCall with
  | false => simp [hc, bind, Except.bind] at h
  | true =>
    simp only [hc, Bool.not_true, Bool.false_eq_true, if_false] at h
    obtain ⟨j, hj, h⟩ := except_bind_eq_ok.1 h
    cases h
    rw [bare_eq_ok hj]
    exact ⟨rfl, rfl⟩

theorem ofChain_eq_ok {c : Chain Instr} (h : ofChain c = .ok i) : i = chained none c := by
  obtain ⟨j, hj, h⟩ := except_bind_eq_ok.1 h
  cases h
  rw [bare_eq_ok hj]
  rfl

theorem ofLogical_eq_ok {result : String} {b : LogicalBlock Instr}
    (h : ofLogical result b = .ok i) : i = logicalBlock none result b := by
  unfold ofLogical at h
  simp only [except_bind_eq_ok, named_eq_ok_iff] at h
  obtain ⟨_, ⟨-, rfl⟩, _, ⟨-, rfl⟩, _, ⟨-, rfl⟩, _, ⟨-, rfl⟩, _, ⟨-, rfl⟩, _, ⟨-, rfl⟩,
    j, hj, h⟩ := h
  cases h
  rw [bare_eq_ok hj]
  cases hop : b.op <;> simp [logicalBlock, logicalOpcode, simple, hop]

end Instr

/-! ### Sequences of instructions -/

namespace Ownership

open Instr

variable {l : List Instr} {location : Option Location} {scope name value : String}

theorem sequence_cons_eq_ok {e : Except Defect Instr} {rest : List (Except Defect Instr)}
    (h : sequence location (e :: rest) = .ok l) :
    ∃ i l', e = .ok i ∧ sequence location rest = .ok l' ∧ l = i.withLocation location :: l' := by
  simp only [sequence, List.mapM_cons] at h
  obtain ⟨i, hi, h⟩ := except_bind_eq_ok.1 h
  obtain ⟨l', hl, h⟩ := except_bind_eq_ok.1 h
  obtain ⟨j, hj, rfl⟩ := except_map_eq_ok.1 hi
  cases h
  exact ⟨j, l', hj, hl, rfl⟩

theorem sequence_nil_eq_ok (h : sequence location [] = .ok l) : l = [] := by
  cases h
  rfl

theorem register_eq_ok {temp : String} (h : register location temp scope = .ok l) :
    l = [simple location .retain [temp] none,
      simple location .scopeRegister [temp, scope] none] := by
  obtain ⟨i, _, hi, h1, rfl⟩ := sequence_cons_eq_ok h
  obtain ⟨j, _, hj, h2, rfl⟩ := sequence_cons_eq_ok h1
  rw [retain_eq_ok hi, scopeRegister_eq_ok hj, sequence_nil_eq_ok h2]
  rfl

theorem declare_eq_ok {type : String} (h : declare location name type scope = .ok l) :
    l = [simple location .reference [name, type] none,
      simple location .scopeRegister [name, scope] none] := by
  obtain ⟨i, _, hi, h1, rfl⟩ := sequence_cons_eq_ok h
  obtain ⟨j, _, hj, h2, rfl⟩ := sequence_cons_eq_ok h1
  rw [reference_eq_ok hi, scopeRegister_eq_ok hj, sequence_nil_eq_ok h2]
  rfl

theorem initialise_eq_ok (h : initialise location name value = .ok l) :
    l = [simple location .store [name, value] none, simple location .retain [name] none] := by
  obtain ⟨i, _, hi, h1, rfl⟩ := sequence_cons_eq_ok h
  obtain ⟨j, _, hj, h2, rfl⟩ := sequence_cons_eq_ok h1
  rw [store_eq_ok hi, retain_eq_ok hj, sequence_nil_eq_ok h2]
  rfl

theorem assign_eq_ok (h : assign location name value = .ok l) :
    l = [simple location .retain [value] none, simple location .release [name] none,
      simple location .store [name, value] none] := by
  obtain ⟨i, _, hi, h1, rfl⟩ := sequence_cons_eq_ok h
  obtain ⟨j, _, hj, h2, rfl⟩ := sequence_cons_eq_ok h1
  obtain ⟨k, _, hk, h3, rfl⟩ := sequence_cons_eq_ok h2
  rw [retain_eq_ok hi, release_eq_ok hj, store_eq_ok hk, sequence_nil_eq_ok h3]
  rfl

theorem exits_eq_ok {scopes : List String} (h : exits location scopes = .ok l) :
    l = scopes.map fun k => simple location .scopeExit [k] none := by
  unfold exits at h
  induction scopes generalizing l with
  | nil => exact sequence_nil_eq_ok h
  | cons k rest ih =>
    obtain ⟨i, _, hi, h1, rfl⟩ := sequence_cons_eq_ok h
    rw [scopeExit_eq_ok hi, ih h1]
    rfl

end Ownership

/-! ### Chains -/

namespace Chain

variable {ι : Type}

variable {c : Chain ι} {scope : String}

theorem start_eq_ok {kind : ChainKind} (h : start kind scope = .ok c) : c = { kind, scope } := by
  unfold start at h
  split at h
  · cases h
  · cases h
    rfl

theorem validate_eq_ok {c' : Chain ι} (h : validate c = .ok c') : c' = c := by
  unfold validate at h
  simp only [except_bind_eq_ok] at h
  obtain ⟨_, -, _, -, _, -, _, -, h⟩ := h
  cases h
  rfl

theorem question_eq_ok {result : String} {nullCase : Case ι} {setCase : CaseBody ι}
    (h : question result nullCase setCase scope = .ok c) :
    c = { kind := .question, scope, result := some result, cases := [nullCase],
          fallback := some setCase } := by
  obtain ⟨c0, h0, h⟩ := except_bind_eq_ok.1 h
  rw [validate_eq_ok h, start_eq_ok h0]

theorem guardedAssignment_eq_ok {unsetCase : Case ι}
    (h : guardedAssignment unsetCase scope = .ok c) :
    c = { kind := .guardedAssignment, scope, cases := [unsetCase] } := by
  obtain ⟨c0, h0, h⟩ := except_bind_eq_ok.1 h
  rw [validate_eq_ok h, start_eq_ok h0]

end Chain

theorem CaseCondition.build_eq_ok {ι : Type} {evaluation : List ι} {result : Option String}
    {primitive : String} {c : CaseCondition ι} (h : build evaluation result primitive = .ok c) :
    c = { evaluation, result, primitive } := by
  unfold build at h
  split at h
  · cases h
  · cases h
    rfl

/-- The code around a chain: the scope of its guard variables with their setup, and its own
scope. -/
def Chain.placed (c : Chain Instr) (guards : Option (GuardVariables Instr))
    (location : Option Location) : List Instr :=
  let chain := [Instr.simple none .scopeEnter [c.scope] none, Instr.chained location c,
    Instr.simple none .scopeExit [c.scope] none]
  match guards with
  | some g =>
    [Instr.simple none .scopeEnter [g.scope] none] ++ (g.setup ++ chain)
      ++ [Instr.simple none .scopeExit [g.scope] none]
  | none => chain

theorem Chain.place_eq_ok {c : Chain Instr} {guards : Option (GuardVariables Instr)}
    {location : Option Location} {l : List Instr} (h : c.place guards location = .ok l) :
    l = c.placed guards location := by
  unfold Chain.place at h
  cases guards with
  | none =>
    simp only [except_bind_eq_ok] at h
    obtain ⟨_, ho, enter, he, chain, hc, exit, hx, _, hcl, h⟩ := h
    cases ho
    cases hcl
    cases h
    rw [Instr.scopeEnter_eq_ok he, Instr.ofChain_eq_ok hc, Instr.scopeExit_eq_ok hx]
    rfl
  | some g =>
    simp only [except_bind_eq_ok] at h
    obtain ⟨opening, hi, _, ho, enter, he, chain, hc, exit, hx, closing, hj, _, hcl, h⟩ := h
    cases ho
    cases hcl
    cases h
    rw [Instr.scopeEnter_eq_ok he, Instr.ofChain_eq_ok hc, Instr.scopeExit_eq_ok hx,
      Instr.scopeEnter_eq_ok hi, Instr.scopeExit_eq_ok hj]
    simp [Chain.placed, Instr.chained, Instr.withLocation]

end ScopedIR
