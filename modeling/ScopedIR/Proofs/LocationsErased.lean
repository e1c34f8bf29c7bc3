import ScopedIR.Lowering.Module

/-!
# Locations do not interfere

Attaching locations changes nothing else. A generator that runs with locations does what it does without
them, defects, fresh names and all, once the locations are erased from what it emits and answers. There is
one rule for each way generators are put together, so a proof about a generator follows its text.

Main definitions: `Instr.erase` and `Gen.Erases`. Main statement: `lower_erases`.
-/

namespace ScopedIR

/-- The instruction without its location and those of everything nested in it. -/
def Instr.erase : Instr → Instr := fold fun i p => { i with location := none, payload := p }

theorem Instr.erase_eq (i : Instr) :
    i.erase = { i with location := none, payload := i.payload.map erase } := fold_eq _ i

theorem Instr.erase_withLocation (i : Instr) (location : Option Location) :
    (i.withLocation location).erase = i.erase.withLocation none := by
  rw [erase_eq, erase_eq]
  rfl

/-- Code without locations. -/
abbrev eraseAll (l : List Instr) : List Instr := l.map Instr.erase

section

variable {α β γ : Type} {e : α → α} {e' : β → β}

theorem bind_erase {x x' : Except Defect α} {f f' : α → Except Defect β} (hx : x.map e = x')
    (hf : ∀ a, (f a).map e' = f' (e a)) : (x >>= f).map e' = x' >>= f' := by
  subst hx
  cases x with
  | error d => rfl
  | ok a => exact hf a

theorem mapM_erase {f f' : γ → Except Defect α} (h : ∀ a, (f a).map e = f' a) (l : List γ) :
    (l.mapM f).map (List.map e) = l.mapM f' := by
  induction l with
  | nil => rfl
  | cons a l ih =>
    rw [List.mapM_cons, List.mapM_cons]
    exact bind_erase (h a) fun _ => bind_erase ih fun _ => rfl

end

namespace Lowering.Gen

variable {α β : Type} {e : α → α} {e' : β → β} {g g' : Gen α}

/-- With locations attached, `g` does what `g'` does without, once they are erased from the code it emits
and, by `e`, from its answer. -/
def Erases (e : α → α) (g g' : Gen α) : Prop :=
  ∀ (setting : Setting) (s : State),
    (g.run { setting with debug := true } s).map
        (fun r => ⟨e r.value, r.state, eraseAll r.instrs⟩) =
      g'.run { setting with debug := false } s

/-- A generator that does the same with and without locations. -/
abbrev Keeps (e : α → α) (g : Gen α) : Prop := Erases e g g

/-- Such a generator whose answer holds no locations. -/
abbrev Blind (g : Gen α) : Prop := Keeps (fun a => a) g

/-- Such a generator at a location, which only stands in what it emits. -/
abbrev BlindAt (g : Option Location → Gen α) : Prop :=
  ∀ location, Erases (fun a => a) (g location) (g none)

namespace Erases

theorem bind {f f' : α → Gen β} (hg : Erases e g g') (hf : ∀ a, Erases e' (f a) (f' (e a))) :
    Erases e' (g >>= f) (g' >>= f') := by
  intro setting s
  simp only [Bind.bind, andThen]
  rw [← hg setting s]
  cases g.run { setting with debug := true } s with
  | error d => rfl
  | ok a =>
    simp only [Except.map]
    rw [← hf a.value setting a.state]
    cases (f a.value).run { setting with debug := true } a.state with
    | error d => rfl
    | ok b => simp only [Except.map, List.map_append]

theorem pure {a a' : α} (h : e a = a') : Erases e (Pure.pure a) (Pure.pure a') := by
  subst h
  exact fun _ _ => rfl

theorem map {f f' : α → β} (hg : Erases e g g') (hf : ∀ a, e' (f a) = f' (e a)) :
    Erases e' (f <$> g) (f' <$> g') := hg.bind fun a => .pure (hf a)

theorem ite {p : Prop} [Decidable p] {h h' : Gen α} (hg : Erases e g g') (hh : Erases e h h') :
    Erases e (if p then g else h) (if p then g' else h') := by
  split
  · exact hg
  · exact hh

theorem fail (d : Defect) : Keeps e (fail d) := fun _ _ => rfl

theorem failIf {p : Prop} [Decidable p] {d : Defect} {f f' : Unit → Gen α}
    (h : Erases e (f ()) (f' ())) :
    Erases e (if p then Gen.fail d >>= f else f ()) (if p then Gen.fail d >>= f' else f' ()) :=
  .ite (fun _ _ => rfl) h

theorem ofExcept {x x' : Except Defect α} (h : x.map e = x') :
    Erases e (ofExcept x) (ofExcept x') := by
  subst h
  cases x <;> exact fun _ _ => rfl

theorem capture (h : Erases e g g') :
    Erases (fun p => (e p.1, eraseAll p.2)) (capture g) (capture g') := by
  intro setting s
  simp only [Gen.capture]
  rw [← h setting s]
  cases g.run { setting with debug := true } s <;> rfl

theorem emitAll {l l' : Except Defect (List Instr)} (h : l.map eraseAll = l') :
    Erases (fun a => a) (emitAll l) (emitAll l') := by
  subst h
  cases l <;> exact fun _ _ => rfl

theorem emit {i i' : Except Defect Instr} (h : i.map Instr.erase = i') :
    Erases (fun a => a) (emit i) (emit i') := by
  subst h
  cases i <;> exact fun _ _ => rfl

theorem emitAt (location : Option Location) {i i' : Except Defect Instr}
    (h : i.map Instr.erase = i') : Erases (fun a => a) (emitAt location i) (emitAt none i') := by
  subst h
  cases i with
  | error d => exact fun _ _ => rfl
  | ok i => exact .emit (congrArg Except.ok (i.erase_withLocation location))

theorem located {f : Option Location → Gen α} (token : Option Location)
    (h : ∀ location, Erases e (f location) (f none)) : Keeps e (location token >>= f) :=
  .bind (e := fun _ => none) (fun _ _ => rfl) h

theorem setting : Keeps (fun s => { s with debug := false }) setting := fun _ _ => rfl

theorem state : Blind state := fun _ _ => rfl

theorem temp : Blind temp := fun _ _ => rfl

theorem scopeId : Blind scopeId := fun _ _ => rfl

theorem label (stem : String) : Blind (label stem) := fun _ _ => rfl

theorem currentScope : Blind currentScope := .bind .state fun s => by
  cases s.currentScope <;> exact fun _ _ => rfl

theorem update {f : State → State} {hf : ∀ s, (f s).temps = s.temps} : Blind (update f hf) :=
  fun _ _ => rfl

theorem tryUpdate {f : State → Except Defect State}
    {hf : ∀ {s s'}, f s = .ok s' → s'.temps = s.temps} : Blind (tryUpdate f hf) := by
  intro setting s
  simp only [Gen.tryUpdate]
  cases f s <;> rfl

end Erases

end Lowering.Gen

/-! ### Constructors -/

namespace Instr

variable {opcode : Opcode} {result : Option String} {operands : List String} {role role' x y : String}

/-- A construction whose instruction has no location. -/
abbrev Unlocated (i : Except Defect Instr) : Prop := i.map erase = i

theorem unlocated_bare : Unlocated (bare opcode result operands) := by
  unfold Unlocated bare
  split <;> rfl

theorem map_named {f f' : String → Except Defect Instr} (h : ∀ x, (f x).map erase = f' x) :
    (named role x >>= f).map erase = named role x >>= f' :=
  bind_erase (e := fun a => a) (by cases named role x <;> rfl) h

theorem unlocated_one {f : String → List String} :
    Unlocated (do bare opcode none (f (← named role x))) := map_named fun _ => unlocated_bare

theorem unlocated_two {r : String → Option String} {f : String → String → List String} :
    Unlocated (do
      let x ← named role x
      bare opcode (r x) (f x (← named role' y))) :=
  map_named fun _ => map_named fun _ => unlocated_bare

theorem map_payload (p : Payload Instr) :
    (bare opcode result operands >>= fun i => pure { i with payload := p }).map erase =
      bare opcode result operands >>= fun i => pure { i with payload := p.map erase } := by
  unfold bare
  split
  · rfl
  · exact congrArg Except.ok (erase_eq _)

theorem unlocated_call {site : CallSite} : Unlocated (call opcode result site) := by
  unfold Unlocated call
  cases opcode.isCall
  · rfl
  · exact map_payload (.call site)

theorem map_ofChain (c : Chain Instr) : (ofChain c).map erase = ofChain (c.map erase) := by
  have hname (v : Option (ChainVariable Instr)) :
      (v.map (·.map erase)).map (·.name) = v.map (·.name) := by cases v <;> rfl
  refine (map_payload (.chain c)).trans ?_
  rw [← hname c.subject, ← hname c.returning]
  rfl

theorem map_ofLogical (b : LogicalBlock Instr) :
    (ofLogical x b).map erase = ofLogical x (b.map erase) :=
  map_named fun _ => map_named fun _ => map_named fun _ => map_named fun _ => map_named fun _ =>
    map_named fun _ => map_payload (.logical b)

end Instr

theorem CaseCondition.map_build {l : List Instr} {result : Option String} {primitive : String} :
    (build l result primitive).map (CaseCondition.map Instr.erase) =
      build (eraseAll l) result primitive := by
  unfold build
  split <;> rfl

theorem Case.map_handler {scope : Option String} {type name : String} {b : CaseBody Instr} :
    (handler scope type name b).map (Case.map Instr.erase) =
      handler scope type name (b.map Instr.erase) := by
  unfold handler
  split <;> rfl

namespace Chain

open Instr

variable {scope : String} (c : Chain Instr)

theorem checkForm_map : (c.map erase).checkForm = c.checkForm := by
  obtain ⟨kind, _⟩ := c
  cases kind <;> simp [checkForm, Chain.map, allCases, Case.map, Function.comp_def]

theorem map_validate : c.validate.map (Chain.map erase) = (c.map erase).validate := by
  have hbind : ∀ {x : Except Defect Unit} {k : Unit → Except Defect (Chain Instr)},
      (x >>= k).map (Chain.map erase) = x >>= fun u => (k u).map (Chain.map erase) := by
    intro x k
    cases x <;> rfl
  simp only [validate, hbind, checkForm_map]
  simp only [Chain.map, List.isEmpty_map, Option.isSome_map, Option.isNone_map]
  rfl

theorem map_start {kind : ChainKind} :
    (start kind scope).map (Chain.map erase) = start kind scope := by
  unfold start
  split <;> rfl

theorem map_question {result : String} {k : Case Instr} {b : CaseBody Instr} :
    (question result k b scope).map (Chain.map erase) =
      question result (k.map erase) (b.map erase) scope :=
  bind_erase map_start fun _ => map_validate _

theorem map_guardedAssignment {k : Case Instr} :
    (guardedAssignment k scope).map (Chain.map erase) = guardedAssignment (k.map erase) scope :=
  bind_erase map_start fun _ => map_validate _

end Chain

/-- The guard without locations. -/
def GuardVariables.erase (g : GuardVariables Instr) : GuardVariables Instr :=
  { g with setup := eraseAll g.setup }

theorem Chain.map_place (c : Chain Instr) (guards : Option (GuardVariables Instr))
    (location : Option Location) :
    (c.place guards location).map eraseAll =
      (c.map Instr.erase).place (guards.map GuardVariables.erase) none := by
  have hcode {opening closing : List Instr} {enter i exit : Instr} :
      eraseAll (opening ++ [enter, i.withLocation location, exit] ++ closing) =
        eraseAll opening ++ [enter.erase, i.erase.withLocation none, exit.erase] ++
          eraseAll closing := by
    simp [i.erase_withLocation]
  cases guards with
  | none =>
    exact bind_erase (e := eraseAll) rfl fun _ => bind_erase Instr.unlocated_one fun _ =>
      bind_erase (Instr.map_ofChain c) fun _ => bind_erase Instr.unlocated_one fun _ =>
        bind_erase (e := eraseAll) rfl fun _ => congrArg Except.ok hcode
  | some g =>
    exact bind_erase Instr.unlocated_one fun _ => bind_erase (e := eraseAll) rfl fun _ =>
      bind_erase Instr.unlocated_one fun _ => bind_erase (Instr.map_ofChain c) fun _ =>
        bind_erase Instr.unlocated_one fun _ => bind_erase Instr.unlocated_one fun _ =>
          bind_erase (e := eraseAll) rfl fun _ => congrArg Except.ok hcode

namespace Ownership

open Instr

variable {location : Option Location} {temp name type value scope : String}

theorem map_sequence {i : Except Defect Instr} {l : List (Except Defect Instr)} (hi : Unlocated i)
    (hl : (sequence location l).map eraseAll = sequence none l) :
    (sequence location (i :: l)).map eraseAll = sequence none (i :: l) := by
  simp only [sequence, List.mapM_cons]
  refine bind_erase (e := erase) ?_ fun _ => bind_erase hl fun _ => rfl
  cases i with
  | error d => rfl
  | ok i =>
    have he : (i.withLocation location).erase = i.withLocation none := by
      rw [erase_withLocation, Except.ok.inj hi]
    exact congrArg Except.ok he

theorem map_register : (register location temp scope).map eraseAll = register none temp scope :=
  map_sequence unlocated_one (map_sequence unlocated_two rfl)

theorem map_declare :
    (declare location name type scope).map eraseAll = declare none name type scope :=
  map_sequence unlocated_two (map_sequence unlocated_two rfl)

theorem map_initialise :
    (initialise location name value).map eraseAll = initialise none name value :=
  map_sequence unlocated_two (map_sequence unlocated_one rfl)

theorem map_assign : (assign location name value).map eraseAll = assign none name value :=
  map_sequence unlocated_one (map_sequence unlocated_one (map_sequence unlocated_two rfl))

theorem map_exits (scopes : List String) :
    (exits location scopes).map eraseAll = exits none scopes := by
  induction scopes with
  | nil => rfl
  | cons k rest ih => exact map_sequence unlocated_one ih

end Ownership

/-! ### Expressions -/

namespace Lowering

open Gen Instr Ownership Chain

variable {text type name target value op : String} {symbol : Symbol} {c left right : Code}
  {codes : List Code} {receiver : Option Code}

theorem value_blind (h : Blind c.gen) : Blind c.value := .bind h fun r => by
  cases r with
  | none => exact .fail _
  | some x => exact .pure rfl

theorem values_blind (h : ∀ c ∈ codes, Blind c.gen) : Blind (Code.values codes) := by
  induction codes with
  | nil => exact .pure rfl
  | cons c rest ih =>
    obtain ⟨hc, hrest⟩ := List.forall_mem_cons.1 h
    exact .bind (value_blind hc) fun _ => .bind (ih hrest) fun _ => .pure rfl

theorem genLiteral_blind : BlindAt (genLiteral · text type) := fun location =>
  .bind .temp fun _ => .bind .currentScope fun _ => .bind (.emitAt location unlocated_two) fun _ =>
    .bind (.emitAll map_register) fun _ => .pure rfl

theorem genVar_blind : BlindAt (genVar · name) := fun location =>
  .bind .temp fun _ => .bind (.emitAt location unlocated_two) fun _ => .pure rfl

theorem genCall_blind (opcode : Opcode) (args : List String) :
    BlindAt (genCall · opcode target symbol args) := fun location =>
  .bind .setting fun _ => .ite
    (.bind .temp fun _ => .bind (.emitAt location unlocated_call) fun _ =>
      .bind (.bind .currentScope fun _ => .emitAll map_register) fun _ => .pure rfl)
    (.bind (.emitAt location unlocated_call) fun _ => .pure rfl)

theorem genCallValue_blind (args : List String) : Blind (genCallValue target symbol args) :=
  .bind (genCall_blind .call args none) fun r => by
    cases r with
    | none => exact .fail _
    | some x => exact .pure rfl

theorem genConstruct_blind (h : ∀ c ∈ codes, Blind c.gen) : BlindAt (genConstruct · symbol codes) :=
  fun location => .bind (values_blind h) fun _ => .bind .temp fun _ => .bind .currentScope fun _ =>
    .bind (.emitAt location unlocated_two) fun _ => .bind (.emitAll map_register) fun _ =>
      .bind (genCall_blind _ _ location) fun _ => .pure rfl

theorem genItems_blind (h : ∀ c ∈ codes, Blind c.gen) : BlindAt (genItems · target codes) := by
  intro location
  induction codes with
  | nil => exact .pure rfl
  | cons c rest ih =>
    obtain ⟨hc, hrest⟩ := List.forall_mem_cons.1 h
    exact .bind (value_blind hc) fun _ => .bind (genCall_blind _ _ location) fun _ => ih hrest

theorem genPrimitive_blind : Blind (genPrimitive value type) :=
  .bind .temp fun _ => .bind .setting fun _ => .bind (.emit unlocated_call) fun _ => .pure rfl

theorem ofExcept_blind {α : Type} (x : Except Defect α) : Blind (ofExcept x) :=
  .ofExcept (by cases x <;> rfl)

theorem genIsSet_blind : BlindAt (genIsSet · value type) := fun location =>
  .bind .currentScope fun _ => .bind .temp fun _ => .bind (.ofExcept unlocated_two) fun _ =>
    .bind (.ofExcept CaseCondition.map_build) fun _ => .bind (.capture (genLiteral_blind none))
      fun ⟨_, _⟩ => .bind (ofExcept_blind _) fun _ => .bind (.capture (genCallValue_blind []))
        fun ⟨_, _⟩ => .bind .temp fun _ => .bind (.ofExcept map_question) fun c =>
          .bind (.emitAt location (map_ofChain c)) fun _ => .pure rfl

/-- The value of a condition with its truth value. -/
theorem truth_blind (h : Blind c.gen) :
    Blind (do
      let value ← c.value
      return (value, ← genPrimitive value c.type)) :=
  .bind (value_blind h) fun _ => .bind genPrimitive_blind fun _ => .pure rfl

theorem genLogical_blind {op : LogicalOp} (hl : Blind left.gen) (hr : Blind right.gen) :
    BlindAt (genLogical · op left right) := fun location =>
  .bind .currentScope fun _ => .bind (.capture (truth_blind hl)) fun ⟨⟨_, _⟩, _⟩ =>
    .bind (.capture (value_blind hr)) fun ⟨_, _⟩ => .bind (ofExcept_blind _) fun _ =>
      .bind (.capture (genCallValue_blind _)) fun ⟨_, _⟩ => .bind .temp fun _ =>
        .bind (.emitAt location (map_ofLogical _)) fun _ => .pure rfl

theorem genTarget_blind (h : ∀ c ∈ receiver, Blind c.gen) : Blind (genTarget symbol receiver) := by
  cases receiver with
  | none => exact .pure rfl
  | some c =>
    unfold genTarget
    cases symbol.dispatch with
    | static => exact .bind (h c rfl) fun _ => .pure rfl
    | dispatcher | method => exact .bind (value_blind (h c rfl)) fun _ => .pure rfl

theorem genApply_blind (h : ∀ c ∈ receiver, Blind c.gen) (ha : ∀ c ∈ codes, Blind c.gen) :
    BlindAt (genApply · receiver symbol codes) := by
  intro location
  refine .ite ?_ (.bind (genTarget_blind h) fun _ => .bind (values_blind ha) fun _ =>
    genCall_blind _ _ location)
  cases receiver with
  | none => exact .bind (genConstruct_blind ha location) fun _ => .pure rfl
  | some c =>
    exact .bind (h c rfl) fun _ => .bind (genConstruct_blind ha location) fun _ => .pure rfl

theorem ofVar_blind : Blind (Code.ofVar name type).gen := .map (genVar_blind none) fun _ => rfl

theorem ofLiteral_blind : Blind (Code.ofLiteral text type).gen :=
  .map (genLiteral_blind none) fun _ => rfl

theorem ofCall_blind (h : Blind c.gen) (ha : ∀ c ∈ codes, Blind c.gen) :
    Blind (Code.ofCall c symbol codes).gen := genApply_blind (by simpa) ha none

theorem guarded_blind (h : Blind c.gen) : Blind (Code.guarded name type c).gen :=
  .map (genLogical_blind (.bind (value_blind ofVar_blind) fun _ => .map (genIsSet_blind none)
    fun _ => rfl) h none) fun _ => rfl

end Lowering

namespace Expr

open Lowering Gen

mutual

theorem lower_blind : ∀ e : Expr, Blind e.lower.gen
  | literal info _ | enumConstant info _ =>
    .located info.token fun l => .map (genLiteral_blind l) fun _ => rfl
  | var info _ | field info .. => .located info.token fun l => .map (genVar_blind l) fun _ => rfl
  | binary info _ left right _ =>
    .located info.token fun l => .bind (ofExcept_blind _) fun _ => .bind (value_blind (lower_blind left))
      fun _ => .bind (value_blind (lower_blind right)) fun _ => genCall_blind _ _ l
  | unary info _ operand _ =>
    .located info.token fun l => .bind (ofExcept_blind _) fun _ =>
      .bind (value_blind (lower_blind operand)) fun _ => genCall_blind _ _ l
  | isSet info operand =>
    .located info.token fun l => .bind (value_blind (lower_blind operand)) fun _ =>
      .map (genIsSet_blind l) fun _ => rfl
  | logical info _ left right =>
    .located info.token fun l => .map (genLogical_blind (lower_blind left) (lower_blind right) l)
      fun _ => rfl
  | call info target _ args =>
    .located info.token
      (genApply_blind (lowerTarget_blind target) (lowerAll_blind args))
  | list info items =>
    .located info.token fun l => .map (.bind (genConstruct_blind (by simp) l) fun _ =>
      .bind (genItems_blind (lowerAll_blind items) l) fun _ => .pure rfl) fun _ => rfl

theorem lowerTarget_blind : ∀ t : Option Expr, ∀ c ∈ lowerTarget t, Blind c.gen
  | none => by simp [lowerTarget]
  | some e => by simpa [lowerTarget] using lower_blind e

theorem lowerAll_blind : ∀ l : List Expr, ∀ c ∈ lowerAll l, Blind c.gen
  | [] => by simp [lowerAll]
  | e :: rest => by simpa [lowerAll] using ⟨lower_blind e, lowerAll_blind rest⟩

end

end Expr

/-! ### Statements -/

namespace Lowering

open Gen Instr Ownership Chain

variable {name type scope : String} {c : Code} {block block' : BlockCode} {value : Option Code}
  {guard : Option GuardCode} {g : GuardCode} {otherwise : Option BlockCode}
  {branches : List (Code × BlockCode)} {cases : List (SwitchCase BlockCode)}
  {catches : List (Catch BlockCode)}

theorem genScoped_erases (h : Erases (fun a => a) block block') :
    Erases (fun a => a) (genScoped scope block) (genScoped scope block') :=
  .bind (.emit unlocated_one) fun _ => .bind .update fun _ => .bind h fun _ =>
    .bind .tryUpdate fun _ => .ite (.emit unlocated_one) (.pure rfl)

theorem scopedBody_erases (h : Erases (fun a => a) block block') :
    Erases (fun p => (p.1, eraseAll p.2)) (scopedBody block) (scopedBody block') :=
  .bind .scopeId fun _ => .bind (.capture (genScoped_erases h)) fun ⟨(), _⟩ => .pure rfl

theorem scopedCondition_keeps {code : Gen (String × String)} (h : Blind code) :
    Keeps (fun p => (p.1.map erase, p.2)) (scopedCondition code) :=
  .bind .scopeId fun _ =>
    .bind (.capture (e := fun a => a) (.bind (.emit unlocated_one) fun _ => .bind .update fun _ =>
      .bind h fun _ => .bind .tryUpdate fun _ => .bind (.emit unlocated_one) fun _ => .pure rfl))
      fun ⟨⟨_, _⟩, _⟩ => .bind (.ofExcept CaseCondition.map_build) fun _ => .pure rfl

theorem genBind_blind (h : Blind c.gen) : BlindAt (genBind · scope name type c) := fun _ =>
  .bind (.emitAll map_declare) fun _ => .bind (value_blind h) fun _ => .emitAll map_initialise

theorem genDeclare_blind (h : ∀ c ∈ value, Blind c.gen) : BlindAt (genDeclare · name type value) :=
  fun location => .bind .currentScope fun _ => by
    cases value with
    | none => exact .bind (.emitAll map_declare) fun _ => .tryUpdate
    | some c => exact .bind (genBind_blind (h c rfl) location) fun _ => .tryUpdate

theorem checkAssignable_blind : Blind (checkAssignable name) := .bind .state fun s => by
  split
  · exact .fail _
  · exact .pure rfl

theorem genAssign_blind (h : Blind c.gen) : BlindAt (genAssign · name c) := fun _ =>
  .bind checkAssignable_blind fun _ => .bind (value_blind h) fun _ => .emitAll map_assign

theorem genAssignUnset_blind (h : Blind c.gen) : BlindAt (genAssignUnset · name c) := by
  intro location
  refine .bind checkAssignable_blind fun _ => .bind .state fun s => .bind .scopeId fun _ =>
    .bind .update fun _ => .bind (scopedCondition_keeps ?_) fun ⟨_, _⟩ =>
      .bind (scopedBody_erases ?_) fun ⟨_, _⟩ => .bind .tryUpdate fun _ =>
        .bind (.ofExcept map_guardedAssignment) fun c => .emitAll (c.map_place none location)
  · exact .bind (genVar_blind none) fun _ => .bind (genIsSet_blind none) fun _ =>
      .bind (genCallValue_blind []) fun _ => .bind genPrimitive_blind fun _ => .pure rfl
  · exact .bind (value_blind h) fun _ => .bind (.emitAll map_assign) fun _ => .pure rfl

/-- A chain is put in its place once its parts are generated. -/
theorem place_erases {location : Option Location} (c : Chain Instr)
    (guards : Option (GuardVariables Instr)) :
    Erases (fun a => a) (do emitAll ((← ofExcept c.validate).place guards location)) (do
      emitAll ((← ofExcept (c.map erase).validate).place (guards.map GuardVariables.erase) none)) :=
  .bind (.ofExcept c.map_validate) fun c => .emitAll (c.map_place guards location)

theorem openGuard_keeps (h : Blind g.init.gen) : Keeps GuardVariables.erase (openGuard g) :=
  .bind .scopeId fun _ => .bind .update fun _ => .bind (.capture (genBind_blind h none))
    fun ⟨(), _⟩ => .bind .tryUpdate fun _ => .pure rfl

theorem openGuard?_keeps (h : ∀ g ∈ guard, Blind g.init.gen) :
    Keeps (·.map GuardVariables.erase) (openGuard? guard) := by
  cases guard with
  | none => exact .pure rfl
  | some g => exact .bind (openGuard_keeps (h g rfl)) fun _ => .pure rfl

theorem closeGuard?_erases (guards : Option (GuardVariables Instr)) :
    Erases (fun a => a) (closeGuard? guards) (closeGuard? (guards.map GuardVariables.erase)) := by
  cases guards with
  | none => exact .pure rfl
  | some g => exact (.tryUpdate : Blind (exitScope g.scope))

theorem genBranches_keeps (h : ∀ b ∈ branches, Blind b.1.gen ∧ Blind b.2) :
    Keeps (List.map (Case.map erase)) (genBranches branches) := by
  induction branches with
  | nil => exact .pure rfl
  | cons b rest ih =>
    obtain ⟨⟨hc, hb⟩, hrest⟩ := List.forall_mem_cons.1 h
    refine .bind (e := Case.map erase) ?_ fun _ => .bind (ih hrest) fun _ => .pure rfl
    exact .bind (scopedCondition_keeps (truth_blind hc)) fun ⟨_, _⟩ => .bind (scopedBody_erases hb)
      fun ⟨_, _⟩ => .pure rfl

theorem genFallback_keeps (h : ∀ b ∈ otherwise, Blind b) :
    Keeps (·.map (CaseBody.map erase)) (genFallback otherwise) := by
  cases otherwise with
  | none => exact .pure rfl
  | some b => exact .bind (scopedBody_erases (h b rfl)) fun ⟨_, _⟩ => .pure rfl

theorem guardFirst_blind (h : ∀ b ∈ branches, Blind b.1.gen ∧ Blind b.2) :
    ∀ b ∈ guardFirst guard branches, Blind b.1.gen ∧ Blind b.2 := by
  unfold guardFirst
  split
  · obtain ⟨⟨hc, hb⟩, hrest⟩ := List.forall_mem_cons.1 h
    exact List.forall_mem_cons.2 ⟨⟨guarded_blind hc, hb⟩, hrest⟩
  · exact h

theorem genIf_blind (hg : ∀ g ∈ guard, Blind g.init.gen)
    (h : ∀ b ∈ branches, Blind b.1.gen ∧ Blind b.2) (ho : ∀ b ∈ otherwise, Blind b) :
    BlindAt (genIf · guard branches otherwise) := by
  intro location
  unfold genIf
  refine .failIf ?_
  refine .bind (openGuard?_keeps hg) fun guards => .bind .scopeId fun _ => .bind .update fun _ =>
    .bind (genBranches_keeps (guardFirst_blind h)) fun cases =>
      .bind (e := Chain.map erase) (.ofExcept ?_) fun _ => .bind (genFallback_keeps ho) fun _ =>
        .bind .tryUpdate fun _ => .bind (closeGuard?_erases guards) fun _ => place_erases _ guards
  rw [List.length_map]
  exact map_start

theorem genTest_keeps {subject : String} {test : SwitchTest} :
    Keeps (fun p => (p.1.map erase, p.2)) (genTest subject type test) := by
  have hcall : ∀ candidate, Blind (do
      let method ← Gen.ofExcept (operatorMethod "==")
      let result ← genCallValue subject
        (((Symbol.method type method TypeName.boolean).asPure).withParams [type]) [candidate]
      return (result, ← genPrimitive result TypeName.boolean)) := fun _ =>
    .bind (ofExcept_blind _) fun _ => .bind (genCallValue_blind _) fun _ =>
      .bind genPrimitive_blind fun _ => .pure rfl
  refine scopedCondition_keeps ?_
  cases test with
  | value e => exact .bind (value_blind e.lower_blind) hcall
  | enumConstant _ => exact .bind (genLiteral_blind none) hcall

theorem map_switchCase {enum : Option EnumType} {test : SwitchTest} {k : CaseCondition Instr}
    {b : CaseBody Instr} : (switchCase enum test scope k b).map (Case.map erase) =
      switchCase enum test scope (k.map erase) (b.map erase) := by
  unfold switchCase Case.enumConstant
  repeat' split
  all_goals rfl

theorem genSwitchCases_keeps {subject : String} {enum : Option EnumType}
    (h : ∀ c ∈ cases, Blind c.body) :
    Keeps (List.map (Case.map erase)) (genSwitchCases subject type enum cases) := by
  induction cases with
  | nil => exact .pure rfl
  | cons c rest ih =>
    obtain ⟨hc, hrest⟩ := List.forall_mem_cons.1 h
    exact .bind genTest_keeps fun ⟨_, _⟩ => .bind (scopedBody_erases hc) fun ⟨_, _⟩ =>
      .bind (.ofExcept map_switchCase) fun _ => .bind (ih hrest) fun _ => .pure rfl

theorem genReturning_keeps (h : ∀ g ∈ guard, Blind g.init.gen) :
    Keeps (·.map (ChainVariable.map erase)) (genReturning guard) := by
  cases guard with
  | none => exact .pure rfl
  | some g =>
    exact .bind .currentScope fun _ => .bind (.capture (genBind_blind (h g rfl) none)) fun ⟨(), _⟩ =>
      .bind .tryUpdate fun _ => .pure rfl

theorem dispatchOf_map {enum : EnumType} {l : List (Case Instr)} {hasFallback : Bool} :
    dispatchOf enum (l.map (Case.map erase)) hasFallback = dispatchOf enum l hasFallback := by
  unfold dispatchOf
  rw [List.filterMap_map]
  rfl

theorem genSwitch_blind {returning : Option GuardCode} (hg : ∀ g ∈ guard, Blind g.init.gen)
    (hs : Blind c.gen) (h : ∀ c ∈ cases, Blind c.body) (ho : ∀ b ∈ otherwise, Blind b)
    (hr : ∀ g ∈ returning, Blind g.init.gen) :
    BlindAt (genSwitch · guard c cases otherwise returning) := by
  intro location
  refine .bind (genReturning_keeps hr) fun _ => .bind (openGuard?_keeps hg) fun guards =>
    .bind .scopeId fun _ => .bind .update fun _ => .bind (.capture (value_blind hs)) fun ⟨_, _⟩ =>
      .bind .setting fun _ => .bind (genSwitchCases_keeps h) fun _ => .bind (.ofExcept map_start)
        fun _ => ?_
  -- the enumeration does not depend on whether locations are attached
  simp only [Setting.enumType?, dispatchOf_map]
  generalize (if overConstants cases = true then _ else none) = enum
  cases enum with
  | none =>
    exact .bind (e := fun a => a) (.pure rfl) fun _ => .bind (genFallback_keeps ho) fun _ =>
      .bind .tryUpdate fun _ => .bind (closeGuard?_erases guards) fun _ => place_erases _ guards
  | some enum =>
    exact .bind (ofExcept_blind _) fun _ => .bind (e := fun a => a) (.pure rfl) fun _ =>
      .bind (genFallback_keeps ho) fun _ => .bind .tryUpdate fun _ =>
        .bind (closeGuard?_erases guards) fun _ => place_erases _ guards

theorem genLoopParts_keeps {bodyFirst : Bool} (h : Blind c.gen) (hb : Blind block) :
    Keeps (fun p => ((p.1.1.map erase, p.1.2), (p.2.1, eraseAll p.2.2)))
      (genLoopParts bodyFirst c block) :=
  have hc := scopedCondition_keeps (truth_blind h)
  .ite (.bind (scopedBody_erases hb) fun _ => .bind hc fun _ => .pure rfl)
    (.bind hc fun _ => .bind (scopedBody_erases hb) fun _ => .pure rfl)

theorem genGuardUpdate_keeps (h : Blind g.init.gen) : Keeps eraseAll (genGuardUpdate g) :=
  .bind .scopeId fun _ => .bind (.capture (genScoped_erases (.bind (value_blind h) fun _ =>
    .bind (.emitAll map_assign) fun _ => .pure rfl))) fun ⟨(), _⟩ => .pure rfl

theorem genLoop_blind {kind : ChainKind} (h : Blind c.gen) (hb : Blind block)
    (hg : ∀ g ∈ guard, Blind g.init.gen) : BlindAt (genLoop · kind c block guard) := by
  intro location
  refine .bind .scopeId fun _ => .bind .update fun _ =>
    .bind (genLoopParts_keeps h hb) fun ⟨⟨_, _⟩, _, _⟩ => ?_
  cases guard with
  | none =>
    exact .bind (e := eraseAll) (.pure rfl) fun _ => .bind .tryUpdate fun _ =>
      .bind (.ofExcept map_start) fun _ => place_erases _ none
  | some g =>
    exact .bind (genGuardUpdate_keeps (hg g rfl)) fun _ => .bind .tryUpdate fun _ =>
      .bind (.ofExcept map_start) fun _ => place_erases _ none

theorem genWhile_blind (hg : ∀ g ∈ guard, Blind g.init.gen) (h : Blind c.gen) (hb : Blind block) :
    BlindAt (genWhile · guard c block) := by
  intro location
  cases guard with
  | none => exact genLoop_blind h hb hg location
  | some g =>
    exact .bind (openGuard_keeps (hg g rfl)) fun _ =>
      .bind (.capture (genLoop_blind (guarded_blind h) hb hg location)) fun ⟨(), _⟩ =>
        .bind .tryUpdate fun _ => .bind (.emit unlocated_one) fun _ =>
          .bind (.emitAll (congrArg Except.ok List.map_append)) fun _ => .emit unlocated_one

theorem genForIn_blind (h : Blind c.gen) (hb : Blind block) :
    BlindAt (genForIn · name type c block) := by
  intro location
  refine .bind .scopeId fun _ => genScoped_erases (.bind (value_blind h) fun _ =>
    .bind (genCallValue_blind []) fun _ => .bind (.emitAll map_declare) fun _ =>
      .bind .tryUpdate fun _ => .bind (genLoop_blind ?_ ?_ (by simp) location) fun _ => .pure rfl)
  · exact ofCall_blind ofVar_blind (by simp)
  · exact .bind (genAssign_blind (ofCall_blind ofVar_blind (by simp)) none) fun _ => hb

theorem genAssert_blind (h : Blind c.gen) : BlindAt (genAssert · c) := fun location =>
  .bind (value_blind h) fun _ => .bind genPrimitive_blind fun _ => .emitAt location unlocated_one

theorem genOptional_blind (h : ∀ c ∈ value, Blind c.gen) : Blind (genOptional value) := by
  cases value with
  | none => exact .pure rfl
  | some c => exact .bind (value_blind (h c rfl)) fun _ => .pure rfl

/-- A call with variables as receiver and argument. -/
theorem ofVars_blind {x y type' : String} {symbol : Symbol} :
    Blind (Code.ofCall (.ofVar x type) symbol [.ofVar y type']).gen :=
  ofCall_blind ofVar_blind (List.forall_mem_singleton.2 ofVar_blind)

theorem genCheckStep_blind (r : Range) (d : Direction) : Blind (r.genCheckStep d) := by
  unfold Range.genCheckStep
  split
  · exact genAssert_blind (ofCall_blind ofVars_blind (List.forall_mem_singleton.2 ofVar_blind)) none
  · exact .pure rfl

theorem advance_blind (r : Range) (d : Direction) : Blind (r.advance d).gen := by
  unfold Range.advance
  split
  · exact ofVars_blind
  · exact ofCall_blind ofVar_blind (by simp)

theorem genDirection_blind (r : Range) (d : Direction) (hb : Blind block) :
    Blind (r.genDirection d block) :=
  .bind (genCheckStep_blind r d) fun _ => .bind (genWhile_blind (by simp) ofVars_blind
    (.bind hb fun _ => .ite (.pure rfl) (.bind (genAssign_blind (advance_blind r d) none) fun _ =>
      .pure rfl)) none) fun _ => .pure rfl

theorem genForRange_blind {first last : Code} (hf : Blind first.gen) (hl : Blind last.gen)
    (hs : ∀ c ∈ value, Blind c.gen) (hb : Blind block) :
    BlindAt (genForRange · name type first last value block) := by
  intro location
  refine .bind .scopeId fun _ => genScoped_erases (.bind (value_blind hf) fun _ =>
    .bind (value_blind hl) fun _ => .bind (genOptional_blind hs) fun _ =>
      .bind (.emitAll map_declare) fun _ => .bind (.emitAll map_initialise) fun _ =>
        .bind .tryUpdate fun _ => .bind (value_blind ofVars_blind) fun direction =>
          .bind (genIf_blind (by simp) ?_ (by simpa using hb) location) fun _ => .pure rfl)
  have hsign (comparison) : Blind (directionIs direction comparison).gen :=
    ofCall_blind ofVar_blind (List.forall_mem_singleton.2 ofLiteral_blind)
  simpa using ⟨⟨hsign _, genDirection_blind _ _ hb⟩, hsign _, genDirection_blind _ _ hb⟩

theorem genCatches_keeps {exception : String} (h : ∀ c ∈ catches, Blind c.body) :
    Keeps (List.map (Case.map erase)) (genCatches exception catches) := by
  induction catches with
  | nil => exact .pure rfl
  | cons c rest ih =>
    obtain ⟨hc, hrest⟩ := List.forall_mem_cons.1 h
    refine .bind (.bind .scopeId fun _ => .bind (.capture (genScoped_erases ?_)) fun ⟨(), _⟩ =>
      .bind (.ofExcept Case.map_handler) fun _ => .pure rfl) fun _ =>
        .bind (ih hrest) fun _ => .pure rfl
    exact .bind (.emit unlocated_two) fun _ => .bind (.emit unlocated_two) fun _ =>
      .bind (.emit unlocated_two) fun _ => .bind .tryUpdate fun _ => hc

theorem genFinally_keeps (h : ∀ b ∈ otherwise, Blind b) :
    Keeps (·.map (FinallyBlock.map erase)) (genFinally otherwise) := by
  cases otherwise with
  | none => exact .pure rfl
  | some b =>
    exact .bind .update fun _ => .bind (scopedBody_erases (h b rfl)) fun ⟨_, _⟩ =>
      .bind .tryUpdate fun _ => .pure rfl

theorem genTry_blind (hb : Blind block) (h : ∀ c ∈ catches, Blind c.body)
    (ho : ∀ b ∈ otherwise, Blind b) : BlindAt (genTry · block catches otherwise) := fun _ =>
  .bind .scopeId fun _ => .bind .update fun _ => .bind .update fun _ =>
    .bind (scopedBody_erases hb) fun ⟨_, _⟩ => .bind .temp fun _ => .bind (genCatches_keeps h) fun _ =>
      .bind .tryUpdate fun _ => .bind (.ofExcept map_start) fun _ => .bind (genFinally_keeps ho)
        fun _ => .bind .tryUpdate fun _ => place_erases _ none

theorem genReturn_blind (h : ∀ c ∈ value, Blind c.gen) : BlindAt (genReturn · value) := by
  intro location
  refine .bind .state fun _ => .failIf (.bind .state fun _ => .failIf
    (.bind (genOptional_blind h) fun x => ?_))
  cases x with
  | none =>
    exact .bind .state fun _ => .bind (.emitAll (map_exits _)) fun _ =>
      .emitAt location unlocated_bare
  | some x =>
    exact .bind (.emitAt location unlocated_one) fun _ => .bind .state fun _ =>
      .bind (.emitAll (map_exits _)) fun _ => .emitAt location unlocated_bare

theorem genThrow_blind (h : Blind c.gen) : BlindAt (genThrow · c) := fun location =>
  .bind .state fun _ => .failIf (.bind (value_blind h) fun _ => .bind (.emitAt location unlocated_one)
    fun _ => .bind .state fun _ => .bind (.emitAll (map_exits _)) fun _ =>
      .emitAt location unlocated_one)

end Lowering

namespace Stmt

open Lowering Gen

theorem guard_blind (guard : Option Guard) : ∀ g ∈ guard.map Guard.lower, Blind g.init.gen := by
  simpa [Guard.lower] using fun g _ => g.init.lower_blind

theorem value?_blind (value : Option Expr) : ∀ c ∈ value.map Expr.lower, Blind c.gen := by
  simpa using fun e _ => e.lower_blind

mutual

theorem lower_blind : ∀ s : Stmt, Blind s.lower
  | declare token _ _ init => .located token (genDeclare_blind (value?_blind init))
  | assign token _ value => .located token (genAssign_blind value.lower_blind)
  | assignField token _ _ value =>
    .located token fun _ => .bind (value_blind value.lower_blind) fun _ =>
      .emitAll Ownership.map_assign
  | assignUnset token _ value => .located token (genAssignUnset_blind value.lower_blind)
  | expr _ e => .bind e.lower_blind fun _ => .pure rfl
  | ifElse token guard branches otherwise =>
    .located token (genIf_blind (guard_blind guard) (lowerBranches_blind branches)
      (lowerBlock?_blind otherwise))
  | switch token guard subject cases otherwise returning =>
    .located token (genSwitch_blind (guard_blind guard) subject.lower_blind
      (lowerCases_blind cases) (lowerBlock?_blind otherwise) (guard_blind returning))
  | whileLoop token guard condition body =>
    .located token (genWhile_blind (guard_blind guard) condition.lower_blind
      (lowerBlock_blind body))
  | doWhile token body condition =>
    .located token (genLoop_blind condition.lower_blind (lowerBlock_blind body) (by simp))
  | forIn token _ _ collection body =>
    .located token (genForIn_blind collection.lower_blind (lowerBlock_blind body))
  | forRange token _ _ first last step body =>
    .located token (genForRange_blind first.lower_blind last.lower_blind (value?_blind step)
      (lowerBlock_blind body))
  | tryCatch token body catches finallyBody =>
    .located token (genTry_blind (lowerBlock_blind body) (lowerCatches_blind catches)
      (lowerBlock?_blind finallyBody))
  | ret token value => .located token (genReturn_blind (value?_blind value))
  | throw token value => .located token (genThrow_blind value.lower_blind)
  | assert token condition => .located token (genAssert_blind condition.lower_blind)

theorem lowerBlock_blind : ∀ l : List Stmt, Blind (lowerBlock l)
  | [] => .pure rfl
  | s :: rest => .bind (lower_blind s) fun _ => .ite (.pure rfl) (lowerBlock_blind rest)

theorem lowerBlock?_blind : ∀ o : Option (List Stmt), ∀ b ∈ lowerBlock? o, Blind b
  | none => by simp [lowerBlock?]
  | some l => by simpa [lowerBlock?] using lowerBlock_blind l

theorem lowerBranches_blind :
    ∀ l : List (Expr × List Stmt), ∀ b ∈ lowerBranches l, Blind b.1.gen ∧ Blind b.2
  | [] => by simp [lowerBranches]
  | (condition, block) :: rest => by
    simpa [lowerBranches, lowerBranch] using
      ⟨⟨condition.lower_blind, lowerBlock_blind block⟩, fun a b => lowerBranches_blind rest (a, b)⟩

theorem lowerCases_blind :
    ∀ l : List (SwitchCase (List Stmt)), ∀ c ∈ lowerCases l, Blind c.body
  | [] => by simp [lowerCases]
  | ⟨_, body⟩ :: rest => by
    simpa [lowerCases, lowerCase] using ⟨lowerBlock_blind body, lowerCases_blind rest⟩

theorem lowerCatches_blind : ∀ l : List (Catch (List Stmt)), ∀ c ∈ lowerCatches l, Blind c.body
  | [] => by simp [lowerCatches]
  | ⟨_, _, body⟩ :: rest => by
    simpa [lowerCatches, lowerCatch] using ⟨lowerBlock_blind body, lowerCatches_blind rest⟩

end

end Stmt

/-! ### Units -/

/-- The body without locations. -/
def Body.erase (body : Body) : Body :=
  { body with blocks := ⟨body.blocks.slots.map fun b => { b with instrs := eraseAll b.instrs }⟩ }

/-- The operation without locations. -/
def Operation.erase (op : Operation) : Operation :=
  { op with body := op.body.erase, location := none }

/-- The construct without locations. -/
def Construct.erase (c : Construct) : Construct :=
  { c with operations := c.operations.map Operation.erase, location := none }

/-- The unit without locations. -/
def CodeUnit.erase (u : CodeUnit) : CodeUnit :=
  { u with constructs := u.constructs.map Construct.erase }

namespace Lowering

open Gen Instr

variable {block : BlockCode} {name returnType : String} {params : List TypedName}
  {token : Option Location} (setting : Setting)

theorem declareParams_blind (params : List TypedName) :
    Blind (params.forM fun p => Gen.declare p.name p.type true) := by
  induction params with
  | nil => exact .pure rfl
  | cons p rest ih => exact .bind .tryUpdate fun _ => ih

theorem genOuter_blind (h : Blind block) : Blind (genOuter params block) := by
  unfold genOuter
  refine .bind (.label _) fun entry => ?_
  refine .bind .scopeId fun scope => ?_
  refine .bind (.emit unlocated_one) fun _ => ?_
  refine .bind .update fun _ => ?_
  refine .bind (declareParams_blind params) fun _ => ?_
  refine .bind h fun departs => ?_
  refine .bind .tryUpdate fun _ => .ite ?_ (.pure rfl)
  refine .bind (.emit unlocated_one) fun _ => ?_
  exact .bind (.emit unlocated_bare) fun _ => .pure rfl

theorem addBlock_erase (entry : String) :
    (Body.empty.addBlock entry).map Body.erase = Body.empty.addBlock entry := by
  unfold Body.addBlock
  repeat' split
  all_goals simp [Except.map, Body.erase, Body.empty, Arena.push, Arena.empty]

theorem append_erase (body : Body) (l : List Instr) :
    (body.append 0 l).map Body.erase = body.erase.append 0 (eraseAll l) := by
  obtain ⟨⟨⟨blocks⟩⟩, index⟩ := body
  cases blocks <;> simp [Body.append, Body.edit, Body.block, Body.erase, Arena.get?, Arena.modify,
    Bind.bind, Except.bind, Pure.pure, Except.pure, Except.map]

theorem genOperation_keeps (h : Blind block) :
    Keeps Operation.erase (genOperation name params returnType token block) := by
  unfold genOperation
  refine .bind (.capture (genOuter_blind h)) ?_
  rintro ⟨entry, l⟩
  refine .bind (.ofExcept (addBlock_erase entry)) fun body => ?_
  refine .bind (.ofExcept (append_erase body l)) fun body' => ?_
  exact .bind (e := fun _ => none) (fun _ _ => rfl) fun location => .pure rfl

theorem genFields_blind (l : List FieldDef) : Blind (genFields l) := by
  induction l with
  | nil => exact .pure rfl
  | cons f rest ih =>
    unfold genFields
    split
    · next init _ =>
      exact .bind (value_blind init.lower_blind) fun _ =>
        .bind (.emitAll Ownership.map_initialise) fun _ => ih
    · exact ih

theorem map_operationOf {g : Gen Operation} (h : Keeps Operation.erase g) :
    (operationOf { setting with debug := true } g).map Operation.erase =
      operationOf { setting with debug := false } g := by
  unfold operationOf
  rw [← h setting {}]
  cases g.run { setting with debug := true } {} <;> rfl

theorem map_lowerFunction (name : String) (f : FunctionDef) :
    (lowerFunction { setting with debug := true } name f).map Operation.erase =
      lowerFunction { setting with debug := false } name f :=
  map_operationOf setting (genOperation_keeps (Stmt.lowerBlock_blind f.body))

theorem map_lowerType (t : TypeDef) :
    (lowerType { setting with debug := true } t).map (List.map Operation.erase) =
      lowerType { setting with debug := false } t := by
  have hmethods := mapM_erase (fun m : FunctionDef => map_lowerFunction setting m.name m) t.methods
  simp only [lowerType, pure_bind]
  split
  · exact bind_erase (map_operationOf setting (genOperation_keeps (genFields_blind _))) fun _ =>
      bind_erase hmethods fun _ => rfl
  · exact bind_erase hmethods fun _ => rfl

theorem map_lowerConstruct (c : ConstructDef) :
    (lowerConstruct { setting with debug := true } c).map Construct.erase =
      lowerConstruct { setting with debug := false } c := by
  cases c with
  | function f => exact bind_erase (map_lowerFunction setting _ f) fun _ => rfl
  | type t => exact bind_erase (map_lowerType setting t) fun _ => rfl
  | program p => exact bind_erase (map_lowerFunction setting _ _) fun _ => rfl

end Lowering

/-- Attaching locations does not interfere with lowering: it fails with the same defect with and without
them, and the unit with locations is the one without once they are erased from its constructs, its
operations and its instructions at every depth. -/
theorem lower_erases (m : SourceModule) (types : TypeOracle) :
    (m.lower types true).map CodeUnit.erase = m.lower types false :=
  bind_erase (mapM_erase (Lowering.map_lowerConstruct ⟨true, types, m.enums⟩) m.constructs) fun _ => rfl

end ScopedIR
