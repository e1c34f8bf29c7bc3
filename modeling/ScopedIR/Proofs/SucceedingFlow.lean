import ScopedIR.Proofs.Succeeding

/-!
# Statements lower without defects

The code of a statement whose parts succeed succeeds itself. The states that lowering goes through
agree with the surroundings that the source is well-formed in: a variable that lowering takes for a
parameter is one that no other declaration hides, and lowering is inside a finally block, or protected
by one, only where the source is.

Main definitions: `State.Within`, and `BlockSucceeds` and `StmtSucceeds` for the code of blocks and
statements.

Main statements: one for each form of statement, such as `genDeclare_succeeds` and `genIf_moves`.
-/

namespace ScopedIR

open Lowering Layout

namespace Lowering

open Gen

/-! ### States and surroundings -/

theorem Surroundings.hide_nil (c : Surroundings) : c.hide [] = c := by
  simp [Surroundings.hide]

theorem guardName_none : guardName none = [] := rfl

/-- The state of lowering agrees with the surroundings in the source. -/
structure State.Within (c : Surroundings) (s : State) : Prop where
  ready : s.Ready
  params : ∀ x v, s.lookup x = some v → v.isParam = true → x ∈ c.params
  inFinally : s.inFinally = true → c.inFinally = true
  pastFinally : s.returnsPastFinally = true → c.pastFinally = true

namespace State.Within

variable {c : Surroundings} {s s' : State}

theorem same (h : s.Within c) (hsame : Same s s') : s'.Within c where
  ready := h.ready.same hsame
  params := by
    have hlookup : s'.lookup = s.lookup := by
      funext x
      unfold State.lookup
      rw [hsame.scopes]
    rw [hlookup]
    exact h.params
  inFinally := by
    unfold State.inFinally
    rw [hsame.finallyDepth]
    exact h.inFinally
  pastFinally := by
    unfold State.returnsPastFinally
    rw [hsame.handlers]
    exact h.pastFinally

theorem enterScope (h : s.Within c) {k : String} (hk : k ≠ "") : (s.enterScope k).Within c where
  ready := by
    constructor
    · exact List.cons_ne_nil _ _
    · intro frame hframe
      rcases List.mem_cons.1 hframe with rfl | hframe
      · exact hk
      · exact h.ready.named frame hframe
  params := h.params
  inFinally := h.inFinally
  pastFinally := h.pastFinally

theorem enterHandler (h : s.Within c) (hasFinally : Bool) :
    (s.enterHandler hasFinally).Within (c.protect hasFinally) where
  ready := ⟨h.ready.opened, h.ready.named⟩
  params := h.params
  inFinally := h.inFinally
  pastFinally := by
    intro hpast
    show (c.pastFinally || hasFinally) = true
    have hany : (hasFinally || s.returnsPastFinally) = true := hpast
    rcases Bool.or_eq_true_iff.1 hany with hnew | hold
    · rw [hnew, Bool.or_true]
    · rw [h.pastFinally hold, Bool.true_or]

theorem enterFinally (h : s.Within c) : s.enterFinally.Within c.lastly where
  ready := ⟨h.ready.opened, h.ready.named⟩
  params := h.params
  inFinally := fun _ => rfl
  pastFinally := h.pastFinally

/-- Where fewer parameters are visible, no others are. -/
theorem of_hide {names : List String} (h : s.Within (c.hide names)) : s.Within c where
  ready := h.ready
  params := fun x v hv hparam => (List.mem_filter.1 (h.params x v hv hparam)).1
  inFinally := h.inFinally
  pastFinally := h.pastFinally

theorem hide_nil (h : s.Within c) : s.Within (c.hide []) := by
  rw [Surroundings.hide_nil]
  exact h

end State.Within

variable {s' s1 : State} {type x k scope name : String} {block : BlockCode} {condition value : Code}
  {kind : ChainKind} {guards : Option (GuardVariables Instr)} {guard : Option GuardCode}
  {branches : List (Code × BlockCode)} {otherwise : Option BlockCode} {cases : List (Case Instr)}
  {fallback : Option (CaseBody Instr)}

theorem lookup_declare_self {s : State} {isParam : Bool} (h : s.declare x type isParam = .ok s') :
    s'.lookup x = some { type, isParam } := by
  unfold State.declare at h
  split at h
  · cases h
  · cases h
    simp [State.lookup, FinMap.get?_insert_self]

theorem State.Ready.declare {s : State} (h : s.Ready) (x type : String) (isParam : Bool) :
    ∃ s', s.declare x type isParam = .ok s' := by
  unfold State.declare
  cases hs : s.scopes with
  | nil => exact absurd hs h.opened
  | cons frame outer => exact ⟨_, rfl⟩

theorem State.Ready.kept {s s' : State} (h : s.Ready) (hkept : Kept s s') : s'.Ready := by
  have hids := hkept.ids
  unfold State.openScopes at hids
  constructor
  · intro hnil
    rw [hnil, List.map_nil] at hids
    exact h.opened (List.map_eq_nil_iff.1 hids.symm)
  · intro frame hframe
    have hid : frame.id ∈ s.scopes.map (·.id) := by
      rw [← hids]
      exact List.mem_map_of_mem hframe
    obtain ⟨frame', hframe', heq⟩ := List.mem_map.1 hid
    rw [← heq]
    exact h.named frame' hframe'

/-- Where only the innermost scope has changed, the parameters that are visible have to be looked at
again, and nothing else. -/
theorem State.Within.kept {c : Surroundings} {s s' : State} (h : s.Within c) (hkept : Kept s s')
    {names : List String}
    (hparams : ∀ x v, s'.lookup x = some v → v.isParam = true → x ∈ names) :
    s'.Within { c with params := names } where
  ready := h.ready.kept hkept
  params := hparams
  inFinally := by
    unfold State.inFinally
    rw [hkept.finallyDepth]
    exact h.inFinally
  pastFinally := by
    unfold State.returnsPastFinally
    rw [hkept.handlers]
    exact h.pastFinally

/-- A declaration hides the parameter of its name. -/
theorem State.Within.declare {c : Surroundings} {s : State} (h : s.Within c)
    (hs' : s.declare x type false = .ok s') : s'.Within (c.hide [x]) := by
  apply h.kept (kept_declare hs')
  intro y v hv hparam
  by_cases hy : x = y
  · subst hy
    rw [lookup_declare_self hs'] at hv
    cases hv
    cases hparam
  · rw [lookup_declare hs' hy] at hv
    rw [List.mem_filter]
    refine ⟨h.params y v hv hparam, ?_⟩
    simpa using fun heq => hy heq.symm

theorem State.Within.declareParam {c : Surroundings} {s : State} (h : s.Within c)
    (hx : x ∈ c.params) (hs' : s.declare x type true = .ok s') : s'.Within c := by
  apply h.kept (kept_declare hs')
  intro y v hv hparam
  by_cases hy : x = y
  · exact hy ▸ hx
  · rw [lookup_declare hs' hy] at hv
    exact h.params y v hv hparam

/-- The scope that was entered can be exited, whatever was declared in it. -/
theorem exists_exitScope {s : State} (h : Kept (s.enterScope k) s1) :
    ∃ s2, s1.exitScope k = .ok s2 ∧ Same s s2 := by
  have hids : s1.openScopes = k :: s.openScopes := h.ids
  unfold State.openScopes at hids
  cases hs : s1.scopes with
  | nil =>
    rw [hs] at hids
    cases hids
  | cons frame outer =>
    rw [hs, List.map_cons, List.cons.injEq] at hids
    have hexit : s1.exitScope k = .ok { s1 with scopes := outer } := by
      unfold State.exitScope
      rw [hs]
      exact if_pos hids.1
    exact ⟨_, hexit, same_of_exitScope h hexit⟩

/-! ### Scopes around blocks and conditions -/

variable {setting : Setting} {c : Surroundings} {s : State} {location : Option Location}

theorem enterScope_moves : (Gen.enterScope k).Moves setting s (fun _ => True) (s.enterScope k) :=
  .update fun _ hs => ⟨congrArg (_ :: ·) hs.scopes, hs.handlers, hs.finallyDepth⟩

theorem exitScope_moves (h : Kept (s.enterScope k) s1) :
    (Gen.exitScope k).Moves setting s1 (fun _ => True) s :=
  .tryUpdate fun _ hs => exists_exitScope (h.trans hs.kept)

/-- The code of a block succeeds in its surroundings, and leaves everything but the innermost scope as
it was. -/
def BlockSucceeds (setting : Setting) (c : Surroundings) (block : BlockCode) : Prop :=
  ∀ s, s.Within c → block.Succeeds setting s fun _ s' => Kept s s' ∧ s'.Within c

/-- The code of a statement succeeds in its surroundings, and hides parameters by the names that it
declares. -/
def StmtSucceeds (setting : Setting) (c : Surroundings) (names : List String) (g : Gen Unit) : Prop :=
  ∀ s, s.Within c → g.Succeeds setting s fun _ s' => Kept s s' ∧ s'.Within (c.hide names)

theorem BlockSucceeds.of_reaches
    (h : ∀ {s}, s.Within c → block.Reaches setting s fun _ s' => Kept s s' ∧ s'.Within c) :
    BlockSucceeds setting c block := fun s hs => h hs s (.refl s)

/-- A block after work that may have declared variables. -/
theorem BlockSucceeds.after {c' : Surroundings} (hblock : BlockSucceeds setting c' block)
    (h : s1.Within c') (hkept : Kept s s1) (hc : ∀ {s : State}, s.Within c' → s.Within c) :
    block.Reaches setting s1 fun _ s' => Kept s s' ∧ s'.Within c :=
  fun s2 hs => (hblock s2 (h.same hs)).mono fun _ _ hu => ⟨hkept.trans (hs.kept.trans hu.1), hc hu.2⟩

/-- The end of a block. -/
theorem block_ends {departs : Bool} (h : s1.Within c) (hkept : Kept s s1) :
    (pure departs : BlockCode).Reaches setting s1 fun _ s' => Kept s s' ∧ s'.Within c :=
  fun _ hs => succeeds_pure ⟨hkept.trans hs.kept, h.same hs⟩

theorem StmtSucceeds.of_reaches {names : List String} {g : Gen Unit}
    (h : ∀ {s}, s.Within c → g.Reaches setting s fun _ s' => Kept s s' ∧ s'.Within (c.hide names)) :
    StmtSucceeds setting c names g := fun s hs => h hs s (.refl s)

/-- A statement that declares nothing. -/
theorem StmtSucceeds.of_same {g : Gen Unit}
    (h : ∀ {s}, s.Within c → g.Stays setting s) : StmtSucceeds setting c [] g :=
  fun s hs => (h hs s (.refl s)).mono fun _ _ h' => ⟨h'.2.kept, (hs.same h'.2).hide_nil⟩

theorem StmtSucceeds.located {names : List String} {token : Option Location}
    {g : Option Location → Gen Unit} (h : ∀ location, StmtSucceeds setting c names (g location)) :
    StmtSucceeds setting c names (do g (← Gen.location token)) :=
  fun s hs => succeeds_bind (succeeds_location (h _ s hs))

/-- A statement that declares nothing, with its place in the source. -/
theorem StmtSucceeds.still {token : Option Location} {g : Option Location → Gen Unit}
    (h : ∀ location, ∀ {s : State}, s.Within c → (g location).Stays setting s) :
    StmtSucceeds setting c [] (do g (← Gen.location token)) :=
  .located fun location => .of_same (h location)

theorem StmtSucceeds.reaches {names : List String} {g : Gen Unit} (h : StmtSucceeds setting c names g)
    (hs : s.Within c) : g.Reaches setting s fun _ s' => Kept s s' ∧ s'.Within (c.hide names) :=
  fun s1 hsame => (h s1 (hs.same hsame)).mono fun _ _ h' => ⟨hsame.kept.trans h'.1, h'.2⟩

theorem genScoped_moves (hk : k ≠ "") (hblock : BlockSucceeds setting c block) (h : s.Within c) :
    (genScoped k block).Stays setting s := by
  refine .bind (.emit (Instr.scopeEnter_ok hk)) fun _ _ => enterScope_moves.bind fun _ _ => ?_
  refine (hblock.after (h.enterScope hk) (.refl _) id).reach fun departs s1 h1 => ?_
  refine (exitScope_moves h1.1).bind fun _ _ => ?_
  cases departs with
  | true => exact .pure trivial
  | false => exact .emit (Instr.scopeExit_ok hk)

theorem scopedBody_moves (hblock : BlockSucceeds setting c block) (h : s.Within c) :
    (scopedBody block).Stays setting s :=
  scopeId_moves.bind fun _ hk => .capturing (genScoped_moves hk hblock h) fun _ _ _ => .pure trivial

theorem scopedCondition_moves {code : Gen (String × String)}
    (hcode : ∀ {s}, s.Ready → code.Moves setting s (fun r => r.2 ≠ "") s)
    (h : s.Within c) : (scopedCondition code).Stays setting s := by
  refine scopeId_moves.bind fun k hk => .capturing (P := fun r => r.2 ≠ "") (t := s) ?_
    fun r _ hprimitive => .check (buildCondition_ok hprimitive) (.pure trivial)
  refine .bind (.emit (Instr.scopeEnter_ok hk)) fun _ _ => enterScope_moves.bind fun _ _ => ?_
  refine (hcode (h.enterScope hk).ready).bind fun names hprimitive => ?_
  refine (exitScope_moves (.refl _)).bind fun _ _ => ?_
  exact .bind (.emit (Instr.scopeExit_ok hk)) fun _ _ => .pure hprimitive

theorem genCondition_moves (hcondition : condition.Valued) (h : s.Within c) :
    (genCondition condition).Stays setting s :=
  scopedCondition_moves (fun hs => (valueAndPrimitive_moves hcondition hs).mono fun _ hr => hr.2) h

/-! ### Chains -/

theorem start_ok {ι : Type} (h : scope ≠ "") :
    (Chain.start kind scope : Except Defect (Chain ι)) = .ok { kind, scope } := by
  unfold Chain.start
  rw [if_neg (by simpa using h)]

/-- A chain is valid if it has something to choose from, nothing of a try chain unless it is one, and
what its form asks for. -/
theorem validate_ok {ι : Type} {c : Chain ι}
    (hparts : c.cases ≠ [] ∨ c.fallback.isSome = true ∨ c.kind = .tryCatchFinally)
    (hstray : c.kind = .tryCatchFinally ∨ c.tryBlock = none ∧ c.finallyBlock = none)
    (hform : c.checkForm = .ok ()) (hloop : c.kind.isLoop = true → c.fallback = none) :
    c.validate = .ok c := by
  have hparts' : (!c.cases.isEmpty || c.fallback.isSome || c.kind == .tryCatchFinally) = true := by
    rcases hparts with h | h | h
    · simp [h]
    · simp [h]
    · simp [h]
  have hstray' :
      (c.kind == .tryCatchFinally || (c.tryBlock.isNone && c.finallyBlock.isNone)) = true := by
    rcases hstray with h | ⟨h, h'⟩
    · simp [h]
    · simp [h, h']
  have hloop' : (!(c.kind.isLoop && c.fallback.isSome)) = true := by
    by_cases h : c.kind.isLoop = true
    · simp [hloop h]
    · simp [h]
  unfold Chain.validate
  dsimp only
  rw [hparts', hstray', hform, hloop']
  rfl

/-! ### Declarations and assignments -/

theorem genBind_moves {init : Code} (hk : k ≠ "") (hname : name ≠ "") (htype : type ≠ "")
    (hinit : init.Valued) (h : s.Ready) :
    (genBind location k name type init).Stays setting s :=
  .bind (.emitAll (Ownership.declare_ok hname htype hk)) fun _ _ => (hinit.moves h).bind
    fun _ hvalue => .emitAll (Ownership.initialise_ok hname hvalue)

theorem declare_reaches (h : s.Within c) :
    (Gen.declare name type).Reaches setting s fun _ s' => Kept s s' ∧ s'.Within (c.hide [name]) := by
  intro s1 hsame
  obtain ⟨s2, hs2⟩ := (h.same hsame).ready.declare name type false
  exact succeeds_tryUpdate hs2 ⟨hsame.kept.trans (kept_declare hs2), (h.same hsame).declare hs2⟩

theorem genDeclare_succeeds {init : Option Code} (hname : name ≠ "") (htype : type ≠ "")
    (hinit : ∀ code ∈ init, code.Valued) :
    StmtSucceeds setting c [name] (genDeclare location name type init) := by
  refine .of_reaches fun h => (currentScope_moves h.ready).bind fun k hk => ?_
  cases init with
  | none =>
    exact .bind (.emitAll (Ownership.declare_ok hname htype hk)) fun _ _ => declare_reaches h
  | some code =>
    exact (genBind_moves hk hname htype (hinit code rfl) h.ready).bind fun _ _ => declare_reaches h

/-- A name that is no visible parameter may be assigned. -/
theorem checkAssignable_moves (hname : name ∉ c.params) (h : s.Within c) :
    (checkAssignable name).Stays setting s := by
  refine .ofState fun s' hs => ?_
  cases hv : s'.lookup name with
  | none => exact .pure trivial
  | some v =>
    obtain ⟨type, isParam⟩ := v
    cases isParam with
    | true => exact absurd ((h.same hs).params name _ hv rfl) hname
    | false => exact .pure trivial

theorem genAssign_moves (hne : name ≠ "") (hname : name ∉ c.params) (hvalue : value.Valued)
    (h : s.Within c) : (genAssign location name value).Stays setting s :=
  (checkAssignable_moves hname h).bind fun _ _ => (hvalue.moves h.ready).bind fun _ hx =>
    .emitAll (Ownership.assign_ok hne hx)

theorem genAssignField_moves {object field : String} (hvalue : value.Valued) (h : s.Within c) :
    (genAssignField location object field value).Stays setting s := by
  have hne : object ++ "." ++ field ≠ "" := by simp
  exact (hvalue.moves h.ready).bind fun _ hx => .emitAll (Ownership.assign_ok hne hx)

/-- A block that assigns a variable. -/
theorem assigning_succeeds (hne : name ≠ "") (hvalue : value.Valued) :
    BlockSucceeds setting c (do
      let value ← value.value
      Gen.emitAll (Ownership.assign location name value)
      return false) :=
  .of_reaches fun h => (hvalue.moves h.ready).bind fun _ hx =>
    .bind (.emitAll (Ownership.assign_ok hne hx)) fun _ _ => block_ends h (.refl _)

/-- The test whether a variable is unset. -/
theorem unsetTest_moves (hne : name ≠ "") (type : String) (h : s.Ready) :
    (do
      let current ← genVar none name
      let isSet ← genIsSet none current type
      let not := (Symbol.method TypeName.boolean "_not" TypeName.boolean).asPure
      let unset ← genCallValue isSet not []
      return (unset, ← genPrimitive unset TypeName.boolean)).Moves setting s (fun r => r.2 ≠ "") s := by
  refine (genVar_moves hne).bind fun current hcurrent => ?_
  refine (genIsSet_moves hcurrent type h).bind fun isSet _ => ?_
  refine (genCallValue_moves h isSet [] boolean_ne_void).bind fun unset _ => ?_
  exact (genPrimitive_moves unset TypeName.boolean).bind fun _ hprimitive => .pure hprimitive

theorem genAssignUnset_moves (hne : name ≠ "") (hname : name ∉ c.params)
    (hvalue : value.Valued) (h : s.Within c) :
    (genAssignUnset location name value).Stays setting s := by
  refine (checkAssignable_moves hname h).bind fun _ _ => .ofState fun s' _ => ?_
  refine scopeId_moves.bind fun k hk => enterScope_moves.bind fun _ _ => ?_
  have hinner := h.enterScope hk
  refine (scopedCondition_moves (unsetTest_moves hne _) hinner).bind fun r _ => ?_
  refine (scopedBody_moves (assigning_succeeds hne hvalue) hinner).bind fun b _ => ?_
  refine (exitScope_moves (.refl _)).bind fun _ _ => ?_
  have hchain : ∀ case : Case Instr, case.kind = .expression →
      Chain.guardedAssignment case k = .ok { kind := .guardedAssignment, scope := k, cases := [case] } := by
    intro case hcase
    unfold Chain.guardedAssignment
    rw [start_ok hk]
    show Chain.validate { kind := .guardedAssignment, scope := k, cases := [case] } = _
    apply validate_ok
    · exact .inl (by simp)
    · exact .inr ⟨rfl, rfl⟩
    · simp [Chain.checkForm, Chain.allCases, hcase]
    · intro hloop
      cases hloop
  exact .check (hchain _ rfl) (.emitAll (Chain.place_ok (by simp) hk (by simp)))

/-! ### Guards -/

/-- A guard declares a named variable with a value. -/
def GuardCode.Succeeds (g : GuardCode) : Prop := g.name ≠ "" ∧ g.type ≠ "" ∧ g.init.Valued

/-- The scope of a guard, if there is one, is open on top of the state. -/
def Opened (s : State) (guards : Option (GuardVariables Instr)) (s' : State) : Prop :=
  match guards with
  | some g => g.scope ≠ "" ∧ Kept (s.enterScope g.scope) s'
  | none => Same s s'

theorem Opened.same {s2 : State} (h : Opened s guards s1) (hsame : Same s1 s2) :
    Opened s guards s2 := by
  cases guards with
  | none => exact h.trans hsame
  | some g => exact ⟨h.1, h.2.trans hsame.kept⟩

theorem Opened.scope_ne (h : Opened s guards s1) : ∀ g ∈ guards, g.scope ≠ "" := by
  intro g hg
  cases hg
  exact h.1

theorem openGuard_reaches {guard : GuardCode} (hguard : guard.Succeeds) (h : s.Within c) :
    (openGuard guard).Reaches setting s fun v s' =>
      Opened s (some v) s' ∧ s'.Within (c.hide [guard.name]) := by
  refine scopeId_moves.bind fun k hk => enterScope_moves.bind fun _ _ => ?_
  have hinner := h.enterScope hk
  refine .capturing (genBind_moves hk hguard.1 hguard.2.1 hguard.2.2 hinner.ready) fun _ _ _ => ?_
  refine (declare_reaches hinner).reach fun _ s1 h1 s2 hs => ?_
  exact succeeds_pure ⟨⟨hk, h1.1.trans hs.kept⟩, h1.2.same hs⟩

theorem openGuard?_reaches (hguard : ∀ g ∈ guard, g.Succeeds) (h : s.Within c) :
    (openGuard? guard).Reaches setting s fun v s' =>
      Opened s v s' ∧ s'.Within (c.hide (guardName guard)) := by
  cases guard with
  | none => exact fun _ hs => succeeds_pure ⟨hs, (h.same hs).hide_nil⟩
  | some g =>
    refine (openGuard_reaches (hguard g rfl) h).reach fun v s1 h1 s2 hs => ?_
    exact succeeds_pure ⟨h1.1.same hs, h1.2.same hs⟩

theorem closeGuard?_moves (h : Opened s guards s1) :
    (closeGuard? guards).Moves setting s1 (fun _ => True) s := by
  cases guards with
  | none => exact fun _ hs => succeeds_pure ⟨trivial, h.trans hs⟩
  | some g => exact exitScope_moves h.2

theorem genGuardUpdate_moves {guard : GuardCode} (hguard : guard.Succeeds) (h : s.Within c) :
    (genGuardUpdate guard).Stays setting s :=
  scopeId_moves.bind fun _ hk =>
    .capturing (genScoped_moves hk (assigning_succeeds hguard.1 hguard.2.2) h) fun _ _ _ => .pure trivial

/-! ### Conditionals -/

theorem genBranch_moves (hcondition : condition.Valued)
    (hblock : BlockSucceeds setting c block) (h : s.Within c) :
    (genBranch condition block).Moves setting s (fun case => case.kind = .expression) s :=
  (genCondition_moves hcondition h).bind fun _ _ => (scopedBody_moves hblock h).bind fun _ _ => .pure rfl

theorem genBranches_moves
    (hbranches : ∀ b ∈ branches, b.1.Valued ∧ BlockSucceeds setting c b.2) (h : s.Within c) :
    (genBranches branches).Moves setting s (fun cases =>
      cases.length = branches.length ∧ ∀ k ∈ cases, k.kind = .expression) s := by
  induction branches with
  | nil => exact .pure ⟨rfl, by simp⟩
  | cons b rest ih =>
    obtain ⟨hcondition, hblock⟩ := hbranches b List.mem_cons_self
    refine (genBranch_moves hcondition hblock h).bind fun case hcase => ?_
    refine (ih fun b hb => hbranches b (List.mem_cons_of_mem _ hb)).bind fun cases hcases => .pure ?_
    exact ⟨by simp [hcases.1], by simpa using ⟨hcase, hcases.2⟩⟩

theorem genFallback_moves (hotherwise : ∀ b ∈ otherwise, BlockSucceeds setting c b)
    (h : s.Within c) :
    (genFallback otherwise).Moves setting s (fun r => r.isSome = otherwise.isSome) s := by
  cases otherwise with
  | none => exact .pure rfl
  | some block => exact (scopedBody_moves (hotherwise block rfl) h).bind fun _ _ => .pure rfl

theorem guardFirst_succeeds (hguard : ∀ g ∈ guard, g.Succeeds)
    (hbranches : ∀ b ∈ branches, b.1.Valued ∧ BlockSucceeds setting c b.2) :
    ∀ b ∈ guardFirst guard branches, b.1.Valued ∧ BlockSucceeds setting c b.2 := by
  cases guard with
  | none => exact hbranches
  | some g =>
    cases branches with
    | nil => exact hbranches
    | cons b rest =>
      intro b' hb'
      rcases List.mem_cons.1 hb' with rfl | hb'
      · obtain ⟨hcondition, hblock⟩ := hbranches b List.mem_cons_self
        exact ⟨Code.guarded_valued (hguard g rfl).1 g.type hcondition, hblock⟩
      · exact hbranches b' (List.mem_cons_of_mem _ hb')

theorem length_guardFirst (guard : Option GuardCode) (branches : List (Code × BlockCode)) :
    (guardFirst guard branches).length = branches.length := by
  cases guard with
  | none => rfl
  | some g => cases branches <;> rfl

/-- Branches with expressions as conditions form a conditional. -/
theorem validate_conditional (hcases : cases ≠ []) (hkind : ∀ k ∈ cases, k.kind = .expression) :
    ∃ chain : Chain Instr,
      Chain.validate { kind := if cases.length = 1 then .ifElse else .ifElseIf, scope, cases, fallback }
        = .ok chain ∧ chain.result = none ∧ chain.scope = scope := by
  refine ⟨_, validate_ok (.inl hcases) (.inr ⟨rfl, rfl⟩) ?_ ?_, rfl, rfl⟩
  · by_cases hone : cases.length = 1
    · simp only [Chain.checkForm, hone, if_true]
      simpa [Chain.allCases, hone] using hkind
    · simp only [Chain.checkForm, hone, if_false]
      simpa [Chain.allCases] using hkind
  · intro hloop
    split at hloop <;> cases hloop

theorem genIf_moves (hguard : ∀ g ∈ guard, g.Succeeds) (hne : branches ≠ [])
    (hbranches : ∀ b ∈ branches,
      b.1.Valued ∧ BlockSucceeds setting (c.hide (guardName guard)) b.2)
    (hotherwise : ∀ b ∈ otherwise, BlockSucceeds setting (c.hide (guardName guard)) b)
    (h : s.Within c) :
    (genIf location guard branches otherwise).Stays setting s := by
  unfold genIf
  rw [if_neg (by simpa using hne)]
  refine (openGuard?_reaches hguard h).reach fun guards s1 h1 => ?_
  refine scopeId_moves.bind fun k hk => enterScope_moves.bind fun _ _ => ?_
  have hinner := h1.2.enterScope hk
  refine (genBranches_moves (guardFirst_succeeds hguard hbranches) hinner).bind fun cases hcases => ?_
  refine .check (start_ok hk) ((genFallback_moves hotherwise hinner).bind fun fallback _ => ?_)
  refine (exitScope_moves (.refl _)).bind fun _ _ => (closeGuard?_moves h1.1).bind fun _ _ => ?_
  have hcases' : cases ≠ [] := by
    intro hnil
    rw [hnil, length_guardFirst] at hcases
    exact hne (List.length_eq_zero_iff.1 hcases.1.symm)
  obtain ⟨chain, hchain, hresult, hscope⟩ := validate_conditional hcases' hcases.2
  refine .check hchain (.emitAll (Chain.place_ok ?_ ?_ h1.1.scope_ne))
  · simp [hresult]
  · rw [hscope]
    exact hk

end Lowering

end ScopedIR
