import ScopedIR.Proofs.SucceedingFlow

/-!
# Switches, loops and exceptions lower without defects

The chains of these statements are valid: their cases are of one kind, and their parts are there.
Scopes, try chains and finally blocks are left as they were entered.

Main statements: `genSwitch_succeeds`, `genWhile_moves`, `genForRange_moves`, `genTry_moves` and
`genThrow_moves`.
-/

namespace ScopedIR

open Lowering Layout

namespace Lowering

open Gen

variable {s : State} {type scope name exception : String} {block : BlockCode}
  {condition value : Code} {kind : ChainKind} {guard returning : Option GuardCode}
  {otherwise : Option BlockCode} {cases : List (Case Instr)} {fallback : Option (CaseBody Instr)}
  {test : SwitchTest} {enum : Option EnumType} {catches : List (Catch BlockCode)}
  {setting : Setting} {c : Surroundings} {location : Option Location}

/-! ### Switches -/

/-- A case of a switch compares with a value and has a block that succeeds. -/
def CaseSucceeds (setting : Setting) (c : Surroundings) (k : SwitchCase BlockCode) : Prop :=
  k.test.WellFormed ∧ BlockSucceeds setting c k.body

theorem operatorMethod_equal : operatorMethod "==" = .ok "_eq" := by decide +kernel

theorem genTest_moves (subject : String) (htype : type ≠ "") (htest : test.WellFormed)
    (h : s.Within c) : (genTest subject type test).Stays setting s := by
  refine scopedCondition_moves (fun {s} hs => ?_) h
  have hcompare : ∀ candidate, candidate ≠ "" → (do
      let method ← Gen.ofExcept (operatorMethod "==")
      let symbol := ((Symbol.method type method TypeName.boolean).asPure).withParams [type]
      let result ← genCallValue subject symbol [candidate]
      return (result, ← genPrimitive result TypeName.boolean)).Moves setting s (fun r => r.2 ≠ "") s := by
    intro candidate _
    refine .check operatorMethod_equal ?_
    refine (genCallValue_moves hs subject [candidate] boolean_ne_void).bind fun result _ => ?_
    exact (genPrimitive_moves result TypeName.boolean).bind fun _ hprimitive => .pure hprimitive
  cases test with
  | value e => exact (htest.lower_valued.moves hs).bind hcompare
  | enumConstant constant => exact (genLiteral_moves hs htype).bind hcompare

/-- The kinds of cases that a switch has, by whether it is over an enumeration. -/
def SwitchKind (enum : Option EnumType) (k : Case Instr) : Prop :=
  match enum with
  | some _ => k.kind.isEnumConstant = true
  | none => k.kind = .literal ∨ k.kind = .expression

/-- The test of a switch over an enumeration is one of its constants. -/
def TestFits (enum : Option EnumType) (test : SwitchTest) : Prop :=
  ∀ e ∈ enum, ∃ constant, test = .enumConstant constant ∧ constant ≠ "" ∧ constant ∈ e.constants

theorem exists_ordinal {e : EnumType} {constant : String} (h : constant ∈ e.constants) :
    ∃ ordinal, e.ordinal? constant = some ordinal := by
  unfold EnumType.ordinal?
  cases hidx : e.constants.findIdx? (· = constant) with
  | none => exact absurd (List.findIdx?_eq_none_iff.1 hidx constant h) (by simp)
  | some i => exact ⟨_, rfl⟩

theorem switchCase_ok (scope : String) (condition : CaseCondition Instr) (body : CaseBody Instr)
    (htest : TestFits enum test) :
    ∃ k, switchCase enum test scope condition body = .ok k ∧ SwitchKind enum k := by
  cases enum with
  | none =>
    cases test with
    | enumConstant constant => exact ⟨_, rfl, .inl rfl⟩
    | value e =>
      refine ⟨_, rfl, ?_⟩
      cases e.isLiteral with
      | true => exact .inl rfl
      | false => exact .inr rfl
  | some e =>
    obtain ⟨constant, rfl, hne, hmem⟩ := htest e rfl
    obtain ⟨ordinal, hordinal⟩ := exists_ordinal hmem
    unfold switchCase Case.enumConstant
    dsimp only
    rw [hordinal]
    dsimp only
    rw [if_neg (by simpa using hne)]
    exact ⟨_, rfl, rfl⟩

theorem genSwitchCases_moves {cases : List (SwitchCase BlockCode)} (subject : String)
    (htype : type ≠ "") (hcases : ∀ k ∈ cases, CaseSucceeds setting c k)
    (hfits : ∀ k ∈ cases, TestFits enum k.test) (h : s.Within c) :
    (genSwitchCases subject type enum cases).Moves setting s (fun r =>
      r.length = cases.length ∧ ∀ k ∈ r, SwitchKind enum k) s := by
  induction cases with
  | nil => exact .pure ⟨rfl, by simp⟩
  | cons k rest ih =>
    obtain ⟨htest, hbody⟩ := hcases k List.mem_cons_self
    refine (genTest_moves subject htype htest h).bind fun r _ => ?_
    refine (scopedBody_moves hbody h).bind fun b _ => ?_
    obtain ⟨case, hcase, hkind⟩ :=
      switchCase_ok r.2 r.1 { evaluation := b.2 } (hfits k List.mem_cons_self)
    refine .check hcase ((ih (fun k hk => hcases k (List.mem_cons_of_mem _ hk))
      fun k hk => hfits k (List.mem_cons_of_mem _ hk)).bind fun cases hrest => .pure ?_)
    refine ⟨by simp [hrest.1], fun k' hk' => ?_⟩
    rcases List.mem_cons.1 hk' with rfl | hk'
    · cases enum <;> exact hkind
    · exact hrest.2 k' hk'

theorem genReturning_reaches (hreturning : ∀ g ∈ returning, g.Succeeds) (h : s.Within c) :
    (genReturning returning).Reaches setting s fun _ s' =>
      Kept s s' ∧ s'.Within (c.hide (guardName returning)) := by
  cases returning with
  | none => exact fun _ hs => succeeds_pure ⟨hs.kept, (h.same hs).hide_nil⟩
  | some g =>
    obtain ⟨hname, htype, hinit⟩ := hreturning g rfl
    refine (currentScope_moves h.ready).bind fun k hk => ?_
    refine .capturing (genBind_moves hk hname htype hinit h.ready) fun _ _ _ => ?_
    refine (declare_reaches h).reach fun _ s1 h1 s2 hs => ?_
    exact succeeds_pure ⟨h1.1.trans hs.kept, h1.2.same hs⟩

/-- Cases of the right kinds, or a block for the case that none holds, form a switch. -/
theorem validate_switch {subject : ChainVariable Instr} {returning : Option (ChainVariable Instr)}
    {dispatch : Option EnumDispatch} (hcases : cases ≠ [] ∨ fallback.isSome = true)
    (hkinds : ∀ k ∈ cases, SwitchKind enum k) (hdispatch : dispatch.isSome = enum.isSome) :
    ∃ chain : Chain Instr,
      Chain.validate
          { kind := if enum.isSome then .switchEnum else .switch, scope, subject := some subject,
            returning, cases, fallback, dispatch } = .ok chain ∧
        chain.result = none ∧ chain.scope = scope := by
  refine ⟨_, validate_ok ?_ (.inr ⟨rfl, rfl⟩) ?_ ?_, rfl, rfl⟩
  · rcases hcases with h | h
    · exact .inl h
    · exact .inr (.inl h)
  · cases enum with
    | none =>
      have hall : cases.all (fun k => k.kind = .literal || k.kind = .expression) = true := by
        rw [List.all_eq_true]
        intro k hk
        have hkind : k.kind = .literal ∨ k.kind = .expression := hkinds k hk
        simpa using hkind
      simp only [Chain.checkForm, Option.isSome_none, Bool.false_eq_true, if_false, hall]
      rfl
    | some e =>
      have hall : cases.all (fun k => k.kind.isEnumConstant) = true := List.all_eq_true.2 hkinds
      rw [Option.isSome_some] at hdispatch
      simp only [Chain.checkForm, Option.isSome_some, if_true, hall, hdispatch]
      rfl
  · intro hloop
    cases enum <;> cases hloop

theorem dispatchOf_ok (enum : EnumType) (cases : List (Case Instr)) (hasFallback : Bool) :
    ∃ d, dispatchOf enum cases hasFallback = .ok d := by
  unfold dispatchOf EnumDispatch.build
  simp

/-- The enumeration that a switch is over, if it is over one. -/
def enumOf (setting : Setting) (type : String) (cases : List (SwitchCase BlockCode)) :
    Option EnumType :=
  if overConstants cases then setting.enumType? type else none

theorem genSwitch_succeeds {subject : Code} {cases : List (SwitchCase BlockCode)}
    (hguard : ∀ g ∈ guard, g.Succeeds) (hreturning : ∀ g ∈ returning, g.Succeeds)
    (hsubject : subject.Valued) (htype : subject.type ≠ "")
    (hparts : cases ≠ [] ∨ otherwise.isSome = true) (hcases : ∀ k ∈ cases,
      CaseSucceeds setting ((c.hide (guardName returning)).hide (guardName guard)) k)
    (hfits : ∀ k ∈ cases, TestFits (enumOf setting subject.type cases) k.test)
    (hotherwise : ∀ b ∈ otherwise,
      BlockSucceeds setting ((c.hide (guardName returning)).hide (guardName guard)) b) :
    StmtSucceeds setting c (guardName returning)
      (genSwitch location guard subject cases otherwise returning) := by
  refine .of_reaches fun {s} h => (genReturning_reaches hreturning h).reach fun returned s1 h1 => ?_
  refine (openGuard?_reaches hguard h1.2).reach fun guards s2 h2 => ?_
  refine scopeId_moves.bind fun k hk => enterScope_moves.bind fun _ _ => ?_
  have hinner := h2.2.enterScope hk
  refine .capturing (hsubject.moves hinner.ready) fun name setup _ => .ofSetting ?_
  dsimp only
  generalize henum : (if overConstants cases = true then setting.enumType? subject.type else none)
    = enum
  refine (genSwitchCases_moves name htype hcases (henum ▸ hfits) hinner).bind fun chainCases hchosen => ?_
  refine .check (start_ok hk) ?_
  -- The hints are there exactly for a switch over an enumeration; what follows needs only that.
  have hrest : ∀ dispatch : Option EnumDispatch, dispatch.isSome = enum.isSome → (do
        let fallback ← genFallback otherwise
        Gen.exitScope k
        closeGuard? guards
        let chain ← Gen.ofExcept <| Chain.validate
          { kind := if enum.isSome then .switchEnum else .switch
            scope := k
            subject := some { name, type := subject.type, setup }
            returning := returned, cases := chainCases, fallback, dispatch }
        Gen.emitAll (chain.place guards location)).Reaches setting (s2.enterScope k) fun _ s' =>
          Kept s s' ∧ s'.Within (c.hide (guardName returning)) := by
    intro dispatch hdispatch
    refine (genFallback_moves hotherwise hinner).bind fun fallback hfallback => ?_
    refine (exitScope_moves (.refl _)).bind fun _ _ => (closeGuard?_moves h2.1).bind fun _ _ => ?_
    have hsome : chainCases ≠ [] ∨ fallback.isSome = true := by
      rcases hparts with hne | hsome
      · left
        intro hnil
        rw [hnil] at hchosen
        exact hne (List.length_eq_zero_iff.1 hchosen.1.symm)
      · exact .inr (hfallback.trans hsome)
    obtain ⟨chain, hchain, hresult, hscope⟩ := validate_switch hsome hchosen.2 hdispatch
    refine .check hchain fun s' hs => succeeds_emitAll (Chain.place_ok ?_ ?_ h2.1.scope_ne) ?_
    · simp [hresult]
    · rw [hscope]
      exact hk
    · exact ⟨h1.1.trans hs.kept, h1.2.same hs⟩
  cases enum with
  | none => exact .bind (.pure rfl) fun d hd => hrest d (hd ▸ rfl)
  | some e =>
    obtain ⟨d, hd⟩ := dispatchOf_ok e chainCases otherwise.isSome
    exact .check hd (.bind (.pure rfl) fun d hd => hrest d (hd ▸ rfl))

/-! ### Loops -/

theorem genLoopParts_moves {bodyFirst : Bool} (hcondition : condition.Valued)
    (hblock : BlockSucceeds setting c block) (h : s.Within c) :
    (genLoopParts bodyFirst condition block).Stays setting s := by
  have hbody := scopedBody_moves hblock h
  have htest : (genCondition condition).Stays setting s :=
    genCondition_moves hcondition h
  cases bodyFirst with
  | true => exact hbody.bind fun _ _ => htest.bind fun _ _ => .pure trivial
  | false => exact htest.bind fun _ _ => hbody.bind fun _ _ => .pure trivial

/-- One case with an expression as condition forms a loop. -/
theorem validate_loop {case : Case Instr} (hkind : kind.isLoop = true)
    (hcase : case.kind = .expression) :
    Chain.validate { kind, scope, cases := [case] } = .ok { kind, scope, cases := [case] } := by
  apply validate_ok
  · exact .inl (by simp)
  · exact .inr ⟨rfl, rfl⟩
  · cases kind with
    | whileLoop | doWhileLoop => simp [Chain.checkForm, Chain.allCases, hcase]
    | _ => cases hkind
  · exact fun _ => rfl

theorem genLoop_moves (hkind : kind.isLoop = true) (hcondition : condition.Valued)
    (hblock : BlockSucceeds setting c block) (hguard : ∀ g ∈ guard, g.Succeeds) (h : s.Within c) :
    (genLoop location kind condition block guard).Stays setting s := by
  refine scopeId_moves.bind fun k hk => enterScope_moves.bind fun _ _ => ?_
  have hinner := h.enterScope hk
  refine (genLoopParts_moves hcondition hblock hinner).bind fun parts _ => ?_
  obtain ⟨⟨test, conditionScope⟩, bodyScope, evaluation⟩ := parts
  have hrest : ∀ updates, (do
      let case := Case.build .expression (some conditionScope) test { evaluation }
      Gen.exitScope k
      let chain ← Gen.ofExcept (Chain.start kind k)
      let chain ← Gen.ofExcept <| Chain.validate
        { chain with cases := [{ case with bodyScope := some bodyScope, updates }] }
      Gen.emitAll (chain.place none location)).Moves setting (s.enterScope k) (fun _ => True) s := by
    intro updates
    refine (exitScope_moves (.refl _)).bind fun _ _ => .check (start_ok hk) ?_
    exact .check (validate_loop hkind rfl) (.emitAll (Chain.place_ok (by simp) hk (by simp)))
  cases guard with
  | none => exact .bind (.pure rfl) fun _ _ => hrest _
  | some g => exact (genGuardUpdate_moves (hguard g rfl) hinner).bind fun _ _ => hrest _

theorem genWhile_moves (hguard : ∀ g ∈ guard, g.Succeeds) (hcondition : condition.Valued)
    (hblock : BlockSucceeds setting (c.hide (guardName guard)) block) (h : s.Within c) :
    (genWhile location guard condition block).Stays setting s := by
  unfold genWhile
  cases guard with
  | none => exact genLoop_moves rfl hcondition hblock hguard h.hide_nil
  | some g =>
    have hg := hguard g rfl
    refine (openGuard_reaches hg h).reach fun guards s1 h1 => ?_
    refine .capturing (genLoop_moves rfl (Code.guarded_valued hg.1 g.type hcondition) hblock hguard
      h1.2) fun _ chain _ => (exitScope_moves h1.1.2).bind fun _ _ => ?_
    refine .bind (.emit (Instr.scopeEnter_ok h1.1.1)) fun _ _ => ?_
    exact .bind (.emitAll ⟨_, rfl⟩) fun _ _ => .emit (Instr.scopeExit_ok h1.1.1)

/-- The loop variable of a loop may be assigned inside it. -/
theorem notMem_hide_self (c : Surroundings) (name : String) : name ∉ (c.hide [name]).params := by
  simp [Surroundings.hide]

/-- A call of a method that returns something has a value. -/
theorem methodCall_valued {target : Code} {args : List Code} {owner returns : String}
    {params : List String} {isPure : Bool} (htarget : target.Computes true)
    (hargs : ∀ c ∈ args, c.Valued) (hname : name ≠ Symbol.initName)
    (hreturns : returns ≠ TypeName.void) :
    (Code.ofCall target { name, owner, returns, params, isPure } args).Computes true :=
  Code.ofCall_computes htarget hargs (decide_eq_false hname) hreturns

/-- An assignment may come before a block. -/
theorem BlockSucceeds.assign (hne : name ≠ "") (hname : name ∉ c.params) (hvalue : value.Valued)
    (hblock : BlockSucceeds setting c block) :
    BlockSucceeds setting c (do
      genAssign none name value
      block) :=
  .of_reaches fun h => (genAssign_moves hne hname hvalue h).bind fun _ _ => hblock.after h (.refl _) id

theorem genForIn_moves {collection : Code} (hname : name ≠ "") (htype : type ≠ "")
    (hvoid : type ≠ TypeName.void) (hcollection : collection.Valued)
    (hblock : BlockSucceeds setting (c.hide [name]) block) (h : s.Within c) :
    (genForIn location name type collection block).Stays setting s := by
  refine scopeId_moves.bind fun k hk => genScoped_moves hk (.of_reaches fun h => ?_) h
  refine (hcollection.moves h.ready).bind fun items _ => ?_
  refine (genCallValue_moves h.ready items [] (show TypeName.iterator ≠ _ by decide)).bind
    fun iterator hne => ?_
  refine .bind (.emitAll (Ownership.declare_ok hname htype hk)) fun _ _ => ?_
  refine (declare_reaches h).reach fun _ s1 h1 => ?_
  have hcursor := Code.ofVar_computes hne TypeName.iterator
  refine (genLoop_moves rfl ?_ ?_ (by simp) h1.2).bind fun _ _ => block_ends h1.2.of_hide h1.1
  · exact (methodCall_valued hcursor (by simp) (by decide) boolean_ne_void).valued
  · exact hblock.assign hname (notMem_hide_self c name)
      (methodCall_valued hcursor (by simp) (by decide) hvoid).valued

theorem genAssert_moves (hcondition : condition.Valued) (h : s.Ready) :
    (genAssert location condition).Stays setting s :=
  (hcondition.moves h).bind fun value _ => (genPrimitive_moves value condition.type).bind
    fun _ hprimitive => .emitAt (Instr.assert_ok hprimitive)

/-- The names a counting loop works with are there, and its type has values. -/
structure Range.Succeeds (r : Range) : Prop where
  name : r.name ≠ ""
  first : r.first ≠ ""
  last : r.last ≠ ""
  step : ∀ step ∈ r.step, step ≠ ""
  type : r.type ≠ TypeName.void

namespace Range.Succeeds

variable {r : Range}

theorem call_valued (_ : r.Succeeds) {x y name returns : String} (hx : x ≠ "") (hy : y ≠ "")
    (hname : name ≠ Symbol.initName) (hreturns : returns ≠ TypeName.void) (params : List String) :
    (Code.ofCall (r.var x) (r.method name returns params) [r.var y]).Computes true := by
  apply methodCall_valued (Code.ofVar_computes hx r.type) _ hname hreturns
  intro c hc
  rw [List.mem_singleton.1 hc]
  exact (Code.ofVar_computes hy r.type).valued

variable {d : Direction}

theorem advance_valued (h : r.Succeeds) (hd : d.unitStep ≠ Symbol.initName) :
    (r.advance d).Valued := by
  unfold Range.advance
  cases hstep : r.step with
  | none => exact (methodCall_valued (Code.ofVar_computes h.name r.type) (by simp) hd h.type).valued
  | some step =>
    exact (h.call_valued h.name (h.step step hstep) (by decide) h.type [r.type]).valued

theorem inRange_valued (h : r.Succeeds) (hd : d.bound ≠ Symbol.initName) : (r.inRange d).Valued :=
  (h.call_valued h.name h.last hd boolean_ne_void [r.type]).valued

theorem genCheckStep_moves (h : r.Succeeds) (hd : d.progress ≠ Symbol.initName) (hs : s.Ready) :
    (r.genCheckStep d).Stays setting s := by
  unfold Range.genCheckStep
  cases hstep : r.step with
  | none => exact .pure trivial
  | some step =>
    have hadd : "_add" ≠ Symbol.initName := by decide
    have hstepped := h.call_valued h.first (h.step step hstep) hadd h.type [r.type]
    have hfirst : ∀ c ∈ [r.var r.first], c.Valued := by
      intro c hc
      rw [List.mem_singleton.1 hc]
      exact (Code.ofVar_computes h.first r.type).valued
    exact genAssert_moves (methodCall_valued hstepped hfirst hd boolean_ne_void).valued hs

end Range.Succeeds

/-- The methods of a direction are no constructors. -/
structure Direction.Plain (d : Direction) : Prop where
  bound : d.bound ≠ Symbol.initName
  unitStep : d.unitStep ≠ Symbol.initName
  progress : d.progress ≠ Symbol.initName

theorem Direction.plain_up : Direction.up.Plain := ⟨by decide, by decide, by decide⟩

theorem Direction.plain_down : Direction.down.Plain := ⟨by decide, by decide, by decide⟩

theorem genDirection_succeeds {r : Range} {d : Direction} (hr : r.Succeeds) (hd : d.Plain)
    (hname : r.name ∉ c.params) (hblock : BlockSucceeds setting c block) :
    BlockSucceeds setting c (r.genDirection d block) := by
  refine .of_reaches fun h => (hr.genCheckStep_moves hd.progress h.ready).bind fun _ _ => ?_
  refine (genWhile_moves (by simp) (hr.inRange_valued hd.bound) (.of_reaches fun {s} h => ?_) h).bind
    fun _ _ => block_ends h (.refl _)
  refine (hblock.after h.of_hide (.refl s) id).reach fun departs s1 h1 => ?_
  cases departs with
  | true => exact block_ends h1.2.hide_nil h1.1
  | false =>
    exact (genAssign_moves hr.name hname (hr.advance_valued hd.unitStep) h1.2).bind fun _ _ =>
      block_ends h1.2.hide_nil h1.1

theorem directionIs_valued {direction comparison : String} (hdirection : direction ≠ "")
    (hcomparison : comparison ≠ Symbol.initName) : (directionIs direction comparison).Valued := by
  have hzero : ∀ c ∈ [Code.ofLiteral (Text.ofInt64 0) TypeName.integer], c.Valued := by
    intro c hc
    rw [List.mem_singleton.1 hc]
    exact (Code.ofLiteral_computes _ (by decide)).valued
  exact (methodCall_valued (Code.ofVar_computes hdirection TypeName.integer) hzero hcomparison
    boolean_ne_void).valued

theorem genOptional_moves {code : Option Code} (hcode : ∀ c ∈ code, c.Valued) (h : s.Ready) :
    (genOptional code).Moves setting s (fun r => ∀ x ∈ r, x ≠ "") s := by
  cases code with
  | none => exact .pure (by simp)
  | some code => exact ((hcode code rfl).moves h).bind fun x hx => .pure (by simpa using hx)

theorem genForRange_moves {first last : Code} {step : Option Code} (hname : name ≠ "")
    (htype : type ≠ "") (hvoid : type ≠ TypeName.void) (hfirst : first.Valued)
    (hlast : last.Valued) (hstep : ∀ code ∈ step, code.Valued)
    (hblock : BlockSucceeds setting (c.hide [name]) block) (h : s.Within c) :
    (genForRange location name type first last step block).Stays setting s := by
  refine scopeId_moves.bind fun k hk => genScoped_moves hk (.of_reaches fun h => ?_) h
  refine (hfirst.moves h.ready).bind fun x hx => (hlast.moves h.ready).bind fun y hy => ?_
  refine (genOptional_moves hstep h.ready).bind fun z hz => ?_
  have hr : Range.Succeeds { name, type, first := x, last := y, step := z } :=
    ⟨hname, hx, hy, hz, hvoid⟩
  refine .bind (.emitAll (Ownership.declare_ok hname htype hk)) fun _ _ => ?_
  refine .bind (.emitAll (Ownership.initialise_ok hname hx)) fun _ _ => ?_
  refine (declare_reaches h).reach fun _ s1 h1 => ?_
  have hinteger : TypeName.integer ≠ TypeName.void := by decide
  have hcmp : "_cmp" ≠ Symbol.initName := by decide
  refine ((hr.call_valued hx hy hcmp hinteger [type]).valued.moves h1.2.ready).bind
    fun direction hdirection => ?_
  have hassign := notMem_hide_self c name
  refine (genIf_moves (c := c.hide [name]) (by simp) (List.cons_ne_nil _ _) ?_ ?_ h1.2).bind
    fun _ _ => block_ends h1.2.of_hide h1.1
  · rw [guardName_none, Surroundings.hide_nil]
    intro b hb
    rcases List.mem_cons.1 hb with rfl | hb
    · exact ⟨directionIs_valued hdirection (by decide),
        genDirection_succeeds hr Direction.plain_up hassign hblock⟩
    · rw [List.mem_singleton.1 hb]
      exact ⟨directionIs_valued hdirection (by decide),
        genDirection_succeeds hr Direction.plain_down hassign hblock⟩
  · rw [guardName_none, Surroundings.hide_nil]
    simpa using hblock

/-! ### Exceptions and departures -/

/-- A catch clause names a type and a variable, and has a block that succeeds where the variable is
declared. -/
def CatchSucceeds (setting : Setting) (c : Surroundings) (k : Catch BlockCode) : Prop :=
  k.exceptionType ≠ "" ∧ k.variableName ≠ "" ∧
    BlockSucceeds setting (c.hide [k.variableName]) k.body

theorem genCatch_moves {k : Catch BlockCode} (hexception : exception ≠ "")
    (hk : CatchSucceeds setting c k) (h : s.Within c) :
    (genCatch exception k).Moves setting s (fun case => case.kind.isHandler = true) s := by
  obtain ⟨htype, hvariable, hbody⟩ := hk
  refine scopeId_moves.bind fun scope hscope => .capturing (genScoped_moves hscope
    (.of_reaches fun {s} h => ?_) h) fun _ evaluation _ => ?_
  · refine .bind (.emit (Instr.reference_ok hvariable htype)) fun _ _ => ?_
    refine .bind (.emit (Instr.store_ok hvariable hexception)) fun _ _ => ?_
    refine .bind (.emit (Instr.scopeRegister_ok hvariable hscope)) fun _ _ => ?_
    exact (declare_reaches h).reach fun _ s1 h1 => hbody.after h1.2 h1.1 .of_hide
  · have hcase : Case.handler none k.exceptionType k.variableName { evaluation := evaluation } =
        .ok { scope := none, kind := .handler k.exceptionType k.variableName
              condition := { primitive := "" }, body := { evaluation := evaluation } } := by
      unfold Case.handler
      rw [if_neg (by simp [htype, hvariable])]
    exact .check hcase (.pure rfl)

theorem genCatches_moves (hexception : exception ≠ "")
    (hcatches : ∀ k ∈ catches, CatchSucceeds setting c k) (h : s.Within c) :
    (genCatches exception catches).Moves setting s (fun cases =>
      cases.length = catches.length ∧ ∀ k ∈ cases, k.kind.isHandler = true) s := by
  induction catches with
  | nil => exact .pure ⟨rfl, by simp⟩
  | cons k rest ih =>
    refine (genCatch_moves hexception (hcatches k List.mem_cons_self) h).bind fun case hcase => ?_
    refine (ih fun k hk => hcatches k (List.mem_cons_of_mem _ hk)).bind fun cases hcases => .pure ?_
    exact ⟨by simp [hcases.1], by simpa using ⟨hcase, hcases.2⟩⟩

theorem genFinally_moves {block : Option BlockCode}
    (hblock : ∀ b ∈ block, BlockSucceeds setting c.lastly b) (h : s.Within c) :
    (genFinally block).Moves setting s (fun r => r.isSome = block.isSome) s := by
  cases block with
  | none => exact .pure rfl
  | some block =>
    refine .bind (t := s.enterFinally) (.update fun _ hs =>
      ⟨hs.scopes, hs.handlers, congrArg (· + 1) hs.finallyDepth⟩) fun _ _ => ?_
    refine (scopedBody_moves (hblock block rfl) h.enterFinally).bind fun _ _ => ?_
    refine .bind (t := s) (.tryUpdate fun s1 hs => ?_) fun _ _ => .pure rfl
    have hdepth : s1.finallyDepth = s.finallyDepth + 1 := hs.finallyDepth
    refine ⟨{ s1 with finallyDepth := s.finallyDepth }, ?_, hs.scopes, hs.handlers, rfl⟩
    unfold State.exitFinally
    rw [hdepth]
    simp

/-- Handlers, or a finally block, form a try chain. -/
theorem validate_try {tryBlock : TryBlock Instr} {finallyBlock : Option (FinallyBlock Instr)}
    (hparts : cases ≠ [] ∨ finallyBlock.isSome = true)
    (hkinds : ∀ k ∈ cases, k.kind.isHandler = true) :
    ∃ chain : Chain Instr,
      Chain.validate
          { kind := .tryCatchFinally, scope, cases, tryBlock := some tryBlock, finallyBlock } =
        .ok chain ∧ chain.result = none ∧ chain.scope = scope := by
  refine ⟨_, validate_ok (.inr (.inr rfl)) (.inl rfl) ?_ (fun h => by cases h), rfl, rfl⟩
  have hparts' : (!cases.isEmpty || finallyBlock.isSome) = true := by
    rcases hparts with h | h
    · simp [h]
    · simp [h]
  have hall : cases.all (fun k => k.kind.isHandler) = true := List.all_eq_true.2 hkinds
  simp only [Chain.checkForm, hparts', hall]
  rfl

theorem genTry_moves {finallyBlock : Option BlockCode}
    (hparts : catches ≠ [] ∨ finallyBlock.isSome = true)
    (hblock : BlockSucceeds setting (c.protect finallyBlock.isSome) block)
    (hcatches : ∀ k ∈ catches, CatchSucceeds setting (c.protect finallyBlock.isSome) k)
    (hfinally : ∀ b ∈ finallyBlock, BlockSucceeds setting c.lastly b) (h : s.Within c) :
    (genTry location block catches finallyBlock).Stays setting s := by
  refine scopeId_moves.bind fun k hk => enterScope_moves.bind fun _ _ => ?_
  have hinner := h.enterScope hk
  have hprotected := hinner.enterHandler finallyBlock.isSome
  refine .bind (t := (s.enterScope k).enterHandler finallyBlock.isSome)
    (.update fun s1 hs => ⟨hs.scopes, ?_, hs.finallyDepth⟩) fun _ _ =>
    (scopedBody_moves hblock hprotected).bind fun body _ => ?_
  · simp only [State.enterHandler, hs.scopes, hs.handlers]
  refine temp_moves.bind fun exception hexception => ?_
  refine (genCatches_moves hexception hcatches hprotected).bind fun cases hcases => ?_
  refine .bind (t := s.enterScope k) (.tryUpdate fun s1 hs => ?_) fun _ _ => .check (start_ok hk)
    ((genFinally_moves hfinally hinner).bind fun last hlast => ?_)
  · refine ⟨{ s1 with handlers := s.handlers }, ?_, hs.scopes, rfl, hs.finallyDepth⟩
    unfold State.exitHandler
    rw [hs.handlers]
    rfl
  refine (exitScope_moves (.refl _)).bind fun _ _ => ?_
  have hsome : cases ≠ [] ∨ last.isSome = true := by
    rcases hparts with hne | hsome
    · left
      intro hnil
      rw [hnil] at hcases
      exact hne (List.length_eq_zero_iff.1 hcases.1.symm)
    · exact .inr (hlast.trans hsome)
  obtain ⟨chain, hchain, hresult, hscope⟩ := validate_try hsome hcases.2
  refine .check hchain (.emitAll (Chain.place_ok ?_ ?_ (by simp)))
  · simp [hresult]
  · rw [hscope]
    exact hk

theorem openScopes_ne_empty (h : s.Ready) : ∀ k ∈ s.openScopes, k ≠ "" := by
  intro k hk
  obtain ⟨frame, hframe, rfl⟩ := List.mem_map.1 hk
  exact h.named frame hframe

theorem State.Within.notInFinally (h : s.Within c) (hc : c.inFinally = false) :
    ¬ s.inFinally = true := by
  intro hin
  rw [h.inFinally hin] at hc
  cases hc

theorem State.Within.notPastFinally (h : s.Within c) (hc : c.pastFinally = false) :
    ¬ s.returnsPastFinally = true := by
  intro hpast
  rw [h.pastFinally hpast] at hc
  cases hc

theorem genReturn_moves {value : Option Code} (hvalue : ∀ code ∈ value, code.Valued)
    (hinside : c.inFinally = false) (hpast : c.pastFinally = false) (h : s.Within c) :
    (genReturn location value).Stays setting s := by
  unfold genReturn
  refine .ofState fun s1 hs1 => ?_
  rw [if_neg ((h.same hs1).notInFinally hinside)]
  refine .ofState fun s2 hs2 => ?_
  rw [if_neg ((h.same hs2).notPastFinally hpast)]
  refine (genOptional_moves hvalue h.ready).bind fun x hx => ?_
  have hexits : (do
      Gen.emitAll (Ownership.exits location (← Gen.state).openScopes)
      Gen.emitAt location (Instr.ret x)).Stays setting s :=
    .ofState fun s3 hs3 => .bind (.emitAll (Ownership.exits_ok (openScopes_ne_empty (h.ready.same hs3))))
      fun _ _ => .emitAt (Instr.ret_ok x)
  cases x with
  | none => exact hexits
  | some name => exact .bind (.emitAt (Instr.retain_ok (hx name rfl))) fun _ _ => hexits

theorem scopesToHandler_ne_empty (h : s.Ready) : ∀ k ∈ s.scopesToHandler, k ≠ "" := by
  unfold State.scopesToHandler
  split
  · exact openScopes_ne_empty h
  · exact fun k hk => openScopes_ne_empty h k (List.mem_of_mem_take hk)

theorem genThrow_moves (hvalue : value.Valued) (hinside : c.inFinally = false) (h : s.Within c) :
    (genThrow location value).Stays setting s := by
  unfold genThrow
  refine .ofState fun s1 hs1 => ?_
  rw [if_neg ((h.same hs1).notInFinally hinside)]
  refine (hvalue.moves h.ready).bind fun name hname => ?_
  refine .bind (.emitAt (Instr.retain_ok hname)) fun _ _ => .ofState fun s2 hs2 => ?_
  exact .bind (.emitAll (Ownership.exits_ok (scopesToHandler_ne_empty (h.ready.same hs2)))) fun _ _ =>
    .emitAt (Instr.throw_ok hname)

end Lowering

end ScopedIR
