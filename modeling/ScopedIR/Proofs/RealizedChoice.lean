import ScopedIR.Proofs.RealizedFlow

/-!
# The code of conditionals and switches realizes them

The variables of a guard are set up in front of a chain, and forgotten behind it. Of the cases of a
chain, evaluation and the run take the same one, with the same bindings in front of it.

Main statements: `genIf_realizes` and `genSwitch_realizes`.
-/

namespace ScopedIR.Lowering

open Exec Instr Layout Gen

variable {σ : Type} {E : Evaluator σ} {setting : Setting} {s s0 s1 : State} {V : Visible} {old : Nat}
  {location : Option Location} {G : Vars → Prop} {name type subject : String}
  {A B : Evaluation σ Completion} {block : BlockCode} {T : Evaluation σ Bool} {c : Chain Instr}
  {guard returning : Option Guard} {guards : Option (GuardVariables Instr)} {condition : Code}
  {branches : List (Expr × List Stmt)} {otherwise : Option (List Stmt)}
  {cases : List (SwitchCase (List Stmt))}

/-! ### Guards -/

theorem some_value (A : Evaluation σ Binding) : (some <$> A) >>= Evaluation.value = A := by
  simp [Evaluation.value]

theorem ofVar_realizes (name type : String) :
    (Code.ofVar name type).Realizes E setting (some <$> Evaluation.lookup name) :=
  fun _ => (variable_realizes name).answered

/-- The condition under a guard. -/
theorem guarded_realizes (hE : E.Agrees setting) (name type : String) (e : Expr) :
    ValueRealizes E setting (Code.guarded name type e.lower).value
      (E.logical .and TypeName.boolean e.type (Evaluation.lookup name >>= E.isSet type) (E.valueOf e)) := by
  have hset : Code.Realizes E setting
      { type := TypeName.boolean
        gen := do
          let value ← (Code.ofVar name type).value
          some <$> genIsSet none value type }
      (some <$> (Evaluation.lookup name >>= E.isSet type)) := by
    refine fun s => (value_realizes (ofVar_realizes (E := E) name type) s).bind ?_
    rintro t s1 l1 ⟨hlater1, ht, hdoes1⟩
    rw [ensures_map]
    refine (genIsSet_realizes hE ht.upTo).mono ?_
    rintro u s2 l2 ⟨hlater2, hu, hdoes2⟩
    refine ⟨hlater1.trans hlater2, ?_, Realizes.answers ?_⟩
    · intro u' hu'
      cases hu'
      exact hu.between hlater1 (.refl s2)
    · rw [some_value] at hdoes1
      exact hdoes1.andThen hdoes2 hlater1.temps
  have hlogical := genLogical_realizes hE none .and hset (e.lower_realizes hE)
  rw [some_value, e.type_lower] at hlogical
  have hguarded : (Code.guarded name type e.lower).Realizes E setting
      (some <$> E.logical .and TypeName.boolean e.type (Evaluation.lookup name >>= E.isSet type)
        (E.valueOf e)) := fun _ => hlogical.answered
  have hvalue := value_realizes hguarded
  rw [some_value] at hvalue
  exact hvalue

/-- The condition of a branch or loop. -/
theorem holds_realizes (hE : E.Agrees setting) (e : Expr) :
    TestRealizes E setting (genCondition e.lower) (E.holds none e) := by
  intro s
  have hcondition := genCondition_realizes (s := s) hE (valueOf_realizes hE e _)
  rw [e.type_lower] at hcondition
  exact hcondition

/-- The condition of a branch or loop that depends on a guard. -/
theorem holds_guarded_realizes (hE : E.Agrees setting) (g : Guard) (e : Expr) :
    TestRealizes E setting (genCondition (Code.guarded g.name g.type e.lower)) (E.holds (some g) e) :=
  fun _ => genCondition_realizes hE (guarded_realizes hE g.name g.type e _)

/-- The setup of guard variables declares the guard, if there is one. -/
def SetsUp (E : Evaluator σ) (old : Nat) :
    Option Guard → Option (GuardVariables Instr) → Prop
  | some g, some guards =>
    Realizes E old guards.setup (E.bind g) (fun _ => True) fun _ _ => True
  | none, none => True
  | _, _ => False

theorem SetsUp.of_le {old' : Nat} (h : SetsUp E old' guard guards) (ho : old ≤ old') :
    SetsUp E old guard guards := by
  cases guard with
  | none =>
    cases guards with
    | none => trivial
    | some guards => cases h
  | some g =>
    cases guards with
    | none => cases h
    | some guards => exact fun M m ht hg => (h M m ht hg).of_le ho

theorem openGuard_realizes (hE : E.Agrees setting) {g : Guard}
    (hname : Ordinary g.name) (hs : Typed V s) :
    (openGuard g.lower).Ensures setting s fun guards s' l => l = [] ∧ s.temps ≤ s'.temps ∧
      Typed (V.insert g.name g.type) s' ∧ Kept s.inside s' ∧
      guards.scope = s.scopeId.1 ∧
      Realizes E s.temps guards.setup (E.bind g) (fun _ => True) fun _ _ => True := by
  refine .scopeId (.enterScope (.captured
    ((genBind_realizes hname (valueOf_realizes hE g.init)).mono ?_)))
  rintro _ s1 l1 ⟨hlater, hdoes⟩
  refine .declare fun s2 hs2 => .pure ⟨rfl, ?_, (hs.enter.same hlater.same).declare hs2,
    hlater.same.kept.trans (kept_declare hs2), rfl, hdoes.mono (fun _ h => h) fun _ _ _ => trivial⟩
  rw [temps_declare hs2]
  exact hlater.temps

/-- Closing the scope of a guard leads back to where it was opened. -/
def Closes (setting : Setting) (guards : Option (GuardVariables Instr)) (s s' : State) : Prop :=
  ∀ s1, Same s' s1 → (closeGuard? guards).Ensures setting s1 fun _ s2 l =>
    l = [] ∧ Same s s2 ∧ s2.temps = s1.temps

theorem openGuard?_realizes (hE : E.Agrees setting)
    (hname : ∀ g ∈ guard, Ordinary g.name) (hs : Typed V s) :
    (openGuard? (guard.map Guard.lower)).Ensures setting s fun guards s' l => l = [] ∧
      s.temps ≤ s'.temps ∧ Typed (V.guard guard) s' ∧ SetsUp E s.temps guard guards ∧
      Closes setting guards s s' := by
  cases guard with
  | none =>
    exact .pure ⟨rfl, Nat.le_refl _, hs, trivial, fun s1 hs1 => .pure ⟨rfl, hs1, rfl⟩⟩
  | some g =>
    refine (openGuard_realizes hE (hname g rfl) hs).bind ?_
    rintro guards s1 l1 ⟨hl1, htemps, htyped, hkept, hscope, hdoes⟩
    rw [ensures_pure, hl1]
    refine ⟨rfl, htemps, htyped, hdoes, fun s2 hs2 => ?_⟩
    unfold closeGuard?
    rw [ensures_exitScope, hscope]
    intro s3 hs3
    refine ⟨rfl, same_of_exitNew (hkept.trans hs2.kept) hs3, ?_⟩
    rw [exitScope_eq hs3]

/-- A chain under a guard. -/
theorem placed_guarded_realizes (hsetup : SetsUp E old guard guards)
    (h : Performs E old [chained location c] A fun _ => True) :
    Performs E old (c.placed guards location) (E.guarded guard A) fun _ => True := by
  cases guard with
  | none =>
    cases guards with
    | none => exact placed_realizes h
    | some guards => cases hsetup
  | some g =>
    cases guards with
    | none => cases hsetup
    | some guards =>
      have hinside : Performs E old (guards.setup ++ c.placed none location)
          (E.guarded (some g) A) fun _ => True := by
        intro M m ht _
        apply Does.forgetting
        apply (hsetup M m ht trivial).bind
        intro _ M1 m1 ht1 _ _
        exact placed_realizes h M1 m1 ht1 trivial
      show Performs E old ([_] ++ (guards.setup ++ c.placed none location) ++ [_]) _ _
      rw [List.append_assoc]
      exact hinside.enclose (isIdle_scopeEnter guards.scope)
        (List.forall_mem_singleton.2 (isIdle_scopeExit none guards.scope))

/-! ### Conditionals -/

/-- A branch is taken if its condition holds; otherwise the rest decides. -/
theorem genBranch_realizes (hcondition : TestAt E setting s (genCondition condition) T G)
    (hblock : ∀ s', s.temps ≤ s'.temps → Typed V s' → BlockAt E setting s' block B G)
    (hkeep : Lasting s.temps G) (hs : Typed V s) :
    (genBranch condition block).Ensures setting s fun e s' l => Reserves s s' l ∧ ∀ cases fallback R,
        (∀ M m, Tracks M m → G m.vars → Chooses E.handler s'.temps cases fallback R M m Settles) →
        ∀ M m, Tracks M m → G m.vars → Chooses E.handler s.temps (e :: cases) fallback
          (T >>= fun p => if p then Evaluation.confined B else R) M m Settles := by
  refine hcondition.reserves ?_
  rintro ⟨condition, conditionScope⟩ s1 hsame1 htemps1 hdoes1
  refine (scopedBody_realizes (hblock _ htemps1 (hs.same hsame1).enter)).reserves ?_
  rintro ⟨bodyScope, body⟩ s2 hsame2 htemps2 hdoes2
  have htemps := Nat.le_trans htemps1 htemps2
  refine .pure ⟨⟨rfl, hsame1.trans hsame2, htemps⟩, fun cases fallback R hrest M m ht hg => ?_⟩
  apply Chooses.cons rfl (hdoes1 M m ht hg)
  · intro M1 m1 ht1 hk1
    apply ((hdoes2.confined M1 m1 ht1 (hkeep _ _ hg hk1)).of_le htemps1).mono
    exact fun _ _ _ hleaves => settles_ended hleaves
  · exact fun M1 m1 ht1 hk1 => (hrest M1 m1 ht1 (hkeep _ _ hg hk1)).of_le htemps

theorem genBranches_realizes (hE : E.Agrees setting) (guard : Option Guard)
    (hb : ∀ b ∈ branches, Realized E setting V b.2) (hs : Typed V s) :
    (genBranches (guardFirst (guard.map Guard.lower) (Stmt.lowerBranches branches))).Ensures setting s
      fun cases s' l => Reserves s s' l ∧ ∀ fallback R,
        (∀ M m, Tracks M m → Chooses E.handler s'.temps [] fallback R M m Settles) →
        ∀ M m, Tracks M m →
          Chooses E.handler s.temps cases fallback (E.branches V R guard branches) M m Settles := by
  induction branches generalizing s guard with
  | nil =>
    have hnil : guardFirst (guard.map Guard.lower) (Stmt.lowerBranches []) = [] := by
      cases guard <;> simp [guardFirst, Stmt.lowerBranches]
    rw [hnil]
    refine .pure ⟨.refl s, fun fallback R hR M m ht => ?_⟩
    rw [Evaluator.branches]
    exact hR M m ht
  | cons b rest ih =>
    rw [List.forall_mem_cons] at hb
    obtain ⟨condition, block⟩ := b
    -- the first condition may depend on the guard, the others do not
    obtain ⟨code, hcode, hcondition⟩ : ∃ code : Code,
        guardFirst (guard.map Guard.lower) (Stmt.lowerBranches ((condition, block) :: rest)) =
          (code, Stmt.lowerBlock block) :: Stmt.lowerBranches rest ∧
        TestRealizes E setting (genCondition code) (E.holds guard condition) := by
      rw [Stmt.lowerBranches, Stmt.lowerBranch]
      cases guard with
      | none => exact ⟨_, rfl, holds_realizes hE condition⟩
      | some g => exact ⟨_, rfl, holds_guarded_realizes hE g condition⟩
    rw [hcode, genBranches]
    refine (genBranch_realizes (hcondition s) (fun s' _ => hb.1 s') (fun _ _ _ _ => trivial)
      hs).reserves fun e s1 hsame1 htemps1 hchooses1 => ?_
    refine (show (genBranches (Stmt.lowerBranches rest)).Ensures setting s1 _ from
      ih none hb.2 (hs.same hsame1)).reserves fun cases s2 hsame2 htemps2 hchooses2 => .pure ?_
    refine ⟨⟨rfl, hsame1.trans hsame2, Nat.le_trans htemps1 htemps2⟩, fun fallback R hR M m ht => ?_⟩
    rw [Evaluator.branches, Evaluator.branch]
    exact hchooses1 cases fallback _ (fun M m ht _ => hchooses2 fallback R hR M m ht) M m ht trivial

theorem genFallback_realizes
    (hb : ∀ b ∈ otherwise, Realized E setting V b)
    (hs : Typed V s) :
    (genFallback (Stmt.lowerBlock? otherwise)).Ensures setting s fun fallback s' l =>
      Reserves s s' l ∧ ∀ M m, Tracks M m →
        Chooses E.handler s.temps [] fallback (E.fallback V otherwise) M m Settles := by
  cases otherwise with
  | none =>
    rw [Stmt.lowerBlock?]
    refine .pure ⟨.refl s, fun M m ht => ?_⟩
    rw [Evaluator.fallback]
    exact Chooses.refused ht (.inr rfl)
  | some block =>
    rw [Stmt.lowerBlock?]
    refine (scopedBody_realizes (hb block rfl _ hs.enter)).reserves ?_
    rintro ⟨bodyScope, body⟩ s1 hsame htemps hdoes
    refine .pure ⟨⟨rfl, hsame, htemps⟩, fun M m ht => ?_⟩
    rw [Evaluator.fallback]
    apply Chooses.default
    apply (hdoes.confined M m ht trivial).mono
    exact fun _ _ _ hleaves => settles_ended hleaves

/-- The end of a conditional or a switch: what stands for no case at all, and the chain in its place. -/
theorem closeChain_realizes {chain : Option (CaseBody Instr) → Chain Instr}
    (ho : ∀ b ∈ otherwise, Realized E setting V b)
    (hs : Typed V s) (hsame : Same s1.inside s)
    (hcloses : Closes setting guards s0 s1) :
    (do
      let fallback ← genFallback (Stmt.lowerBlock? otherwise)
      Gen.exitScope s1.scopeId.1
      closeGuard? guards
      let chain ← Gen.ofExcept (Chain.validate (chain fallback))
      Gen.emitAll (chain.place guards location)).Ensures setting s fun _ s' l => Same s0 s' ∧
        s.temps ≤ s'.temps ∧ ∃ fallback, l = (chain fallback).placed guards location ∧
          ∀ M m, Tracks M m →
            Chooses E.handler s.temps [] fallback (E.fallback V otherwise) M m Settles := by
  refine (genFallback_realizes ho hs).reserves fun fallback s2 hsame2 htemps2 hchooses => ?_
  refine .exitScope fun s3 hs3 =>
    (hcloses s3 (same_of_exitNew (hsame.trans hsame2).kept hs3)).bind ?_
  rintro _ s4 l4 ⟨rfl, hsame4, htemps4⟩
  refine .check Chain.validate_eq_ok (.lastAll Chain.place_eq_ok
    ⟨hsame4, ?_, fallback, rfl, hchooses⟩)
  rw [htemps4, exitScope_eq hs3]
  exact htemps2

theorem genIf_realizes (hE : E.Agrees setting)
    (hname : ∀ g ∈ guard, Ordinary g.name)
    (hb : ∀ b ∈ branches, Realized E setting (V.guard guard) b.2)
    (ho : ∀ b ∈ otherwise, Realized E setting (V.guard guard) b) (token : Option Location) :
    StmtRealizes E setting V V
      (genIf location (guard.map Guard.lower) (Stmt.lowerBranches branches) (Stmt.lowerBlock? otherwise))
      (E.stmt V (.ifElse token guard branches otherwise)) := by
  apply StmtRealizes.of_same
  intro s hs
  unfold genIf
  split
  · exact ensures_bind.2 .fail
  refine (openGuard?_realizes hE hname hs).bind ?_
  rintro guards s1 l1 ⟨rfl, htemps1, hs1, hsetup, hcloses⟩
  refine .scopeId (.enterScope ((genBranches_realizes hE guard hb hs1.enter).reserves
    fun cases s2 hsame2 htemps2 hchooses2 => .check Chain.start_eq_ok ?_))
  refine (closeChain_realizes ho (hs1.enter.same hsame2) hsame2 hcloses).mono ?_
  rintro _ s3 l3 ⟨hsame3, htemps3, fallback, rfl, hchooses3⟩
  refine ⟨hsame3, Nat.le_trans htemps1 (Nat.le_trans htemps2 htemps3), ?_⟩
  rw [Evaluator.stmt]
  apply placed_guarded_realizes hsetup
  intro M m ht _
  apply Does.chain_plain _ _ rfl rfl rfl ht
  · intro M' m' ht' _
    exact (hchooses2 fallback _ hchooses3 M' m' ht').of_le htemps1
  · dsimp only
    split <;> simp
  · dsimp only
    split <;> rfl

/-! ### Switches -/

/-- The comparison of the subject of a switch with a candidate. -/
theorem compare_realizes (hE : E.Agrees setting) {g : Gen String} {A : Evaluation σ Binding}
    (hg : ValueRealizes E setting g A) (hsubject : TempUpTo s.temps subject)
    (b : Binding) :
    (do
      let candidate ← g
      let method ← Gen.ofExcept (operatorMethod "==")
      let symbol := ((Symbol.method type method TypeName.boolean).asPure).withParams [type]
      let result ← genCallValue subject symbol [candidate]
      return (result, ← genPrimitive result TypeName.boolean) : Gen (String × String)).Ensures setting s
      fun r s' l =>
        Later s s' ∧ Realizes E s.temps l
          (A >>= fun c => E.ask b (Symbol.ofOperator type "==" [type]) [c] >>=
            E.truth TypeName.boolean)
          (Bound subject b) fun p => Bound r.2 (.primitive p) := by
  refine (hg s).bind ?_
  rintro t s1 l1 ⟨hlater1, ht, hdoes1⟩
  refine .ofExcept fun method hmethod => (genCallValue_realizes hE).bind ?_
  rintro u s2 l2 ⟨hlater2, hu, hdoes2⟩
  refine (genPrimitive_realizes hE).bind ?_
  rintro p s3 l3 ⟨hlater3, hp, hdoes3⟩
  rw [ensures_pure, List.append_nil, ofOperator_eq hmethod]
  refine ⟨hlater1.trans (hlater2.trans hlater3), ?_⟩
  refine hdoes1.given.bind (H := fun c vars => Bound subject b vars ∧ Bound t c vars) (fun c => ?_)
    hlater1.temps fun c vars vars' hb hk hc => ⟨(hk.temps _ hsubject).trans hb, hc⟩
  exact ((hdoes2 b [c]).mono (fun _ h => ⟨h.1, .cons h.2 .nil⟩) fun _ _ h => h).andThen hdoes3
    hlater2.temps

theorem genTest_realizes (hE : E.Agrees setting) {test : SwitchTest}
    (hsubject : TempUpTo s.temps subject) (b : Binding) :
    (genTest subject type test).Ensures setting s fun r s' l => Reserves s s' l ∧
      Realizes E s.temps r.1.evaluation (E.matching type b test) (Bound subject b)
        fun p => Bound r.1.primitive (.primitive p) := by
  apply scopedCondition_realizes
  cases test with
  | value e =>
    exact compare_realizes (s := s.inside) hE (valueOf_realizes hE e)
      hsubject b
  | enumConstant constant =>
    exact compare_realizes (s := s.inside) hE
      genLiteral_realizes hsubject b

theorem genSwitchCases_realizes (hE : E.Agrees setting) {enum : Option EnumType}
    (hb : ∀ c ∈ cases, Realized E setting V c.body) (hs : Typed V s)
    (hsubject : TempUpTo s.temps subject) (b : Binding) :
    (genSwitchCases subject type enum (Stmt.lowerCases cases)).Ensures setting s fun cs s' l =>
      Reserves s s' l ∧ ∀ fallback R,
        (∀ M m, Tracks M m → Chooses E.handler s'.temps [] fallback R M m Settles) →
        ∀ M m, Tracks M m → m.vars.get? subject = some b →
          Chooses E.handler s.temps cs fallback (E.cases V type b R cases) M m Settles := by
  induction cases generalizing s with
  | nil =>
    rw [Stmt.lowerCases]
    refine .pure ⟨.refl s, fun fallback R hR M m ht _ => ?_⟩
    rw [Evaluator.cases]
    exact hR M m ht
  | cons c rest ih =>
    obtain ⟨test, block⟩ := c
    rw [List.forall_mem_cons] at hb
    rw [Stmt.lowerCases, Stmt.lowerCase]
    refine (genTest_realizes hE hsubject b).reserves ?_
    rintro ⟨condition, conditionScope⟩ s1 hsame1 htemps1 hdoes1
    refine (scopedBody_realizes (hb.1 _ (hs.same hsame1).enter)).reserves ?_
    rintro ⟨bodyScope, body⟩ s2 hsame2 htemps2 hdoes2
    refine .ofExcept fun e he => ?_
    obtain ⟨hcondition, hbody, hupdates⟩ := switchCase_eq_ok he
    have htemps12 := Nat.le_trans htemps1 htemps2
    refine (ih hb.2 ((hs.same hsame1).same hsame2) (hsubject.mono htemps12)).reserves
      fun cs s3 hsame3 htemps3 hchooses3 => .pure
        ⟨⟨rfl, hsame1.trans (hsame2.trans hsame3), Nat.le_trans htemps12 htemps3⟩, ?_⟩
    intro fallback R hR M m ht hsub
    rw [Evaluator.cases, Evaluator.case]
    apply Chooses.cons hupdates
    · show Does E.handler s.temps e.condition.evaluation _ M m _
      rw [hcondition]
      exact hdoes1 M m ht hsub
    · intro M1 m1 ht1 _
      show Does E.handler s.temps e.body.evaluation _ M1 m1 fun k c vars =>
        Settles k (ended e.body.result c) vars
      rw [hbody]
      apply ((hdoes2.confined M1 m1 ht1 trivial).of_le htemps1).mono
      exact fun _ _ _ hleaves => settles_ended hleaves
    · intro M1 m1 ht1 hk1
      exact (hchooses3 fallback R hR M1 m1 ht1 ((hk1.temps _ hsubject).trans hsub)).of_le htemps12

/-- Code binds the variable of a switch and new temporaries alone. -/
theorem genBind_writes {k : String} (e : Expr) (hk : s.currentScope = .ok k) :
    (genBind location scope name type e.lower).Ensures setting s fun _ s' l =>
      ∀ x ∈ writes l, x = name ∨ TempUpTo s'.temps x := by
  refine .emitAll Ownership.declare_eq_ok
    ((value_yields hk ⟨False, False, False⟩ e.reads [] e.codeYields_lower).bind ?_)
  intro t s1 l1 hy
  refine .lastAll Ownership.initialise_eq_ok ?_
  -- the layout of an expression says what it binds
  obtain ⟨Γ, hcalc, -, -⟩ := hy.code { frames := [{ id := k }] } [] (by simp [Context.reach, Context.ids])
    (fun _ _ => ⟨False.elim, False.elim⟩) (by simp)
  have hwrites : ∀ x ∈ writes l1, TempUpTo s1.temps x := by
    intro x hx
    rw [hcalc.writes_eq] at hx
    obtain ⟨n, -, hn, rfl⟩ := hy.issues.mem x hx
    exact ⟨n, hn, rfl⟩
  intro x hx
  rw [writes_append, writes_append] at hx
  rcases List.mem_append.1 hx with hx | hx
  · exact .inl (List.mem_singleton.1 hx)
  · rcases List.mem_append.1 hx with hx | hx
    · exact .inr (hwrites x hx)
    · exact .inl (List.mem_singleton.1 hx)

/-- What a switch does for the variable that it returns, if there is one. -/
def returned (E : Evaluator σ) : Option Guard → Evaluation σ Unit
  | some g => E.bind g
  | none => pure ()

theorem genReturning_realizes (hE : E.Agrees setting)
    (hname : ∀ g ∈ returning, Ordinary g.name) (hs : Typed V s) :
    (genReturning (returning.map Guard.lower)).Ensures setting s fun v s' l => l = [] ∧ Kept s s' ∧
      s.temps ≤ s'.temps ∧ Typed (V.guard returning) s' ∧
      (∀ x ∈ writes ((v.map (·.setup)).getD []), ¬ IsTemp x ∨ TempUpTo s'.temps x) ∧
      Realizes E s.temps ((v.map (·.setup)).getD []) (returned E returning) (fun _ => True)
        fun _ vars => ∀ w ∈ v, (vars.get? w.name).isSome := by
  cases returning with
  | none =>
    refine .pure ⟨rfl, .refl s, Nat.le_refl _, hs, ?_, .pure ?_⟩
    · intro x hx
      cases hx
    · intro _ _ w hw
      cases hw
  | some g =>
    refine .currentScope fun k hk => .captured (((genBind_realizes (hname g rfl)
      (valueOf_realizes hE g.init)).and (genBind_writes g.init hk)).mono ?_)
    rintro _ s1 l1 ⟨⟨hlater, hdoes⟩, hwrites⟩
    refine .declare fun s2 hs2 => .pure ⟨rfl, hlater.same.kept.trans (kept_declare hs2), ?_,
      (hs.same hlater.same).declare hs2, ?_, hdoes.mono (fun _ h => h) ?_⟩
    · rw [temps_declare hs2]
      exact hlater.temps
    · intro x hx
      rw [temps_declare hs2]
      rcases hwrites x hx with rfl | hx
      · exact .inl (hname g rfl).1
      · exact .inr hx
    · intro _ vars hbound w hw
      cases hw
      exact hbound

/-- A switch, put together from its parts. The subject is evaluated before the variable that the
switch returns is set up, although its code was generated later. -/
theorem switchChain_realizes {subject : Evaluation σ Binding}
    {B : Binding → Evaluation σ Completion} {setup : List Instr} {new : Nat}
    (hkind : c.kind = .switch ∨ c.kind = .switchEnum) (hresult : c.result = none)
    (hsubject : c.subject = some { name, type, setup }) (hold : ¬ TempUpTo new name)
    (htemp : IsTemp name)
    (hsetup : Realizes E old setup subject (fun _ => True) (Bound name))
    (hwrites : ∀ x ∈ writes ((c.returning.map (·.setup)).getD []), ¬ IsTemp x ∨ TempUpTo new x)
    (hreturning : Realizes E old ((c.returning.map (·.setup)).getD []) (returned E returning)
      (fun _ => True) fun _ vars => ∀ w ∈ c.returning, (vars.get? w.name).isSome)
    (hcases : ∀ b M m, Tracks M m → m.vars.get? name = some b →
      Chooses E.handler old c.cases c.fallback (B b) M m Settles) :
    Performs E old [chained location c]
      (subject >>= fun b => returned E returning >>= fun _ => B b) fun _ => True := by
  intro M m ht _
  have hunwritten : name ∉ writes ((c.returning.map (·.setup)).getD []) := by
    intro hname
    rcases hwrites name hname with hnot | hup
    · exact hnot htemp
    · exact hold hup
  have hsetups : c.setups = setup ++ (c.returning.map (·.setup)).getD [] := by
    unfold Chain.setups
    rw [hsubject]
    rfl
  have hboth : Does E.handler old c.setups
      (subject >>= fun b => returned E returning >>= fun _ => pure b) M (ticked m)
      (Onward fun b vars => vars.get? name = some b ∧ ∀ w ∈ c.returning, (vars.get? w.name).isSome) := by
    rw [hsetups]
    apply (hsetup M (ticked m) ht.tick trivial).bind
    intro b M1 m1 ht1 _ hb
    rw [← List.append_nil ((c.returning.map (·.setup)).getD [])]
    apply (hreturning M1 m1 ht1 trivial).framed.bind
    rintro _ M2 m2 ht2 _ ⟨hbound, hframe⟩
    exact Does.pure ht2 ⟨(hframe name hunwritten).trans hb, hbound⟩
  have hsplit : (subject >>= fun b => returned E returning >>= fun _ => B b) =
      (subject >>= fun b => returned E returning >>= fun _ => pure b) >>= B := by
    simp only [bind_assoc, pure_bind]
  rw [hsplit]
  apply Does.chain_settled _ _ hresult hboth (fun b vars h => h.2)
  · exact fun b M1 m1 ht1 _ h => hcases b M1 m1 ht1 h.1
  · rcases hkind with h | h <;> rw [h] <;> simp
  · rcases hkind with h | h <;> rw [h] <;> rfl

theorem stmt_switch (token : Option Location) (guard : Option Guard) (subject : Expr)
    (cases : List (SwitchCase (List Stmt))) (otherwise : Option (List Stmt))
    (returning : Option Guard) :
    E.stmt V (.switch token guard subject cases otherwise returning) =
      E.guarded guard (E.valueOf subject >>= fun b => returned E returning >>= fun _ =>
        E.cases ((V.guard returning).guard guard) subject.type b
          (E.fallback ((V.guard returning).guard guard) otherwise) cases) := by
  rw [Evaluator.stmt]
  cases returning with
  | none => simp [returned]
  | some g => rfl

theorem genSwitch_realizes (hE : E.Agrees setting) {subject : Expr}
    (hguard : ∀ g ∈ guard, Ordinary g.name)
    (hreturning : ∀ g ∈ returning, Ordinary g.name)
    (hb : ∀ c ∈ cases, Realized E setting ((V.guard returning).guard guard) c.body)
    (ho : ∀ b ∈ otherwise, Realized E setting ((V.guard returning).guard guard) b)
    (token : Option Location) :
    StmtRealizes E setting V (V.guard returning)
      (genSwitch location (guard.map Guard.lower) subject.lower (Stmt.lowerCases cases)
        (Stmt.lowerBlock? otherwise) (returning.map Guard.lower))
      (E.stmt V (.switch token guard subject cases otherwise returning)) := by
  intro s hs
  rw [stmt_switch]
  unfold genSwitch
  rw [subject.type_lower]
  refine (genReturning_realizes hE hreturning hs).bind ?_
  rintro v s1 l1 ⟨rfl, hkept1, htemps1, hs1, hwrites, hdoes1⟩
  refine (openGuard?_realizes hE hguard hs1).bind ?_
  rintro guards s2 l2 ⟨rfl, htemps2, hs2, hsetup, hcloses⟩
  refine .scopeId (.enterScope (.captured ((valueOf_realizes hE subject _).mono ?_)))
  rintro name s3 setup ⟨hlater3, hname, hdoes3⟩
  refine .ofSetting ((Ensures.all fun b =>
    genSwitchCases_realizes hE hb (hs2.enter.same hlater3.same) hname.upTo b).bind ?_)
  intro chainCases s4 l4 hcases
  obtain ⟨⟨rfl, hsame4, htemps4⟩, -⟩ := hcases .null
  refine .check Chain.start_eq_ok ?_
  have hsame : Same s2.inside s4 := hlater3.same.trans hsame4
  have htemps : s1.temps ≤ s4.temps :=
    Nat.le_trans htemps2 (Nat.le_trans hlater3.temps htemps4)
  -- the rest of the generator, whatever hints of dispatch there are
  have hclose : ∀ (kind : ChainKind) dispatch, kind = .switch ∨ kind = .switchEnum →
      (do
        let fallback ← genFallback (Stmt.lowerBlock? otherwise)
        Gen.exitScope s2.scopeId.1
        closeGuard? guards
        let chain ← Gen.ofExcept <| Chain.validate
          { kind, scope := s2.scopeId.1
            subject := some { name, type := subject.type, setup }
            returning := v, cases := chainCases, fallback, dispatch }
        Gen.emitAll (chain.place guards location)).Ensures setting s4 fun _ s' l =>
          Kept s s' ∧ s.temps ≤ s'.temps ∧ Typed (V.guard returning) s' ∧
            Performs E s.temps l (E.guarded guard (E.valueOf subject >>= fun b =>
              returned E returning >>= fun _ =>
                E.cases ((V.guard returning).guard guard) subject.type b
                  (E.fallback ((V.guard returning).guard guard) otherwise) cases)) fun _ => True := by
    intro kind dispatch hkind
    refine (closeChain_realizes ho (hs2.enter.same hsame) hsame hcloses).mono ?_
    rintro _ s5 l5 ⟨hsame5, htemps5, fallback, hl5, hfallback⟩
    refine ⟨hkept1.trans hsame5.kept, Nat.le_trans htemps1 (Nat.le_trans htemps htemps5),
      hs1.same hsame5, ?_⟩
    rw [hl5]
    apply placed_guarded_realizes (hsetup.of_le htemps1)
    have hold : ¬ TempUpTo s1.temps name := fun h => hname.fresh (h.mono htemps2)
    apply switchChain_realizes hkind rfl rfl hold hname.upTo.isTemp
      (hdoes3.of_le (Nat.le_trans htemps1 htemps2)) hwrites hdoes1
    intro b M m ht hsubject
    apply ((hcases b).2 fallback _ hfallback M m ht hsubject).of_le
    exact Nat.le_trans htemps1 (Nat.le_trans htemps2 hlater3.temps)
  dsimp only
  split
  · next enum henum =>
    simp only [henum, Option.isSome_some, if_true]
    exact .ofExcept fun dispatch _ => ensures_bind.2 (.pure (hclose .switchEnum (some dispatch) (.inr rfl)))
  · next henum =>
    simp only [henum, Option.isSome_none, Bool.false_eq_true, if_false]
    exact ensures_bind.2 (.pure (hclose .switch none (.inl rfl)))

end ScopedIR.Lowering
