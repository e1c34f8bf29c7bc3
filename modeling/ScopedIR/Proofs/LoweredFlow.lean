import ScopedIR.Proofs.LoweredStates

/-!
# The code of statements has the layout

Every form of statement is lowered to code of the form `Emits`, its temporaries and scopes numbered
in order. A chain gives what it holds back when it ends, and its guard is open around it.

Main statements: one for each form of statement, such as `genAssign_yields` and `genIf_yields`.
-/

namespace ScopedIR.Layout

open Instr Lowering Gen

variable {R U V p r : List String} {k type x : String} {l : List Instr} {s s' s1 s2 : State}
  {π : Policy} {isParam : Bool} {Γ Γ1 Γ' : Context}

variable {setting : Setting} {location : Option Location}

variable {v scope : String} {d : Bool} {block : BlockCode} {code : Gen (String × String)}
  {value : Code} {c : Chain Instr} {guard : Option GuardCode}
  {guards : Option (GuardVariables Instr)} {branches : List (Code × BlockCode)}

/-! ### Simple code -/

/-- An instruction that binds nothing and enters nothing. -/
def Silent (i : Instr) : Prop :=
  ∃ location opcode operands, i = simple location opcode operands none ∧ opcode ≠ .scopeEnter

theorem silent_simple {opcode : Opcode} {operands : List String} (h : opcode ≠ .scopeEnter) :
    Silent (simple location opcode operands none) := ⟨_, _, _, rfl, h⟩

theorem Issued.silent (h : ∀ i ∈ l, Silent i) : Issued s l s := by
  induction l with
  | nil => exact .nil s
  | cons i rest ih =>
    obtain ⟨location, opcode, operands, rfl, hne⟩ := h i List.mem_cons_self
    refine .append (l := [_]) ⟨?_, ?_⟩ (ih fun j hj => h j (List.mem_cons_of_mem _ hj))
    · simpa [binds_cons] using .nil (Nat.le_refl _)
    · simpa [enters_cons, ownEnters_simple, hne] using .nil (Nat.le_refl _)

theorem issued_declaring : Issued s (declaring location x type k) s :=
  .silent (by simp [declaring, silent_simple])

theorem issued_initialising : Issued s (initialising location x v) s :=
  .silent (by simp [initialising, silent_simple])

theorem issued_assigning : Issued s (assigning location x v) s :=
  .silent (by simp [assigning, silent_simple])

theorem issued_leaving {ks : List String} : Issued s (leaving location ks) s :=
  .silent (by simp [leaving, silent_simple])

/-! ### Scopes around blocks and conditions -/

theorem enters_scoping : enters (scoping k d l) = k :: enters l := by
  cases d <;> simp [scoping, enters_append, enters_cons, entering, exiting, ownEnters_simple]

/-- Code in a fresh scope, from code generated after the scope was named. -/
theorem Issued.scoping (h : Issued s.inside l s') :
    Issued s (scoping s.scopeId.1 d l) s' := by
  refine ⟨?_, ?_⟩
  · rw [binds_scoping]
    exact h.temps
  · rw [enters_scoping]
    exact (Numbered.single "_scope_" s.scopeIds).append h.scopes

/-- A block in a fresh scope, from the block itself. -/
theorem genScoped_emits {post : Bool → State → List Instr → Prop}
    (hb : block.Ensures setting s.inside post) :
    (genScoped s.scopeId.1 block).Ensures setting s.scopeId.2 fun _ s' l =>
      ∃ d l' s1, post d s1 l' ∧ l = scoping s.scopeId.1 d l' ∧
        s1.exitScope s.scopeId.1 = .ok s' := by
  unfold genScoped
  refine .emit scopeEnter_eq_ok (.enterScope (hb.bind ?_))
  intro d s1 l' hp
  refine .exitScope fun s2 hs2 => ?_
  cases d with
  | true => exact .pure ⟨true, l', s1, hp, by simp [scoping, entering], hs2⟩
  | false =>
    exact .last scopeExit_eq_ok ⟨false, l', s1, hp, by simp [scoping, entering, exiting], hs2⟩

/-- Code in a fresh scope leaves the scopes around it as they were. -/
theorem Laid.scoped (hk : s.scopeId.1 ∉ Γ.ids)
    (h : Laid π (Γ.push s.scopeId.1) s.inside d l s1 Γ1)
    (hx : s1.exitScope s.scopeId.1 = .ok s2) :
    Emits π Γ d (scoping s.scopeId.1 d l) (Γ.settle π) ∧
      Issued s (scoping s.scopeId.1 d l) s2 ∧ Same s s2 := by
  have hΓ : ({ Γ with frames := Γ1.frames.tail } : Context) = Γ := by
    have : Γ1.frames.tail = Γ.frames := h.outer
    rw [this]
  have hcode := Emits.scope hk h.code
  rw [hΓ] at hcode
  exact ⟨hcode, h.issued.scoping.exit hx, h.kept.exit hx⟩

/-- A block that stands in a fresh scope. -/
theorem scopedBody_yields (hk : s.scopeId.1 ∉ Γ.ids)
    (hb : block.Ensures setting s.inside fun d s' l =>
      ∃ Γ', Laid π (Γ.push s.scopeId.1) s.inside d l s' Γ') :
    (scopedBody block).Ensures setting s fun a s' l =>
      ∃ d, Emits π Γ d a.2 (Γ.settle π) ∧ Issued s a.2 s' ∧ Same s s' ∧ l = [] := by
  unfold scopedBody
  refine .scopeId (.captured ((genScoped_emits hb).mono ?_))
  rintro _ s2 _ ⟨d, l', s1, ⟨Γ1, hl⟩, rfl, hx⟩
  obtain ⟨hcode, hi, hs⟩ := hl.scoped hk hx
  exact .pure ⟨d, hcode, hi, hs, rfl⟩

/-- A condition is what its code answers, in a new scope. -/
theorem ensures_scopedCondition {post : CaseCondition Instr × String → State → List Instr → Prop}
    (h : code.Ensures setting s.inside fun a s1 l => ∀ s2,
      s1.exitScope s.scopeId.1 = .ok s2 →
        post (⟨scoping s.scopeId.1 false l, some a.1, a.2⟩, s.scopeId.1) s2 []) :
    (scopedCondition code).Ensures setting s post := by
  unfold scopedCondition
  refine .scopeId (.captured (.emit scopeEnter_eq_ok (.enterScope (h.bind ?_))))
  rintro ⟨v, p⟩ s1 l1 hpost
  exact .exitScope fun s2 hs2 => .emit scopeExit_eq_ok (.pure (.check CaseCondition.build_eq_ok
    (.pure (hpost s2 hs2))))

/-- A condition in a fresh scope, from the code of the condition. -/
theorem scopedCondition_yields (hF : Fits π V s Γ) (hU : Reads π U V) (hR : ∀ x ∈ R, x ∈ Γ.names)
    (hc : code.Ensures setting s.inside fun a s' l =>
      Yields π U R s.scopeId.1 s.inside l s' [a.1] [a.2]) :
    (scopedCondition code).Ensures setting s fun a s' l =>
      Test π Γ a.1.evaluation a.1.primitive ∧ Issued s a.1.evaluation s' ∧ Same s s' ∧ l = [] := by
  refine ensures_scopedCondition (hc.mono ?_)
  rintro ⟨v, p⟩ s1 l1 hy s2 hs2
  have hF' := hF.push
  obtain ⟨hhead, hreach⟩ := hF'.current hy.scope
  obtain ⟨Γ1, hcalc, -, hp⟩ := hy.code (Γ.push s.scopeId.1) Γ.names hreach (hF.readable hU)
    (by simpa [Context.names, Context.owned, Context.push] using hR)
  exact ⟨.intro hF.scopeId_notMem (List.Subset.refl _) hcalc (hp p (by simp)),
    hy.issued.scoping.exit hs2, hy.same.kept.exit hs2, rfl⟩

theorem genCondition_yields {condition : Code} (hF : Fits π V s Γ)
    (hU : Reads π U V) (hc : CodeYields π setting U condition) :
    (genCondition condition).Ensures setting s fun a s' l =>
      Test π Γ a.1.evaluation a.1.primitive ∧ Issued s a.1.evaluation s' ∧ Same s s' ∧ l = [] := by
  unfold genCondition
  refine scopedCondition_yields (R := []) hF hU (by simp) ?_
  have hs : s.inside.currentScope = .ok s.scopeId.1 := rfl
  refine (value_yields hs π U [] hc).bind ?_
  intro a s1 l1 h1
  refine (genPrimitive_yields h1.scope_after π U ([a] ++ []) (by simp)).bind ?_
  intro p s2 l2 h2
  exact .pure (by simpa using h1.append h2)

/-! ### Declarations and assignments -/

/-- The code that declares a variable and binds it, around the code of its value. -/
theorem genBind_emits {init : Code} (hc : CodeYields π setting U init)
    (hs : s.currentScope = .ok k) :
    (genBind location scope x type init).Ensures setting s fun _ s' l =>
      ∃ l1 v, l = declaring location x type scope ++ l1 ++ initialising location x v ∧
        Yields π U [] k s l1 s' [v] [] := by
  unfold genBind
  refine .emitAll Ownership.declare_eq_ok ((value_yields hs π U [] hc).bind fun v s1 l1 h1 => ?_)
  exact .lastAll Ownership.initialise_eq_ok ⟨l1, v, by simp [declaring, initialising], h1⟩

theorem Yields.issued_bind (h : Yields π U [] k s l s' r p) :
    Issued s (declaring location x type scope ++ l ++ initialising location x v) s' :=
  (issued_declaring.append h.issued).append issued_initialising

theorem Issued.declare (h : Issued s l s1) (hd : s1.declare x type isParam = .ok s') :
    Issued s l s' := by
  obtain ⟨hn, ht⟩ := scopeIds_declare hd
  exact ⟨ht ▸ h.temps, hn ▸ h.scopes⟩

/-- A variable that is declared in an open scope and bound. -/
theorem Fits.bind (location : Option Location) (hF : Fits π V s Γ) (hU : Reads π U V)
    (hx : Introduces π V x) (hy : Yields π U [] k s l s' [v] [])
    (hd : s'.declare x type false = .ok s1) :
    ∃ Γ', Laid π Γ s false (declaring location x type k ++ l ++ initialising location x v) s1 Γ' ∧
      x ∈ Γ'.owned ∧ Fits π (V ++ [x]) s1 Γ' := by
  obtain ⟨hhead, hreach⟩ := hF.current hy.scope
  obtain ⟨Γ', hc, hr, -⟩ := hy.code (Γ.own k x) Γ.names (by simpa using hreach)
    (hF.readable hU) (by simp)
  have hF1 : Fits π V s1 Γ := (hF.yields hy).declare (fun hs => (hx.1 hs).1) hd
  refine ⟨Γ', ⟨?_, ?_, hy.issued_bind.declare hd, hy.same.kept.trans (kept_declare hd)⟩, ?_, ?_⟩
  · exact .bind (hF.declarable hx) hreach (List.Subset.refl _) hc (hr v (by simp))
      (hy.isTemp v (by simp))
  · rw [hc.tail (by simpa using hhead), Context.tail_own hhead]
  · exact hc.owned_subset (Context.mem_owned_own (Context.mem_ids_of_reach hreach))
  · exact (hF1.own (Context.mem_ids_of_reach hreach) fun hs => (hx.1 hs).2).compute hc

/-- A variable that is declared without a value. -/
theorem declare_laid (location : Option Location) (hF : Fits π V s Γ) (hx : Introduces π V x)
    (hk : s.currentScope = .ok k) (hd : s.declare x type false = .ok s1) :
    Laid π Γ s false (declaring location x type k) s1 (Γ.own k x) ∧
      Fits π (V ++ [x]) s1 (Γ.own k x) := by
  obtain ⟨hhead, hreach⟩ := hF.current hk
  refine ⟨⟨.declare (hF.declarable hx) hreach, Context.tail_own hhead,
    issued_declaring.declare hd, kept_declare hd⟩, ?_⟩
  exact (hF.declare (fun hs => (hx.1 hs).1) hd).own
    (Context.mem_ids_of_reach hreach) fun hs => (hx.1 hs).2

theorem genDeclare_yields {init : Option Code} (hx : Introduces π V x) (hU : Reads π U V)
    (hc : ∀ c ∈ init, CodeYields π setting U c) :
    StmtYields π setting V [x] false (genDeclare location x type init) := by
  intro s Γ hF
  unfold genDeclare
  refine .currentScope fun k hk => ?_
  cases init with
  | none =>
    refine .emitAll Ownership.declare_eq_ok (ensures_declare.2 fun s' hd => ?_)
    obtain ⟨hlaid, hF'⟩ := declare_laid location hF hx hk hd
    exact ⟨Γ.own k x, by simpa [declaring] using hlaid, fun _ => hF'⟩
  | some init =>
    refine (genBind_emits (hc init rfl) hk).bind ?_
    rintro _ s1 _ ⟨l1, v, rfl, hy⟩
    refine ensures_declare.2 fun s' hd => ?_
    rw [List.append_nil]
    obtain ⟨Γ', hlaid, -, hF'⟩ := hF.bind location hU hx hy hd
    exact ⟨Γ', hlaid, fun _ => hF'⟩

/-- What is assignable in the source is no parameter, so a scope releases it. -/
theorem checkAssignable_ensures (hF : Fits π V s Γ) (hx : Reassigns π V x)
    {post : Unit → State → List Instr → Prop} (h : Assignable π Γ x → post () s []) :
    (checkAssignable x).Ensures setting s post := by
  unfold checkAssignable
  refine .state ?_
  split
  · exact .fail
  · next hl =>
    refine .pure (h ⟨fun hs => ?_, hx.2⟩)
    obtain ⟨hv, ht⟩ := hx.1 hs
    refine ⟨?_, ht, (hF.reads x hv).2.2 hs⟩
    rcases hF.assignable hs x hv ht with ho | ⟨v, hv, hp⟩
    · exact ho
    · exact absurd (by rw [hv, ← hp]) (hl v.type)

theorem Assignable.push (h : Assignable π Γ x) : Assignable π (Γ.push k) x := by
  refine ⟨fun hs => ?_, h.2⟩
  obtain ⟨ho, h'⟩ := h.1 hs
  exact ⟨by simpa [Context.owned, Context.push] using ho, h'⟩

/-- The assignment of a value that was just computed. -/
theorem Fits.assign (location : Option Location) (hF : Fits π V s Γ) (hU : Reads π U V)
    (hx : Assignable π Γ x) (hy : Yields π U [] k s l s' [v] []) :
    ∃ Γ', Laid π Γ s false (l ++ assigning location x v) s' Γ' ∧ Fits π V s' Γ' := by
  obtain ⟨Γ', hc, htail, hF', hr, -⟩ := hF.calc_of_yields hU hy
  refine ⟨Γ'.settle π, ⟨.assign hx (hF.current hy.scope).1 (List.Subset.refl _) hc
    (hr v (by simp)) (hy.isTemp v (by simp)), ?_, ?_, hy.same.kept⟩, hF'.settle⟩
  · rw [Context.frames_settle, htail]
  · exact hy.issued.append issued_assigning

/-- A block that assigns a variable without asking whether it may. -/
theorem assignBlock_yields (location : Option Location) (hF : Fits π V s Γ)
    (hx : Assignable π Γ x) (hU : Reads π U V) (hc : CodeYields π setting U value) :
    (value.value >>= fun v =>
      Gen.emitAll (Ownership.assign location x v) >>= fun _ => pure false).Ensures setting s
        fun d s' l => d = false ∧ ∃ Γ', Laid π Γ s d l s' Γ' := by
  obtain ⟨k, hk, -⟩ := hF.exists_current
  refine (value_yields hk π U [] hc).bind fun v s1 l1 hy => ?_
  obtain ⟨Γ', hlaid, -⟩ := hF.assign location hU hx hy
  exact .emitAll Ownership.assign_eq_ok (.pure ⟨rfl, Γ', by simpa [assigning] using hlaid⟩)

theorem genAssign_yields (hx : Reassigns π V x) (hU : Reads π U V)
    (hc : CodeYields π setting U value) :
    StmtYields π setting V [] false (genAssign location x value) := by
  intro s Γ hF
  obtain ⟨k, hk, -⟩ := hF.exists_current
  unfold genAssign
  refine ensures_bind.2 (checkAssignable_ensures hF hx fun hx => ?_)
  refine (value_yields hk π U [] hc).bind fun v s1 l1 hy => ?_
  obtain ⟨Γ', hlaid, hF'⟩ := hF.assign location hU hx hy
  exact .lastAll Ownership.assign_eq_ok
    ⟨Γ', by simpa [assigning] using hlaid, fun _ => by simpa using hF'⟩

theorem genAssignField_yields {o f : String} (hheld : ¬ π.held) (ho : Reassigns π V o)
    (hU : Reads π U V) (hc : CodeYields π setting U value) :
    StmtYields π setting V [] false (genAssignField location o f value) := by
  intro s Γ hF
  obtain ⟨k, hk, -⟩ := hF.exists_current
  unfold genAssignField
  refine (value_yields hk π U [] hc).bind fun v s1 l1 hy => ?_
  refine .lastAll Ownership.assign_eq_ok ?_
  obtain ⟨Γ', hcalc, htail, hF', hr, -⟩ := hF.calc_of_yields hU hy
  have hown : π.named → (o ∈ Γ.owned ∨ o ∈ Γ.params) ∧ '.' ∉ o.toList := by
    intro hs
    obtain ⟨howned, -, hdot⟩ := hF.reads o (ho.1 hs).1
    exact ⟨howned (.inr (ho.1 hs).2), hdot hs⟩
  refine ⟨Γ', ⟨.assignField hheld hown ho.2 (List.Subset.refl _) hcalc (hr v (by simp))
    (hy.isTemp v (by simp)), htail, ?_, hy.same.kept⟩, fun _ => by simpa using hF'⟩
  exact hy.issued.append issued_assigning

theorem genAssert_yields (hU : Reads π U V) (hc : CodeYields π setting U value) :
    StmtYields π setting V [] false (genAssert location value) := by
  intro s Γ hF
  obtain ⟨k, hk, -⟩ := hF.exists_current
  unfold genAssert
  refine (value_yields hk π U [] hc).bind fun a s1 l1 h1 => ?_
  refine (genPrimitive_yields h1.scope_after π U ([a] ++ []) (by simp)).bind fun p s2 l2 h2 => ?_
  refine .lastAt assert_eq_ok ?_
  have hy := h1.append h2
  obtain ⟨Γ', hcalc, htail, hF', -, hp⟩ := hF.calc_of_yields hU hy
  have hi : Issued s2 [simple location .assert [p] none] s2 := .silent (by simp [silent_simple])
  refine ⟨Γ', ⟨?_, htail, ?_, hy.same.kept⟩, fun _ => by simpa using hF'⟩
  · simpa using Emits.assert (List.Subset.refl _) hcalc (hp p (by simp))
  · simpa using hy.issued.append hi

/-! ### Chains -/

/-- A case whose test and body are laid out. -/
structure CaseLaid (π : Policy) (Γ : Context) (e : Case Instr) : Prop where
  test : Test π Γ e.condition.evaluation e.condition.primitive
  body : ∃ d, Emits π Γ d e.body.evaluation (Γ.settle π)
  result : e.body.result = none
  updates : e.updates = []

/-- A fallback that is laid out. -/
def FallbackLaid (π : Policy) (Γ : Context) (b : Option (CaseBody Instr)) : Prop :=
  ∃ d, ∀ body ∈ b, Emits π Γ d body.evaluation (Γ.settle π) ∧ body.result = none

/-- A conditional or switch is laid out when its parts are. -/
theorem emits_branch (Γ1 : Context) {Γ2 : Context} (htry : c.kind ≠ .tryCatchFinally)
    (hloop : c.kind.isLoop = false) (hplain : Plain c)
    (hsub : Emits π Γ false (setupOf c.subject) Γ1)
    (hret : Emits π Γ1 false (setupOf c.returning) Γ2)
    (hname : ∀ v, c.returning = some v → v.name ∈ Γ2.owned)
    (hcases : ∀ e ∈ c.cases, CaseLaid π Γ2 e) (hfall : FallbackLaid π Γ2 c.fallback) :
    Emits π Γ false [chained location c] (Γ2.settle π) := by
  classical
  have hbody : ∀ e : Case Instr, ∃ d, e ∈ c.cases →
      Emits π Γ2 d e.body.evaluation (Γ2.settle π) := by
    intro e
    by_cases he : e ∈ c.cases
    · obtain ⟨d, hd⟩ := (hcases e he).body
      exact ⟨d, fun _ => hd⟩
    · exact ⟨false, fun h => absurd h he⟩
  choose dep hdep using hbody
  obtain ⟨depF, hF⟩ := hfall
  exact .branch htry hloop hplain hsub hret hname (fun e he => (hcases e he).test)
    (fun e he => hdep e he)
    (fun e he => ⟨Context.frames_settle, (hcases e he).result, (hcases e he).updates⟩)
    (fun b hb => (hF b hb).1) (fun b hb => ⟨Context.frames_settle, (hF b hb).2⟩)

/-- The names of a chain are those of its lists. -/
theorem Issued.chained (hp : Plain c) (h : Issued s (Plain.code c) s') :
    Issued s [chained location c] s' :=
  ⟨hp.binds_eq ▸ h.temps, hp.enters_eq ▸ h.scopes⟩

theorem placed_none (c : Chain Instr) :
    c.placed none location = scoping c.scope false [chained location c] := rfl

theorem placed_some (c : Chain Instr) (g : GuardVariables Instr) :
    c.placed (some g) location =
      scoping g.scope false (g.setup ++ scoping c.scope false [chained location c]) := rfl

/-- A chain in its own scope, whose parts leave the scopes around it alone. -/
theorem laid_chain (hF : Fits π V s Γ)
    (hcode : Emits π (Γ.push s.scopeId.1) false [chained location c]
      ((Γ.push s.scopeId.1).settle π))
    (hi : Issued s.inside [chained location c] s1)
    (hs : Same s.inside s1) (hx : s1.exitScope s.scopeId.1 = .ok s2) :
    Laid π Γ s false (scoping s.scopeId.1 false [chained location c]) s2 (Γ.settle π) ∧
      Same s s2 := by
  have hl : Laid π (Γ.push s.scopeId.1) s.inside false
      [chained location c] s1 ((Γ.push s.scopeId.1).settle π) :=
    ⟨hcode, by rw [Context.frames_settle], hi, hs.kept⟩
  obtain ⟨hcode', hi', hs'⟩ := hl.scoped hF.scopeId_notMem hx
  exact ⟨⟨hcode', by rw [Context.frames_settle], hi', hs'.kept⟩, hs'⟩

/-- A statement after which nothing is remembered. -/
theorem Fits.settled (hF : Fits π V s Γ) (hcode : Emits π Γ false l (Γ.settle π))
    (hi : Issued s l s') (hs : Same s s') :
    ∃ Γ', Laid π Γ s false l s' Γ' ∧ (false = false → Fits π (V ++ []) s' Γ') :=
  ⟨Γ.settle π, ⟨hcode, by rw [Context.frames_settle], hi, hs.kept⟩,
    fun _ => by simpa using (hF.same hs hi.scopes.le).settle⟩

theorem genAssignUnset_yields (hx : Reassigns π V x) (hU : Reads π U V)
    (hc : CodeYields π setting U value) :
    StmtYields π setting V [] false (genAssignUnset location x value) := by
  intro s Γ hF
  unfold genAssignUnset
  refine ensures_bind.2 (checkAssignable_ensures hF hx fun hassign => ?_)
  refine .state (.scopeId (.enterScope (ensures_bind.2 ?_)))
  have hF1 := hF.push
  have hx' : Reads π [x] V := by
    refine ⟨fun hs y hy => ?_, fun hs y hy ht => ?_⟩
    · rw [List.mem_singleton.1 hy]
      exact (hx.1 hs).1
    · rw [List.mem_singleton.1 hy] at ht
      exact absurd ht (hx.2 hs).1
  refine (scopedCondition_yields (R := []) hF1 hx' (by simp) ?_).mono ?_
  · -- the condition asks whether the variable is unset
    generalize s.inside = s0
    have hk : s0.inside.currentScope = .ok s0.scopeId.1 := rfl
    generalize s0.inside = s1 at hk ⊢
    refine ensures_bind.2 (genVar_emits ?_)
    have h1 : Yields π [x] [] s0.scopeId.1 s1 [simple none .load [x] (some s1.temp.1)] s1.temp.2
        [s1.temp.1] [] := .load hk (by simp)
    refine (genIsSet_yields h1.scope_after π [x] ([s1.temp.1] ++ []) (by simp)).bind ?_
    intro a s2 l2 h2
    refine (genCallValue_yields h2.scope_after π [x] ([a] ++ ([s1.temp.1] ++ [])) (by simp)
      (by simp)).bind ?_
    intro b s3 l3 h3
    refine (genPrimitive_yields h3.scope_after π [x] ([b] ++ ([a] ++ ([s1.temp.1] ++ [])))
      (by simp)).bind ?_
    intro p s4 l4 h4
    exact .pure (by simpa using h1.andThen (h2.andThen (h3.append h4)))
  · rintro ⟨condition, conditionScope⟩ s1 _ ⟨htest, hi1, hs1, rfl⟩
    dsimp only at htest hi1 ⊢
    have hF2 := hF1.same hs1 hi1.scopes.le
    -- the body assigns the variable, which an outer scope releases
    have hblock := assignBlock_yields location hF2.push hassign.push.push hU hc
    refine (scopedBody_yields hF2.scopeId_notMem (hblock.mono fun _ _ _ h => h.2)).bind ?_
    · rintro ⟨bodyScope, body⟩ s2 _ ⟨d, hbody, hi2, hs2, rfl⟩
      dsimp only at hbody hi2 ⊢
      refine .exitScope fun s3 hx3 => .ofExcept fun c hchain => .lastAll Chain.place_eq_ok ?_
      have hc := Chain.guardedAssignment_eq_ok hchain
      have hplain : Plain c := by
        rw [hc]
        exact ⟨rfl, rfl, rfl⟩
      have hscope : c.scope = s.scopeId.1 := by rw [hc]
      have hcode : Emits π (Γ.push s.scopeId.1) false [chained location c]
          ((Γ.push s.scopeId.1).settle π) := by
        refine emits_branch (Γ.push s.scopeId.1) ?_ ?_ hplain ?_ ?_ ?_ ?_ ?_
        all_goals rw [hc]
        · simp
        · rfl
        · exact .nil
        · exact .nil
        · simp
        · intro e he
          rw [List.mem_singleton.1 he]
          exact ⟨htest, ⟨d, hbody⟩, rfl, rfl⟩
        · exact ⟨false, by simp⟩
      have hi : Issued s.inside [chained location c] s2 := by
        refine Issued.chained hplain ?_
        rw [hc]
        simpa [Plain.code, setupOf, caseCode, bodyCode, Case.lists, Case.build] using hi1.append hi2
      obtain ⟨hlaid, hsame⟩ := laid_chain hF hcode hi (hs1.trans hs2) hx3
      rw [placed_none, hscope]
      exact hF.settled hlaid.code hlaid.issued hsame

/-! ### Guards -/

/-- The variable of a guard, in a scope of its own that stays open. -/
theorem openGuard_yields {guard : GuardCode} (hF : Fits π V s Γ)
    (hx : Introduces π V guard.name) (hU : Reads π U V)
    (hc : CodeYields π setting U guard.init) :
    (openGuard guard).Ensures setting s fun g s' l =>
      l = [] ∧ g.scope = s.scopeId.1 ∧ ∃ Γ',
        Laid π (Γ.push s.scopeId.1) s.inside false g.setup s' Γ' ∧
        guard.name ∈ Γ'.owned ∧ Fits π (V ++ [guard.name]) s' Γ' := by
  unfold openGuard
  have hk : s.inside.currentScope = .ok s.scopeId.1 := rfl
  refine .scopeId (.enterScope (.captured ((genBind_emits hc hk).mono ?_)))
  rintro _ s1 _ ⟨l1, v, rfl, hy⟩
  exact .declare fun s2 hd => .pure ⟨rfl, rfl, hF.push.bind none hU hx hy hd⟩

/-- What guards the code of a statement: nothing, or the open scope of a variable. -/
inductive Guarding (π : Policy) (V : List String) (Γ : Context) (s : State) :
    Option GuardCode → Option (GuardVariables Instr) → State → Context → Prop where
  | none : Guarding π V Γ s none none s Γ
  | some {g v s' Γ'} (hscope : v.scope = s.scopeId.1)
      (hlaid : Laid π (Γ.push s.scopeId.1) s.inside false v.setup s' Γ')
      (hfits : Fits π (V ++ [g.name]) s' Γ') : Guarding π V Γ s (some g) (some v) s' Γ'

/-- The names of a guard. -/
def guardName (guard : Option GuardCode) : List String := (guard.map (·.name)).toList

theorem Guarding.fits (h : Guarding π V Γ s guard guards s' Γ') (hF : Fits π V s Γ) :
    Fits π (V ++ guardName guard) s' Γ' := by
  cases h with
  | none => simpa [guardName] using hF
  | some _ _ hfits => simpa [guardName] using hfits

/-- A guard of the source that may be declared, with the code of its value. -/
def GuardYields (π : Policy) (setting : Setting) (V : List String) (guard : Option GuardCode) :
    Prop :=
  ∀ g ∈ guard, Introduces π V g.name ∧
    ∃ U, Reads π U V ∧ CodeYields π setting U g.init

theorem openGuard?_yields (hF : Fits π V s Γ) (hg : GuardYields π setting V guard) :
    (openGuard? guard).Ensures setting s fun guards s' l =>
      l = [] ∧ ∃ Γ', Guarding π V Γ s guard guards s' Γ' := by
  unfold openGuard?
  cases guard with
  | none => exact .pure ⟨rfl, Γ, .none⟩
  | some guard =>
    obtain ⟨hx, U, hU, hc⟩ := hg guard rfl
    refine (openGuard_yields hF hx hU hc).bind ?_
    rintro v s1 _ ⟨rfl, hscope, Γ', hlaid, -, hF'⟩
    exact .pure ⟨rfl, Γ', .some hscope hlaid hF'⟩

/-- The code that opens the scope of a guard and sets up its variable. -/
def guardCode (guards : Option (GuardVariables Instr)) : List Instr :=
  match guards with
  | none => []
  | some g => [entering g.scope] ++ g.setup

/-- The scopes below those of a guard. -/
def belowGuard (guards : Option (GuardVariables Instr)) (frames : List Frame) : List Frame :=
  if guards.isSome then frames.tail else frames

theorem Issued.entering (s : State) :
    Issued s [Layout.entering s.scopeId.1] s.inside := by
  refine ⟨?_, ?_⟩
  · have hb : binds [Layout.entering s.scopeId.1] = [] := by simp [Layout.entering, binds_cons]
    rw [hb]
    exact .nil (Nat.le_refl _)
  · have he : enters [Layout.entering s.scopeId.1] = [s.scopeId.1] := by
      simp [Layout.entering, enters_cons, ownEnters_simple]
    rw [he]
    exact .single "_scope_" s.scopeIds

theorem Guarding.issued (h : Guarding π V Γ s guard guards s' Γ') :
    Issued s (guardCode guards) s' := by
  cases h with
  | none => exact .nil _
  | some hscope hlaid =>
    rw [guardCode, hscope]
    exact (Issued.entering s).append hlaid.issued

theorem Guarding.below (h : Guarding π V Γ s guard guards s' Γ') :
    belowGuard guards Γ'.frames = Γ.frames := by
  cases h with
  | none => rfl
  | some _ hlaid => exact hlaid.outer

theorem binds_placed (c : Chain Instr) (guards : Option (GuardVariables Instr)) :
    binds (c.placed guards location) = binds (guardCode guards) ++ binds [chained location c] := by
  cases guards with
  | none => rw [placed_none, binds_scoping, guardCode, binds_nil, List.nil_append]
  | some g =>
    rw [placed_some, binds_scoping, binds_append, binds_scoping, guardCode, binds_append]
    simp [entering, binds_cons]

theorem enters_placed (c : Chain Instr) (guards : Option (GuardVariables Instr)) :
    enters (c.placed guards location) =
      enters (guardCode guards) ++ c.scope :: enters [chained location c] := by
  cases guards with
  | none => rw [placed_none, enters_scoping, guardCode, enters_nil, List.nil_append]
  | some g =>
    rw [placed_some, enters_scoping, enters_append, enters_scoping, guardCode, enters_append]
    simp [entering, enters_cons, ownEnters_simple]

/-- The names of a chain with its guards are those of the guards and of the chain. -/
theorem Issued.placed (h : Issued s
      (guardCode guards ++ ([Layout.entering c.scope] ++ [Instr.chained location c])) s') :
    Issued s (c.placed guards location) s' := by
  refine h.of_perm ?_ ?_
  · rw [binds_placed]
    simp [binds_append, binds_cons, Layout.entering]
  · rw [enters_placed]
    simp [enters_append, enters_cons, Layout.entering, ownEnters_simple]

/-- The code of a guarded chain: the guard is set up first, and its scope is left last. -/
theorem Guarding.close {F : List Frame} (hF : Fits π V s Γ)
    (h : Guarding π V Γ s guard guards s1 Γ1)
    (hcode : Emits π Γ1 false (scoping c.scope false [chained location c])
      ({ Γ1 with frames := F }.settle π)) (hs : Same s1 s2) :
    (closeGuard? guards).Ensures setting s2 fun _ s3 l => l = [] ∧ Same s s3 ∧
      s3.scopeIds = s2.scopeIds ∧ s3.temps = s2.temps ∧
      Emits π Γ false (c.placed guards location)
        ({ Γ with frames := belowGuard guards F }.settle π) := by
  unfold closeGuard?
  cases h with
  | none => exact .pure ⟨rfl, hs, rfl, rfl, hcode⟩
  | some hscope hlaid =>
    refine ensures_exitScope.2 fun s3 hx => ?_
    rw [hscope] at hx
    have hsame := (hlaid.kept.trans hs.kept).exit hx
    rw [exitScope_eq hx] at hsame ⊢
    refine ⟨rfl, hsame, rfl, rfl, ?_⟩
    have := Emits.scope hF.scopeId_notMem (hlaid.code.append hcode)
    rw [Context.frames_settle] at this
    rw [placed_some, hscope]
    exact this

/-! ### Conditionals -/

/-- A branch, with the names its condition reads. -/
def BranchYields (π : Policy) (setting : Setting) (V : List String) (b : Code × BlockCode) : Prop :=
  (∃ U, Reads π U V ∧ CodeYields π setting U b.1) ∧ BlockYields π setting V b.2

/-- Cases that were generated one after the other. -/
structure CasesLaid (π : Policy) (Γ : Context) (s : State) (cases : List (Case Instr))
    (s' : State) : Prop where
  laid : ∀ e ∈ cases, CaseLaid π Γ e
  issued : Issued s (caseCode cases) s'
  same : Same s s'

theorem CasesLaid.nil (s : State) : CasesLaid π Γ s [] s := ⟨by simp, .nil s, .refl s⟩

theorem CasesLaid.cons {e : Case Instr} {rest : List (Case Instr)} {s1 s2 : State}
    (he : CaseLaid π Γ e) (hi : Issued s (e.condition.evaluation ++ e.body.evaluation) s1)
    (hs : Same s s1) (h : CasesLaid π Γ s1 rest s2) : CasesLaid π Γ s (e :: rest) s2 where
  laid := List.forall_mem_cons.2 ⟨he, h.laid⟩
  issued := by
    have hcode : caseCode (e :: rest)
        = e.condition.evaluation ++ e.body.evaluation ++ caseCode rest := by
      simp [caseCode, Case.lists, he.updates]
    rw [hcode]
    exact hi.append h.issued
  same := hs.trans h.same

theorem genBranches_yields (hF : Fits π V s Γ) (hb : ∀ b ∈ branches, BranchYields π setting V b) :
    (genBranches branches).Ensures setting s fun cases s' l =>
      l = [] ∧ CasesLaid π Γ s cases s' := by
  induction branches generalizing s with
  | nil =>
    unfold genBranches
    exact .pure ⟨rfl, .nil s⟩
  | cons b rest ih =>
    obtain ⟨condition, block⟩ := b
    obtain ⟨⟨U, hU, hc⟩, hblock⟩ := hb _ List.mem_cons_self
    unfold genBranches genBranch
    refine ensures_bind.2 ((genCondition_yields hF hU hc).bind ?_)
    rintro ⟨test, conditionScope⟩ s1 _ ⟨htest, hi1, hs1, rfl⟩
    dsimp only at htest hi1 ⊢
    have hF1 := hF.same hs1 hi1.scopes.le
    refine (scopedBody_yields hF1.scopeId_notMem (hblock.laid hF1.push)).bind ?_
    rintro ⟨bodyScope, body⟩ s2 _ ⟨d, hbody, hi2, hs2, rfl⟩
    dsimp only at hbody hi2 ⊢
    have hF2 := hF1.same hs2 hi2.scopes.le
    refine .pure ((ih hF2 fun b hb' => hb b (List.mem_cons_of_mem _ hb')).bind ?_)
    rintro cases s3 _ ⟨rfl, hcases⟩
    exact .pure ⟨rfl, .cons ⟨htest, ⟨d, hbody⟩, rfl, rfl⟩ (hi1.append hi2) (hs1.trans hs2) hcases⟩

theorem genFallback_yields {block : Option BlockCode} (hF : Fits π V s Γ)
    (hb : ∀ b ∈ block, BlockYields π setting V b) :
    (genFallback block).Ensures setting s fun b s' l =>
      l = [] ∧ FallbackLaid π Γ b ∧ Issued s (bodyCode b) s' ∧ Same s s' := by
  unfold genFallback
  cases block with
  | none => exact .pure ⟨rfl, ⟨false, by simp⟩, .nil s, .refl s⟩
  | some block =>
    refine (scopedBody_yields hF.scopeId_notMem ((hb block rfl).laid hF.push)).bind ?_
    rintro ⟨bodyScope, body⟩ s1 _ ⟨d, hbody, hi, hs, rfl⟩
    refine .pure ⟨rfl, ⟨d, ?_⟩, by simpa [bodyCode] using hi, hs⟩
    intro b hb'
    cases hb'
    exact ⟨hbody, rfl⟩

theorem guardFirst_yields (hb : ∀ b ∈ branches, BranchYields π setting (V ++ guardName guard) b) :
    ∀ b ∈ guardFirst guard branches, BranchYields π setting (V ++ guardName guard) b := by
  unfold guardFirst
  split
  · next guard condition block rest =>
    intro b hb'
    rcases List.mem_cons.1 hb' with rfl | hb'
    · obtain ⟨⟨U, hU, hc⟩, hblock⟩ := hb _ List.mem_cons_self
      refine ⟨⟨guard.name :: U, ?_, ?_⟩, hblock⟩
      · exact hU.cons (by simp [guardName])
      · exact codeYields_guarded List.mem_cons_self (hc.mono (List.subset_cons_self _ _))
    · exact hb b (List.mem_cons_of_mem _ hb')
  · exact hb

theorem genIf_yields {otherwise : Option BlockCode} (hg : GuardYields π setting V guard)
    (hb : ∀ b ∈ branches, BranchYields π setting (V ++ guardName guard) b)
    (ho : ∀ b ∈ otherwise, BlockYields π setting (V ++ guardName guard) b) :
    StmtYields π setting V [] false (genIf location guard branches otherwise) := by
  intro s Γ hF
  unfold genIf
  split
  · exact ensures_bind.2 .fail
  refine (openGuard?_yields hF hg).bind ?_
  rintro guards s1 _ ⟨rfl, Γ1, hguard⟩
  have hF1 := hguard.fits hF
  refine .scopeId (.enterScope ((genBranches_yields hF1.push (guardFirst_yields hb)).bind ?_))
  rintro cases s2 _ ⟨rfl, hcases⟩
  have hF2 := hF1.push.same hcases.same hcases.issued.scopes.le
  refine .check Chain.start_eq_ok ((genFallback_yields hF2 ho).bind ?_)
  rintro fallback s3 _ ⟨rfl, hfall, hi3, hs3⟩
  refine .exitScope fun s4 hx4 => ?_
  generalize hc : ({ kind := if cases.length = 1 then ChainKind.ifElse else ChainKind.ifElseIf
                     scope := s1.scopeId.1, cases, fallback } : Chain Instr) = c
  have hplain : Plain c := by
    rw [← hc]
    exact ⟨rfl, rfl, rfl⟩
  have hscope : c.scope = s1.scopeId.1 := by rw [← hc]
  have hcode : Emits π (Γ1.push s1.scopeId.1) false [chained location c]
      ((Γ1.push s1.scopeId.1).settle π) := by
    refine emits_branch (Γ1.push s1.scopeId.1) ?_ ?_ hplain ?_ ?_ ?_ ?_ ?_
    all_goals rw [← hc]
    · split <;> simp
    · dsimp only
      split <;> rfl
    · exact .nil
    · exact .nil
    · simp
    · exact hcases.laid
    · exact hfall
  have hscoped := Emits.scope hF1.scopeId_notMem hcode
  rw [Context.frames_settle, ← hscope] at hscoped
  refine (hguard.close hF hscoped ((hcases.same.trans hs3).kept.exit hx4)).bind ?_
  rintro _ s5 _ ⟨rfl, hs5, hids, htemps, hall⟩
  refine .check Chain.validate_eq_ok (.lastAll Chain.place_eq_ok ?_)
  have hi : Issued s (c.placed guards location) s3 := by
    refine Issued.placed (hguard.issued.append ?_)
    rw [hscope]
    refine (Issued.entering s1).append (Issued.chained hplain ?_)
    rw [← hc]
    simpa [Plain.code, setupOf] using hcases.issued.append hi3
  have hframes : belowGuard guards (Γ1.push c.scope).frames.tail = Γ.frames := hguard.below
  rw [hframes] at hall
  exact hF.settled hall ((hi.exit hx4).of_counters htemps hids) hs5

end ScopedIR.Layout
