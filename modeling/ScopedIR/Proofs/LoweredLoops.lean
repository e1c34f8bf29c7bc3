import ScopedIR.Proofs.LoweredFlow

/-!
# Loops have the layout

A loop may leave nothing registered to the scope around it, since its code runs more than once: it
settles the context first, and its condition and its block stand in scopes of their own. Loops over
items and counting loops keep what they go by in temporaries that stay readable.

Main statements: `genWhile_yields`, `genForIn_yields` and `genForRange_yields`.
-/

namespace ScopedIR.Layout

open Instr Lowering Gen

variable {π : Policy} {setting : Setting} {V U W : List String} {s s' s1 s2 : State}
  {Γ Γ1 Γ' : Context} {k x type dir : String} {location : Option Location} {l : List Instr}
  {guard : Option GuardCode} {d : Bool} {c : Chain Instr} {kind : ChainKind} {block : BlockCode}
  {condition value first last : Code} {step : Option Code}

/-! ### Loops -/

theorem Context.settle_settle : (Γ.settle π).settle π = Γ.settle π := by
  by_cases hh : π.held <;> simp [Context.settle, hh, Context.forget]

theorem Context.settle_push : (Γ.push k).settle π = (Γ.settle π).push k := by
  by_cases hh : π.held <;> simp [Context.settle, hh, Context.forget, Context.push]

theorem Context.settle_push_settle : ((Γ.settle π).push k).settle π = (Γ.settle π).push k := by
  rw [settle_push, settle_settle]

theorem Context.settle_fence : Γ.fence.settle π = (Γ.settle π).fence := by
  by_cases hh : π.held <;> simp [Context.settle, hh, Context.forget, Context.fence]

theorem Context.owned_settle : (Γ.settle π).owned = Γ.owned := by
  unfold Context.owned
  rw [Context.frames_settle]

/-- Code that stands where nothing is remembered stands anywhere. -/
theorem Emits.of_settle (h : Emits π (Γ.settle π) d l Γ') : Emits π Γ d l Γ' := by
  by_cases hh : π.held
  · simp only [Context.settle, hh, if_true] at h
    exact .forget hh h
  · simpa only [Context.settle, hh, if_false] using h

/-- The condition and the block of a loop, whichever was generated first. -/
theorem genLoopParts_yields {bodyFirst : Bool} (hF : Fits π V s Γ) (hU : Reads π U V)
    (hc : CodeYields π setting U condition) (hb : BlockYields π setting V block) :
    (genLoopParts bodyFirst condition block).Ensures setting s fun a s' l => l = [] ∧
      Test π Γ a.1.1.evaluation a.1.1.primitive ∧
      (∃ d, Emits π Γ.fence d a.2.2 (Γ.fence.settle π)) ∧
      Issued s (a.1.1.evaluation ++ a.2.2) s' ∧ Same s s' := by
  unfold genLoopParts
  split
  · refine (scopedBody_yields (Γ := Γ.fence) hF.scopeId_notMem (hb.laid hF.push_fence)).bind ?_
    rintro ⟨bodyScope, body⟩ s1 _ ⟨d, hbody, hi1, hs1, rfl⟩
    refine (genCondition_yields (hF.same hs1 hi1.scopes.le) hU hc).bind ?_
    rintro ⟨test, conditionScope⟩ s2 _ ⟨htest, hi2, hs2, rfl⟩
    refine .pure ⟨rfl, htest, ⟨d, hbody⟩, (hi1.append hi2).of_perm ?_ ?_, hs1.trans hs2⟩
    · rw [binds_append, binds_append]
      exact List.perm_append_comm
    · rw [enters_append, enters_append]
      exact List.perm_append_comm
  · refine (genCondition_yields hF hU hc).bind ?_
    rintro ⟨test, conditionScope⟩ s1 _ ⟨htest, hi1, hs1, rfl⟩
    have hF1 := hF.same hs1 hi1.scopes.le
    refine (scopedBody_yields (Γ := Γ.fence) hF1.scopeId_notMem (hb.laid hF1.push_fence)).bind ?_
    rintro ⟨bodyScope, body⟩ s2 _ ⟨d, hbody, hi2, hs2, rfl⟩
    exact .pure ⟨rfl, htest, ⟨d, hbody⟩, hi1.append hi2, hs1.trans hs2⟩

/-- A guard whose variable may be assigned, with the code of its value. -/
def Renews (π : Policy) (setting : Setting) (V : List String) (Γ : Context)
    (guard : Option GuardCode) : Prop :=
  ∀ g ∈ guard, Assignable π Γ g.name ∧ ∃ U, Reads π U V ∧ CodeYields π setting U g.init

theorem genGuardUpdate_yields {guard : GuardCode} (hF : Fits π V s Γ)
    (hg : Renews π setting V Γ (some guard)) :
    (genGuardUpdate guard).Ensures setting s fun updates s' l => l = [] ∧
      Emits π Γ.fence false updates (Γ.fence.settle π) ∧ Issued s updates s' ∧ Same s s' := by
  obtain ⟨hx, U, hU, hc⟩ := hg guard rfl
  unfold genGuardUpdate
  refine .scopeId (.captured
    ((genScoped_emits (assignBlock_yields none hF.push_fence hx.push hU hc)).mono ?_))
  rintro _ s2 _ ⟨d, l', s1, ⟨rfl, Γ1, hl⟩, rfl, hx⟩
  obtain ⟨hcode, hi, hs⟩ := hl.scoped (Γ := Γ.fence) hF.scopeId_notMem hx
  exact .pure ⟨rfl, hcode, hi, hs⟩

/-- A chain in its own scope, before which everything remembered is given up. -/
theorem laid_settled (location : Option Location) (hF : Fits π V s Γ)
    (hcode : Emits π ((Γ.settle π).push s.scopeId.1) false [chained location c]
      ((Γ.settle π).push s.scopeId.1))
    (hi : Issued s.inside [chained location c] s1)
    (hs : Same s.inside s1) (hx : s1.exitScope s.scopeId.1 = .ok s2) :
    Laid π Γ s false (scoping s.scopeId.1 false [chained location c]) s2 (Γ.settle π) ∧
      Same s s2 := by
  obtain ⟨hlaid, hsame⟩ := laid_chain hF.settle (by rwa [Context.settle_push_settle]) hi hs hx
  rw [Context.settle_settle] at hlaid
  exact ⟨⟨hlaid.code.of_settle, by rw [Context.frames_settle], hlaid.issued, hsame.kept⟩, hsame⟩

/-- A loop in its own scope is laid out when its parts are. -/
theorem closeLoop_yields (hkind : kind.isLoop = true) (hF : Fits π V s Γ)
    (htest : Test π ((Γ.settle π).push s.scopeId.1) e.condition.evaluation e.condition.primitive)
    (hbody : ∃ d, Emits π ((Γ.settle π).push s.scopeId.1).fence d e.body.evaluation
      (((Γ.settle π).push s.scopeId.1).fence.settle π))
    (hup : Emits π ((Γ.settle π).push s.scopeId.1).fence false e.updates
      (((Γ.settle π).push s.scopeId.1).fence.settle π))
    (hi : Issued s.inside
      (e.condition.evaluation ++ e.body.evaluation ++ e.updates) s1)
    (hs : Same s.inside s1) :
    (Gen.exitScope s.scopeId.1 >>= fun _ =>
      Gen.ofExcept (Chain.start kind s.scopeId.1) >>= fun c =>
      Gen.ofExcept (Chain.validate { c with cases := [e] }) >>= fun c =>
      Gen.emitAll (c.place none location)).Ensures setting s1 fun _ s' l =>
        Laid π Γ s false l s' (Γ.settle π) ∧ Same s s' := by
  obtain ⟨d, hbody⟩ := hbody
  rw [Context.settle_fence, Context.settle_push_settle] at hbody hup
  refine .exitScope fun s2 hx => .check Chain.start_eq_ok (.check Chain.validate_eq_ok
    (.lastAll Chain.place_eq_ok (laid_settled location hF ?_ (.chained ⟨rfl, rfl, rfl⟩ ?_) hs hx)))
  · exact .loop hkind ⟨rfl, rfl, rfl⟩ rfl rfl rfl rfl (fun hh => Context.aliases_settle hh) htest
      hbody rfl hup rfl
  · simpa [Plain.code, setupOf, caseCode, bodyCode, Case.lists] using hi

theorem genLoop_yields (hkind : kind.isLoop = true) (hF : Fits π V s Γ) (hU : Reads π U V)
    (hc : CodeYields π setting U condition) (hb : BlockYields π setting V block)
    (hg : Renews π setting V Γ guard) :
    (genLoop location kind condition block guard).Ensures setting s fun _ s' l =>
      Laid π Γ s false l s' (Γ.settle π) ∧ Same s s' := by
  have hF1 := hF.settle.push
  unfold genLoop
  refine .scopeId (.enterScope ((genLoopParts_yields hF1 hU hc hb).bind ?_))
  rintro ⟨⟨test, conditionScope⟩, bodyScope, body⟩ s1 _ ⟨rfl, htest, hbody, hi1, hs1⟩
  have hF2 := hF1.same hs1 hi1.scopes.le
  cases guard with
  | none =>
    refine ensures_bind.2 (.pure (closeLoop_yields hkind hF htest hbody ?_ ?_ hs1))
    · rw [Context.settle_fence, Context.settle_push_settle]
      exact .nil
    · simpa [Case.build] using hi1
  | some g =>
    have hg' : Renews π setting V ((Γ.settle π).push s.scopeId.1) (some g) := by
      intro g' hg'
      obtain ⟨hx, h⟩ := hg g' hg'
      refine ⟨Assignable.push ⟨fun hs => ?_, hx.2⟩, h⟩
      rw [Context.owned_settle]
      exact hx.1 hs
    refine (genGuardUpdate_yields hF2 hg').bind ?_
    rintro updates s2 _ ⟨rfl, hup, hi2, hs2⟩
    exact closeLoop_yields hkind hF htest hbody hup (hi1.append hi2) (hs1.trans hs2)

/-- A block in a fresh scope, which does not depart. -/
theorem Laid.leaves (hF : Fits π V s Γ)
    (hl : Laid π (Γ.push s.scopeId.1) s.inside false l s1 Γ1)
    (hexit : s1.exitScope s.scopeId.1 = .ok s') :
    ∃ Γ', Laid π Γ s false (scoping s.scopeId.1 false l) s' Γ' ∧
      (false = false → Fits π (V ++ []) s' Γ') := by
  obtain ⟨hcode, hi, hs⟩ := hl.scoped hF.scopeId_notMem hexit
  exact hF.settled hcode hi hs

theorem genWhile_yields (hg : GuardYields π setting V guard)
    (hU : Reads π U (V ++ guardName guard)) (hc : CodeYields π setting U condition)
    (hb : BlockYields π setting (V ++ guardName guard) block) :
    StmtYields π setting V [] false (genWhile location guard condition block) := by
  intro s Γ hF
  unfold genWhile
  cases guard with
  | none =>
    simp only [guardName, Option.map_none, Option.toList_none, List.append_nil] at hU hb
    refine (genLoop_yields rfl hF hU hc hb (by simp [Renews])).mono ?_
    exact fun _ s1 l h => hF.settled h.1.code h.1.issued h.2
  | some g =>
    obtain ⟨hx, U0, hU0, hc0⟩ := hg g rfl
    simp only [guardName, Option.map_some, Option.toList_some] at hU hb
    refine (openGuard_yields hF hx hU0 hc0).bind ?_
    rintro v s1 _ ⟨rfl, hscope, Γ1, hlaid1, hown, hF1⟩
    have hU' : Reads π (g.name :: U) (V ++ [g.name]) := hU.cons (by simp)
    have hcond : CodeYields π setting (g.name :: U) (Code.guarded g.name g.type condition) :=
      codeYields_guarded List.mem_cons_self (hc.mono (List.subset_cons_self _ _))
    have hrenew : Renews π setting (V ++ [g.name]) Γ1 (some g) := by
      intro g' hg'
      cases hg'
      exact ⟨⟨fun hs => ⟨hown, (hx.1 hs).2⟩, hx.2⟩, U0, hU0.trans (List.subset_append_left _ _), hc0⟩
    refine .captured ((genLoop_yields rfl hF1 hU' hcond hb hrenew).mono ?_)
    rintro _ s2 chain ⟨hlaid2, -⟩
    refine .exitScope fun s3 hx3 => .emit scopeEnter_eq_ok (.emitAll (fun h => (Except.ok.inj h).symm)
      (.last scopeExit_eq_ok ?_))
    rw [hscope] at hx3 ⊢
    simpa [scoping, entering, exiting] using (hlaid1.append hlaid2).leaves hF hx3

/-! ### Loops over items -/

/-- Temporaries that stay readable may be used like variables. -/
theorem Fits.widen (h : Fits π V s Γ) (hV : V ⊆ W) (hW : ∀ x ∈ W, x ∈ V ∨ IsTemp x ∧ Stable π Γ x) :
    Fits π W s Γ :=
  { h with
    reads := by
      intro x hx
      rcases hW x hx with hx | ⟨-, hx⟩
      · exact h.reads x hx
      · exact hx
    closed := by
      intro hs
      obtain ⟨h1, h2⟩ := h.closed hs
      exact ⟨fun y hy => (h1 y hy).imp_right fun hy => hV hy,
        fun y hy => (h2 y hy).imp_left fun hy => hV hy⟩
    assignable := by
      intro hs x hx hxt
      rcases hW x hx with hx | ⟨ht, -⟩
      · exact h.assignable hs x hx hxt
      · exact absurd ht hxt }

/-- A temporary that stands for an object is readable. -/
theorem Stable.of_isTemp (hx : IsTemp x) (hn : x ∈ Γ.names) (ho : π.held → x ∈ Γ.owned) :
    Stable π Γ x :=
  ⟨fun hh => .inl (ho (hh.resolve_right fun h => h hx)), hn, fun _ => hx.dot_notMem⟩

theorem Stable.emits (h : Stable π Γ x) (hl : Emits π Γ d l Γ') : Stable π Γ' x := by
  refine h.mono hl.alike.params hl.grows.owned_subset ?_
  intro hh y hy
  simp only [Context.names, List.mem_append] at hy ⊢
  rw [hl.alike.params]
  exact hy.imp_left (Or.imp (fun hy => hl.grows.owned_subset hy)
    fun hy => hl.aliases_subset hh hy)

/-- A block that knows nothing of some temporaries leaves them readable. -/
theorem BlockYields.restrict (h : BlockYields π setting V block) (hV : V ⊆ W)
    (hW : ∀ x ∈ W, x ∈ V ∨ IsTemp x) : BlockYields π setting W block := by
  intro s Γ hF
  refine (h s Γ (hF.restrict hV hW)).mono ?_
  rintro d s' l ⟨Γ', hlaid, hF'⟩
  refine ⟨Γ', hlaid, fun hd => ?_⟩
  obtain ⟨N, hF'⟩ := hF' hd
  refine ⟨N, hF'.widen ?_ ?_⟩
  · exact List.append_subset.2 ⟨List.Subset.trans hV (List.subset_append_left _ _),
      List.subset_append_right _ _⟩
  · intro x hx
    rcases List.mem_append.1 hx with hx | hx
    · refine (hW x hx).imp (fun hx => List.mem_append_left _ hx) fun ht => ⟨ht, ?_⟩
      exact (hF.reads x hx).emits hlaid.code
    · exact .inl (List.mem_append_right _ hx)

/-- A block that begins with an assignment. -/
theorem assignFirst_yields (hx : Reassigns π V x) (hU : Reads π U V)
    (hc : CodeYields π setting U value) (hb : BlockYields π setting V block) :
    BlockYields π setting V (genAssign location x value >>= fun _ => block) := by
  intro s Γ hF
  refine (genAssign_yields hx hU hc s Γ hF).bind ?_
  rintro _ s1 l1 ⟨Γ1, hlaid1, hF1⟩
  have hF1 : Fits π V s1 Γ1 := by simpa using hF1 rfl
  refine (hb s1 Γ1 hF1).mono ?_
  rintro d s2 l2 ⟨Γ2, hlaid2, hF2⟩
  exact ⟨Γ2, hlaid1.append hlaid2, hF2⟩

/-- A statement that is a block in a scope of its own. -/
theorem genScoped_yields {block : String → BlockCode}
    (hb : ∀ k s Γ, s.currentScope = .ok k → Fits π V s Γ → (block k).Ensures setting s fun d s' l =>
      d = false ∧ ∃ Γ', Laid π Γ s d l s' Γ') :
    StmtYields π setting V [] false (scopeId >>= fun k => genScoped k (block k)) := by
  intro s Γ hF
  refine .scopeId ((genScoped_emits (hb _ _ _ rfl hF.push)).mono ?_)
  rintro _ s2 _ ⟨d, l', s1, ⟨rfl, Γ1, hl⟩, rfl, hexit⟩
  exact hl.leaves hF hexit

theorem genForIn_yields {collection : Code} (hU : Reads π U V)
    (hc : CodeYields π setting U collection) (hx : Introduces π V x)
    (hb : BlockYields π setting (V ++ [x]) block) :
    StmtYields π setting V [] false (genForIn location x type collection block) := by
  unfold genForIn
  refine genScoped_yields fun k s Γ hk hF => ?_
  refine (value_yields hk π U [] hc).bind fun items s1 l1 h1 => ?_
  refine ensures_bind.2 (genCallValue_emits h1.scope_after fun site hr ht ha _ => ?_)
  obtain ⟨Γ1, hcalc, htail, hF1, hnear, -⟩ := hF.calc_of_yields hU h1
  obtain ⟨hhead, hreach⟩ := hF1.current h1.scope_after
  generalize hit : s1.temp.1 = it
  have hitTemp : IsTemp it := hit ▸ isTemp_temp s1
  -- the iterator is owned by the scope, so the loop may go on using it
  have hcall : Calc π Γ.names k Γ1
      ([calling none .call (some it) site] ++ registering none it k) (Γ1.own k it) :=
    .call hitTemp hreach rfl hr (.inr (ht ▸ (hnear items (by simp)).mem_names)) (by simp [ha])
  have hy : Yields π U ([items] ++ []) k s1
      ([calling none .call (some it) site] ++ registering none it k) s1.temp.2 [it] [] :=
    hit ▸ .call h1.scope_after rfl hr (.inr (by simp [ht])) (by simp [ha])
  have hF2 : Fits π (V ++ [it]) s1.temp.2 (Γ1.own k it) := by
    refine ((hF1.compute hcall).yields hy).widen (List.subset_append_left _ _) ?_
    intro y hy
    rcases List.mem_append.1 hy with hy | hy
    · exact .inl hy
    · have hown := Context.mem_owned_own (x := it) (Context.mem_ids_of_reach hreach)
      rw [List.mem_singleton.1 hy]
      exact .inr ⟨hitTemp, .of_isTemp hitTemp (by simp [Context.names, hown]) fun _ => hown⟩
  have hlaid2 : Laid π Γ s false
      (l1 ++ ([calling none .call (some it) site] ++ registering none it k)) s1.temp.2
      (Γ1.own k it) :=
    ⟨.compute (List.Subset.refl _) (hcalc.append hcall), (Context.tail_own hhead).trans htail,
      h1.issued.append hy.issued, h1.same.kept.trans hy.same.kept⟩
  have hx' : Introduces π (V ++ [it]) x := by
    refine ⟨fun hs => ?_, hx.2⟩
    obtain ⟨hv, ht, hd⟩ := hx.1 hs
    refine ⟨?_, ht, hd⟩
    intro hm
    rcases List.mem_append.1 hm with hm | hm
    · exact hv hm
    · exact ht (List.mem_singleton.1 hm ▸ hitTemp)
  refine .emitAll Ownership.declare_eq_ok (.declare fun s3 hd => ?_)
  obtain ⟨hlaid3, hF3⟩ := declare_laid location hF2 hx' hy.scope_after hd
  have hread : Reads π [it] (V ++ [it] ++ [x]) := .of_subset (by simp)
  have hcursor : CodeYields π setting [it] (Code.ofVar it TypeName.iterator) :=
    codeYields_ofVar (by simp)
  have hblock : BlockYields π setting (V ++ [it] ++ [x]) block := by
    refine hb.restrict ?_ ?_
    · simp
    · intro y hy
      simp only [List.mem_append, List.mem_singleton] at hy ⊢
      rcases hy with (hy | rfl) | rfl
      · exact .inl (.inl hy)
      · exact .inr hitTemp
      · exact .inl (.inr rfl)
  refine (genLoop_yields rfl hF3 hread (codeYields_ofCall hcursor (by simp))
    (assignFirst_yields ⟨fun hs => ⟨by simp, (hx.1 hs).2.1⟩, hx.2⟩ hread
      (codeYields_ofCall hcursor (by simp)) hblock) (by simp [Renews])).bind ?_
  rintro _ s4 l4 ⟨hlaid4, -⟩
  exact .pure ⟨rfl, _, by simpa [declaring] using (hlaid2.append hlaid3).append hlaid4⟩

/-! ### Counting loops -/

/-- The names a counting loop works with are visible. -/
structure RangeIn (W : List String) (r : Range) : Prop where
  name : r.name ∈ W
  first : r.first ∈ W
  last : r.last ∈ W
  step : ∀ t ∈ r.step, t ∈ W

theorem RangeIn.mono {r : Range} (h : RangeIn V r) (hV : V ⊆ W) : RangeIn W r :=
  ⟨hV h.name, hV h.first, hV h.last, fun t ht => hV (h.step t ht)⟩

section

variable {W : List String} {r : Range} {d : Direction} {block : BlockCode}

theorem codeYields_var {name : String} (h : name ∈ W) : CodeYields π setting W (r.var name) :=
  codeYields_ofVar h

theorem codeYields_advance (hr : RangeIn W r) : CodeYields π setting W (r.advance d) := by
  unfold Range.advance
  split
  · next step hs =>
    exact codeYields_ofCall (codeYields_var hr.name)
      (by simpa using codeYields_var (hr.step step (by simp [hs])))
  · exact codeYields_ofCall (codeYields_var hr.name) (by simp)

theorem genCheckStep_yields (hr : RangeIn W r) :
    StmtYields π setting W [] false (r.genCheckStep d) := by
  unfold Range.genCheckStep
  split
  · next step hs =>
    have hstep : CodeYields π setting W (r.var step) :=
      codeYields_var (hr.step step (by simp [hs]))
    have hfirst : CodeYields π setting W (r.var r.first) := codeYields_var hr.first
    exact genAssert_yields (.refl _)
      (codeYields_ofCall (codeYields_ofCall hfirst (by simpa using hstep)) (by simpa using hfirst))
  · exact fun s Γ hF => .pure ⟨Γ, .nil Γ s, fun _ => by simpa using hF⟩

/-- One round of a counting loop: the block, then the next value unless the block departs. -/
theorem countingRound_yields (hr : RangeIn W r)
    (hx : Reassigns π W r.name) (hb : BlockYields π setting W block) :
    BlockYields π setting W (block >>= fun departs =>
      if departs then pure true
      else genAssign none r.name (r.advance d) >>= fun _ => pure false) := by
  intro s Γ hF
  refine (hb s Γ hF).bind ?_
  rintro departs s1 l1 ⟨Γ1, hlaid1, hF1⟩
  cases departs with
  | true => exact .pure ⟨Γ1, by simpa using hlaid1, by simp⟩
  | false =>
    obtain ⟨N, hF1⟩ := hF1 rfl
    refine (genAssign_yields ⟨fun hs => (hx.1 hs).imp_left (List.mem_append_left _), hx.2⟩
      (.of_subset (List.subset_append_left _ _)) (codeYields_advance hr) s1 Γ1 hF1).bind ?_
    rintro _ s2 l2 ⟨Γ2, hlaid2, hF2⟩
    exact .pure ⟨Γ2, by simpa using hlaid1.append hlaid2, fun _ => ⟨N, by simpa using hF2 rfl⟩⟩

theorem genDirection_yields (hr : RangeIn W r)
    (hx : Reassigns π W r.name) (hb : BlockYields π setting W block) :
    BlockYields π setting W (r.genDirection d block) := by
  intro s Γ hF
  unfold Range.genDirection
  refine (genCheckStep_yields hr s Γ hF).bind ?_
  rintro _ s1 l1 ⟨Γ1, hlaid1, hF1⟩
  have hF1 : Fits π W s1 Γ1 := by simpa using hF1 rfl
  have hcond : CodeYields π setting W (r.inRange d) :=
    codeYields_ofCall (codeYields_var hr.name) (by simpa using codeYields_var hr.last)
  have hnone : GuardYields π setting W none := by simp [GuardYields]
  refine (genWhile_yields hnone (by simpa [guardName] using .refl _) hcond
    (by simpa [guardName] using countingRound_yields hr hx hb) s1 Γ1 hF1).bind ?_
  rintro _ s2 l2 ⟨Γ2, hlaid2, hF2⟩
  exact .pure ⟨Γ2, by simpa using hlaid1.append hlaid2, fun _ => ⟨[], hF2 rfl⟩⟩

end

/-- Temporaries that stand for objects may be used like variables, where nothing must be held. -/
theorem Fits.see (hF : Fits π V s Γ) (hheld : ¬ π.held) {T : List String}
    (hT : ∀ t ∈ T, IsTemp t ∧ t ∈ Γ.names) : Fits π (V ++ T) s Γ := by
  refine hF.widen (List.subset_append_left _ _) ?_
  intro y hy
  refine (List.mem_append.1 hy).imp_right fun hy => ⟨(hT y hy).1, ?_⟩
  exact .of_isTemp (hT y hy).1 (hT y hy).2 fun hh => absurd hh hheld

theorem codeYields_directionIs (hdir : dir ∈ W) (sign : String) :
    CodeYields π setting W (directionIs dir sign) := by
  refine codeYields_ofCall (codeYields_ofVar hdir) ?_
  simpa using codeYields_ofLiteral

/-- The branches of a counting loop: a loop for each direction, and the block alone for equal ends. -/
theorem genDirections_yields {r : Range} (hr : RangeIn W r) (hx : Reassigns π W r.name) (hdir : dir ∈ W)
    (hb : BlockYields π setting W block) :
    StmtYields π setting W [] false (genIf location none
      [(directionIs dir Direction.up.sign, r.genDirection .up block),
       (directionIs dir Direction.down.sign, r.genDirection .down block)] (some block)) := by
  refine genIf_yields (by simp [GuardYields]) ?_ ?_
  · intro b hb'
    simp only [guardName, Option.map_none, Option.toList_none, List.append_nil]
    simp only [List.mem_cons, List.not_mem_nil, or_false] at hb'
    rcases hb' with rfl | rfl <;>
      exact ⟨⟨W, .refl _, codeYields_directionIs hdir _⟩, genDirection_yields hr hx hb⟩
  · rintro b ⟨⟩
    simpa [guardName] using hb

theorem genForRange_yields (hheld : ¬ π.held) (hU : Reads π U V)
    (hfirst : CodeYields π setting U first) (hlast : CodeYields π setting U last)
    (hstep : ∀ c ∈ step, CodeYields π setting U c) (hx : Introduces π V x)
    (hb : BlockYields π setting (V ++ [x]) block) :
    StmtYields π setting V [] false (genForRange location x type first last step block) := by
  unfold genForRange
  refine genScoped_yields fun k s Γ hk hF => ?_
  refine (value_yields hk π U [] hfirst).bind fun a s1 l1 h1 => ?_
  refine (value_yields h1.scope_after π U ([a] ++ []) hlast).bind fun b s2 l2 h2 => ?_
  refine (genOptional_yields h2.scope_after π U (([b] ++ [a]) ++ []) hstep).bind fun c s3 l3 h3 => ?_
  have hy := (h1.append h2).append h3
  obtain ⟨Γ1, hcalc1, htail1, hF1, hnear, -⟩ := hF.calc_of_yields hU hy
  -- the loop variable starts at the first end
  refine .emitAll Ownership.declare_eq_ok (.emitAll Ownership.initialise_eq_ok
    (.declare fun s4 hd => ?_))
  obtain ⟨hhead, hreach⟩ := hF1.current hy.scope_after
  have hbind : Laid π Γ1 s3 false (declaring location x type k ++ [] ++
      initialising location x a) s4 (Γ1.own k x) :=
    ⟨.bind (hF1.declarable hx) hreach (List.Subset.refl _) .nil (hnear a (by simp)).own
      (hy.isTemp a (by simp)), Context.tail_own hhead, ((issued_declaring.append (.nil _)).append
      issued_initialising).declare hd, kept_declare hd⟩
  generalize hT : c.toList ++ ([b] ++ [a]) = T at hy hnear
  have hF2 : Fits π (V ++ [x] ++ T) s4 (Γ1.own k x) :=
    (declare_laid location hF1 hx hy.scope_after hd).2.see hheld fun t ht =>
      ⟨hy.isTemp t ht, (hnear t ht).own.mem_names⟩
  have hr : RangeIn (V ++ [x] ++ T) { name := x, type, first := a, last := b, step := c } := by
    rw [← hT]
    exact ⟨by simp, by simp, by simp, by intro t ht; simp [Option.mem_toList.2 ht]⟩
  -- the direction
  obtain ⟨k', hk', -⟩ := hF2.exists_current
  refine (value_yields hk' π _ [] (codeYields_ofCall (codeYields_var hr.first)
    (by simpa using codeYields_var hr.last))).bind fun dir s5 l5 h5 => ?_
  obtain ⟨Γ2, hcalc2, htail2, hF3, hnear', -⟩ := hF2.calc_of_yields (.refl _) h5
  have hF4 : Fits π (V ++ [x] ++ T ++ [dir]) s5 Γ2 := hF3.see hheld fun t ht =>
    ⟨h5.isTemp t ht, (hnear' t ht).mem_names⟩
  have hblock : BlockYields π setting (V ++ [x] ++ T ++ [dir]) block := by
    refine hb.restrict (by simp) fun y hy' => ?_
    rcases List.mem_append.1 hy' with hy' | hy'
    · exact (List.mem_append.1 hy').imp_right (hy.isTemp y)
    · exact .inr (h5.isTemp y hy')
  refine (genDirections_yields (hr.mono (List.subset_append_left _ _))
    ⟨fun hs => ⟨by simp, (hx.1 hs).2.1⟩, hx.2⟩ (by simp) hblock s5 Γ2 hF4).bind ?_
  rintro _ s6 l6 ⟨Γ3, hlaid, -⟩
  refine .pure ⟨rfl, Γ3, ?_⟩
  have hall := (((Laid.compute hcalc1 htail1 hy).append hbind).append
    (.compute hcalc2 htail2 h5)).append hlaid
  simpa [declaring, initialising] using hall

end ScopedIR.Layout
