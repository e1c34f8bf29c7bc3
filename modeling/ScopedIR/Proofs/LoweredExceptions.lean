import ScopedIR.Proofs.LoweredLoops

/-!
# Exceptions and departures have the layout

A try chain shields the scopes around it: an exception unwinds to it, and its finally block can be
left by no return. A departure leaves every scope up to where it leads.

Main statements: `genTry_yields`, `genReturn_yields` and `genThrow_yields`.
-/

namespace ScopedIR.Layout

open Instr Lowering Gen

variable {π : Policy} {setting : Setting} {V U : List String} {s s' s1 s2 s3 : State}
  {Γ Γ' : Context} {k x type exception : String} {location : Option Location} {l : List Instr}
  {d hasFinally : Bool} {c : Chain Instr} {block : BlockCode} {value : Code}
  {catches : List (Catch BlockCode)} {b : TryBlock Instr}

/-! ### Exceptions -/

/-- Where neither a return nor a throw may stand, control does not depart. -/
theorem Emits.departs_eq_false (h : Emits π Γ d l Γ') (hr : Γ.mayReturn = false)
    (ht : Γ.mayThrow = false) : d = false := by
  induction h with
  | append hl _ _ ih => exact ih (by rwa [hl.alike.mayReturn]) (by rwa [hl.alike.mayThrow])
  | forget _ _ ih | scope _ _ ih => exact ih hr ht
  | ret hm | retNone hm => simp [hr] at hm
  | throw hm => simp [ht] at hm
  | _ => rfl

/-- Inside the protected part of a try chain, once a scope is open there. -/
theorem Fits.protect (hF : Fits π V s Γ) (hs : Same (s.enterHandler hasFinally) s')
    (hn : s.scopeIds ≤ s'.scopeIds) :
    Fits π V s'.inside
      ((Γ.protect hasFinally).push s'.scopeId.1) := by
  have hsame : Same s { s' with handlers := s.handlers } := ⟨hs.scopes, rfl, hs.finallyDepth⟩
  have hF' := (hF.same hsame hn).push
  have hlen : Γ.frames.length = s.scopes.length := by
    rw [← Context.length_ids, hF.ids, State.openScopes, List.length_map]
  refine ⟨hF'.ids, hF'.issued, ?_, ?_, ?_, hF'.mayThrow, hF'.reads, hF'.closed, hF'.assignable⟩
  · intro _
    change Γ.frames.length = boundaryOf s'.inside
    have : s'.inside.handlers = (s.enterHandler hasFinally).handlers :=
      hs.handlers
    rw [boundaryOf, this, hlen]
    rfl
  · change Γ.frames.length < Γ.frames.length + 1
    omega
  · intro hfin hpast
    have hpast : (s.enterHandler hasFinally).returnsPastFinally = false := by
      unfold State.returnsPastFinally at hpast ⊢
      rwa [← hs.handlers]
    simp only [State.returnsPastFinally, State.enterHandler, List.any_cons, Bool.or_eq_false_iff]
      at hpast
    have := hF'.mayReturn hfin hpast.2
    change (Γ.mayReturn && !hasFinally) = true
    have hm : Γ.mayReturn = true := this
    simp [hm, hpast.1]

/-- Inside a finally block, once its scope is open. -/
theorem Fits.lastly (hF : Fits π V s Γ) :
    Fits π V (s.enterFinally.scopeId.2.enterScope s.enterFinally.scopeId.1)
      (Γ.lastly.push s.enterFinally.scopeId.1) := by
  have hF' := hF.push
  have hfin : (s.enterFinally.scopeId.2.enterScope s.enterFinally.scopeId.1).inFinally = true := by
    simp [State.inFinally, State.enterFinally, State.scopeId, State.enterScope]
  refine ⟨hF'.ids, hF'.issued, ?_, ?_, ?_, ?_, hF'.reads, hF'.closed, hF'.assignable⟩
  · intro h
    simp [hfin] at h
  · change Γ.frames.length < Γ.frames.length + 1
    omega
  · intro h
    simp [hfin] at h
  · intro h
    simp [hfin] at h

/-- A catch clause that takes over the exception into its variable. -/
structure CatchLaid (π : Policy) (Γ : Context) (exception : String) (e : Case Instr)
    (k x type : String) (d : Bool) (body : List Instr) (out : Context) : Prop where
  bare : e.condition.evaluation = [] ∧ e.updates = [] ∧ e.body.result = none
  code : e.body.evaluation = scoping k d (catching k x type exception ++ body)
  fresh : k ∉ Γ.ids ∧ Declarable π Γ x
  body : Emits π ((Γ.push k).own k x) d body out
  outer : out.frames.tail = Γ.frames

theorem issued_catching : Issued s (catching k x type exception) s :=
  .silent (by simp [catching, silent_simple])

theorem genCatch_yields {c : Catch BlockCode} (hk : s.scopeId.1 ∉ Γ.ids)
    (hd : Declarable π Γ c.variableName)
    (hF : Fits π V s.inside (Γ.push s.scopeId.1))
    (hx : Introduces π V c.variableName)
    (hb : BlockYields π setting (V ++ [c.variableName]) c.body) :
    (genCatch exception c).Ensures setting s fun e s' l => l = [] ∧
      (∃ k x type d body out, CatchLaid π Γ exception e k x type d body out) ∧
      Issued s (caseCode [e]) s' ∧ Same s s' := by
  have hcur : s.inside.currentScope = .ok s.scopeId.1 := rfl
  unfold genCatch
  have hblock : (Gen.emit (Instr.reference c.variableName c.exceptionType) >>= fun _ =>
      Gen.emit (Instr.store c.variableName exception) >>= fun _ =>
      Gen.emit (Instr.scopeRegister c.variableName s.scopeId.1) >>= fun _ =>
      Gen.declare c.variableName c.exceptionType >>= fun _ => c.body).Ensures setting
        s.inside fun d s' l => ∃ body out,
          l = catching s.scopeId.1 c.variableName c.exceptionType exception ++ body ∧
          Emits π ((Γ.push s.scopeId.1).own s.scopeId.1 c.variableName) d body out ∧
          out.frames.tail = Γ.frames ∧ Issued s.inside l s' ∧
          Kept s.inside s' := by
    refine .emit reference_eq_ok (.emit store_eq_ok (.emit scopeRegister_eq_ok
      (.declare fun s1 hd1 => ?_)))
    have hF1 := (hF.declare (fun hs => (hx.1 hs).1) hd1).own
      (Context.mem_ids_of_reach (hF.current hcur).2) fun hs => (hx.1 hs).2
    refine (hb _ _ hF1).mono ?_
    rintro d s2 l ⟨out, hlaid, -⟩
    refine ⟨l, out, by simp [catching], hlaid.code, ?_, ?_, (kept_declare hd1).trans hlaid.kept⟩
    · rw [hlaid.outer, Context.tail_own (hF.current hcur).1]
      rfl
    · simpa [catching] using (issued_catching.declare hd1).append hlaid.issued
  refine .scopeId (.captured ((genScoped_emits hblock).mono ?_))
  rintro _ s2 _ ⟨d, l, s1, ⟨body, out, rfl, hbody, hout, hi, hkept⟩, rfl, hexit⟩
  refine .ofExcept fun e he => .pure ?_
  unfold Case.handler at he
  split at he
  · cases he
  cases he
  refine ⟨rfl, ⟨s.scopeId.1, c.variableName, c.exceptionType, d, body, out,
    ⟨rfl, rfl, rfl⟩, rfl, ⟨hk, hd⟩, hbody, hout⟩, ?_, hkept.exit hexit⟩
  simpa [caseCode, Case.lists] using (hi.scoping (d := d)).exit hexit

/-- The clauses of a try chain whose chain context fits the state `s`, generated from `s1` on. -/
theorem genCatches_yields (hF : Fits π V s Γ) (hs : Same (s.enterHandler hasFinally) s1)
    (hn : s.scopeIds ≤ s1.scopeIds) (hc : ∀ c ∈ catches, Introduces π V c.variableName ∧
      BlockYields π setting (V ++ [c.variableName]) c.body) :
    (genCatches exception catches).Ensures setting s1 fun cases s' l => l = [] ∧
      (∀ e ∈ cases, ∃ k x type d body out,
        CatchLaid π (Γ.protect hasFinally) exception e k x type d body out) ∧
      Issued s1 (caseCode cases) s' ∧ Same s1 s' := by
  induction catches generalizing s1 with
  | nil =>
    unfold genCatches
    exact .pure ⟨rfl, by simp, .nil _, .refl _⟩
  | cons c rest ih =>
    obtain ⟨hx, hb⟩ := hc c List.mem_cons_self
    have hF1 := hF.protect hs hn
    have hk : s1.scopeId.1 ∉ (Γ.protect hasFinally).ids := by
      have hsame : Same s { s1 with handlers := s.handlers } := ⟨hs.scopes, rfl, hs.finallyDepth⟩
      exact (hF.same hsame hn).scopeId_notMem
    unfold genCatches
    refine (genCatch_yields hk (hF.declarable hx) hF1 hx hb).bind ?_
    rintro e s2 _ ⟨rfl, he, hi2, hs2⟩
    have hn2 := hi2.scopes.le
    refine (ih (hs.trans hs2) (by omega) fun c hc' => hc c (List.mem_cons_of_mem _ hc')).bind ?_
    rintro cases s3 _ ⟨rfl, hcases, hi3, hs3⟩
    refine .pure ⟨rfl, List.forall_mem_cons.2 ⟨he, hcases⟩, ?_, hs2.trans hs3⟩
    simpa [caseCode] using hi2.append hi3

/-- The code of a finally block, if there is one. -/
def finallyCode (b : Option (FinallyBlock Instr)) : List Instr := (b.map (·.evaluation)).getD []

theorem genFinally_yields {block : Option BlockCode} (hF : Fits π V s Γ)
    (hb : ∀ b ∈ block, BlockYields π setting V b) :
    (genFinally block).Ensures setting s fun f s' l => l = [] ∧ f.isSome = block.isSome ∧
      (∀ b, f = some b → Emits π Γ.lastly false b.evaluation (Γ.lastly.settle π)) ∧
      Issued s (finallyCode f) s' ∧ Same s s' := by
  unfold genFinally
  cases block with
  | none => exact .pure ⟨rfl, rfl, by simp, .nil s, .refl s⟩
  | some block =>
    have hk : s.enterFinally.scopeId.1 ∉ Γ.lastly.ids := hF.scopeId_notMem
    refine ensures_bind.2 (ensures_update.2 ((scopedBody_yields hk
      ((hb block rfl).laid hF.lastly)).bind ?_))
    rintro ⟨scope, body⟩ s1 _ ⟨d, hbody, hi, hs, rfl⟩
    refine ensures_bind.2 (ensures_tryUpdate.2 fun s2 hx => .pure ?_)
    obtain rfl : d = false := hbody.departs_eq_false rfl rfl
    unfold State.exitFinally at hx
    split at hx
    · cases hx
    cases hx
    refine ⟨rfl, rfl, ?_, ?_, ?_⟩
    · intro b hb'
      cases hb'
      exact hbody
    · exact Issued.of_counters (l := body) (Issued.mk hi.temps hi.scopes) rfl rfl
    · refine ⟨hs.scopes, hs.handlers, ?_⟩
      have := hs.finallyDepth
      simp only [State.enterFinally] at this
      simp [this]

/-- A try chain is laid out when its parts are. -/
theorem emits_try
    (hc : c.kind = .tryCatchFinally ∧ c.result = none ∧ c.subject = none ∧ c.returning = none ∧
      c.fallback = none ∧ c.tryBlock = some b) (hex : IsTemp b.exception)
    (ha : π.held → Γ.aliases = [])
    (htry : Emits π (Γ.protect c.finallyBlock.isSome) d b.evaluation
      ((Γ.protect c.finallyBlock.isSome).settle π))
    (hcases : ∀ e ∈ c.cases, ∃ k x type d body out,
      CatchLaid π (Γ.protect c.finallyBlock.isSome) b.exception e k x type d body out)
    (hfin : ∀ b, c.finallyBlock = some b →
      Emits π Γ.lastly false b.evaluation (Γ.lastly.settle π)) :
    Emits π Γ false [chained location c] Γ := by
  classical
  have hall : ∀ e : Case Instr, ∃ k x type d body out, e ∈ c.cases →
      CatchLaid π (Γ.protect c.finallyBlock.isSome) b.exception e k x type d body out := by
    intro e
    by_cases he : e ∈ c.cases
    · obtain ⟨k, x, type, d, body, out, h⟩ := hcases e he
      exact ⟨k, x, type, d, body, out, fun _ => h⟩
    · exact ⟨"", "", "", false, [], Γ, fun h => absurd h he⟩
  choose scopeOf var typeOf dep body out hlaid using hall
  obtain ⟨hkind, hres, hsub, hret, hfall, hb⟩ := hc
  exact .tryCatch hkind hres hsub hret hfall hb hex ha htry Context.frames_settle
    (fun e he => (hlaid e he).bare) (fun e he => (hlaid e he).code)
    (fun e he => (hlaid e he).fresh) (fun e he => (hlaid e he).body)
    (fun e he => (hlaid e he).outer) hfin fun b _ => Context.frames_settle

/-- The names of a try chain: the exception is numbered after the protected part. -/
theorem Issued.tryChained (hres : c.result = none) (hsub : c.subject = none)
    (hret : c.returning = none) (hfall : c.fallback = none) (hb : c.tryBlock = some b)
    (hex : b.exception = s1.temp.1) (h1 : Issued s b.evaluation s1)
    (h2 : Issued s1.temp.2 (caseCode c.cases) s2) (h3 : Issued s2 (finallyCode c.finallyBlock) s3) :
    Issued s [Instr.chained location c] s3 := by
  have hl : c.lists.flatten =
      b.evaluation ++ caseCode c.cases ++ finallyCode c.finallyBlock := by
    have hopt : ∀ o : Option (List Instr), o.toList.flatten = o.getD [] := by
      intro o
      cases o <;> simp
    simp [Chain.lists, hsub, hret, hfall, hb, hopt, caseCode, finallyCode]
  refine ⟨?_, ?_⟩
  · rw [binds_cons, ownBinds_chained, lists_chained, hl, hres, hb]
    have hn := h1.temps.append ((numbered_temp s1).append (h2.temps.append h3.temps))
    refine hn.perm ?_
    simp only [Option.toList_none, Option.map_some, Option.toList_some, List.nil_append,
      binds_append, binds_nil, List.append_nil, hex, List.append_assoc]
    exact List.perm_append_comm_assoc _ _ _
  · rw [enters_cons, ownEnters_chained, lists_chained, hl]
    have hn := h1.scopes.append (h2.scopes.append h3.scopes)
    simpa [enters_append] using hn

theorem genTry_yields {finallyBlock : Option BlockCode} (hb : BlockYields π setting V block)
    (hc : ∀ c ∈ catches, Introduces π V c.variableName ∧
      BlockYields π setting (V ++ [c.variableName]) c.body)
    (hf : ∀ b ∈ finallyBlock, BlockYields π setting V b) :
    StmtYields π setting V [] false (genTry location block catches finallyBlock) := by
  intro s Γ hF
  unfold genTry
  refine .scopeId (.enterScope (ensures_bind.2 (ensures_update.2 ?_)))
  have hF0 := hF.settle.push
  change Ensures _ setting (s.inside.enterHandler finallyBlock.isSome) _
  generalize hs0 : s.inside = s0 at hF0 ⊢
  generalize hΓ0 : (Γ.settle π).push s.scopeId.1 = Γ0 at hF0
  -- the protected part
  have hk1 : (s0.enterHandler finallyBlock.isSome).scopeId.1 ∉
      (Γ0.protect finallyBlock.isSome).ids := hF0.scopeId_notMem
  refine (scopedBody_yields hk1
    (hb.laid (hF0.protect (Same.refl _) (Nat.le_refl _)))).bind ?_
  rintro ⟨tryScope, body⟩ s1 _ ⟨d, hbody, hi1, hs1, rfl⟩
  dsimp only at hbody hi1 ⊢
  have hi1 : Issued s0 body s1 := ⟨hi1.temps, hi1.scopes⟩
  -- the exception and the clauses
  have hs1' : Same (s0.enterHandler finallyBlock.isSome) s1.temp.2 :=
    ⟨hs1.scopes, hs1.handlers, hs1.finallyDepth⟩
  have hn1 := hi1.scopes.le
  refine .temp ((genCatches_yields hF0 hs1' hn1 hc).bind ?_)
  rintro cases s2 _ ⟨rfl, hcases, hi2, hs2⟩
  have hn2 := hi2.scopes.le
  refine ensures_bind.2 (ensures_tryUpdate.2 fun s3 hx3 => ?_)
  have hs3 : s3 = { s2 with handlers := s0.handlers } := by
    unfold State.exitHandler at hx3
    rw [(hs1'.trans hs2).handlers] at hx3
    exact (Except.ok.inj hx3).symm
  have hsame3 : Same s0 s3 := by
    rw [hs3]
    exact ⟨(hs1'.trans hs2).scopes, rfl, (hs1'.trans hs2).finallyDepth⟩
  have hF3 : Fits π V s3 Γ0 := by
    refine hF0.same hsame3 ?_
    rw [hs3]
    exact Nat.le_trans hn1 hn2
  refine .check Chain.start_eq_ok ((genFinally_yields hF3 hf).bind ?_)
  rintro fin s4 _ ⟨rfl, hsome, hfin, hi4, hs4⟩
  refine .exitScope fun s5 hx5 => .check Chain.validate_eq_ok (.lastAll Chain.place_eq_ok ?_)
  have hi4 : Issued s2 (finallyCode fin) s4 := by
    rw [hs3] at hi4
    exact ⟨hi4.temps, hi4.scopes⟩
  rw [← hsome] at hbody hcases
  subst hs0 hΓ0
  obtain ⟨hlaid, hsame⟩ := laid_settled location
    (c := { kind := .tryCatchFinally, scope := s.scopeId.1, cases, finallyBlock := fin
            tryBlock := some ⟨tryScope, body, s1.temp.1⟩ }) hF
    (emits_try ⟨rfl, rfl, rfl, rfl, rfl, rfl⟩ (isTemp_temp s1)
      (fun hh => Context.aliases_settle hh) hbody hcases hfin)
    (.tryChained rfl rfl rfl rfl rfl rfl hi1 hi2 hi4) (hsame3.trans hs4) hx5
  exact hF.settled hlaid.code hlaid.issued hsame

/-! ### Departures -/

/-- A value that was just computed is handed over: it is retained, some scopes are left, and control
departs with it. -/
theorem depart_yields {scopes : State → List String} {opcode : Opcode} {make : Except Defect Instr}
    {v : String} {R : List String} (hmake : ∀ {i}, make = .ok i → i = simple none opcode [v] none)
    (hop : opcode ≠ .scopeEnter) (hy : Yields π U R k s l s1 [v] [])
    (hcode : Emits π Γ true (l ++ ([simple location .retain [v] none] ++
      leaving location (scopes s1) ++ [simple location opcode [v] none])) Γ')
    (htail : Γ'.frames.tail = Γ.frames.tail) :
    (Gen.emitAt location (Instr.retain v) >>= fun _ => Gen.state >>= fun s =>
      Gen.emitAll (Ownership.exits location (scopes s)) >>= fun _ =>
      Gen.emitAt location make).Ensures setting s1 fun _ s' r =>
        ∃ Γ', Laid π Γ s true (l ++ r) s' Γ' ∧ (true = false → Fits π (V ++ []) s' Γ') := by
  refine .emitAt retain_eq_ok (.state (.emitAll Ownership.exits_eq_ok (.lastAt hmake ?_)))
  have hi : Issued s1 ([simple location .retain [v] none] ++ leaving location (scopes s1) ++
      [simple location opcode [v] none]) s1 :=
    ((Issued.silent (by simp [silent_simple])).append issued_leaving).append
      (.silent (by simp [silent_simple hop]))
  refine ⟨Γ', ⟨by simpa [leaving] using hcode, htail, ?_, hy.same.kept⟩, by simp⟩
  simpa [leaving] using hy.issued.append hi

theorem genReturn_yields {value : Option Code} (hU : Reads π U V)
    (hc : ∀ c ∈ value, CodeYields π setting U c) :
    StmtYields π setting V [] true (genReturn location value) := by
  intro s Γ hF
  obtain ⟨k, hk, -⟩ := hF.exists_current
  unfold genReturn
  refine .state ?_
  split
  · exact ensures_bind.2 .fail
  next hfin =>
  refine .state ?_
  split
  · exact ensures_bind.2 .fail
  next hpast =>
  have hmay := hF.mayReturn (by simpa using hfin) (by simpa using hpast)
  refine (genOptional_yields hk π U [] hc).bind fun v s1 l1 hy => ?_
  have hids : s1.openScopes = Γ.ids := by
    rw [hF.ids, hy.state]
    rfl
  obtain ⟨Γ', hcalc, htail, -, hr, -⟩ := hF.calc_of_yields hU hy
  cases v with
  | none =>
    refine .state (.emitAll Ownership.exits_eq_ok (.lastAt ret_eq_ok ?_))
    rw [hids]
    have hcode : Emits π Γ' true (leaving location Γ.ids ++ [simple location .ret [] none]) Γ' := by
      rw [← hcalc.alike.ids]
      exact .retNone (by rwa [hcalc.alike.mayReturn])
    have hi : Issued s1 (leaving location Γ.ids ++ [simple location .ret [] none]) s1 :=
      issued_leaving.append (.silent (by simp [silent_simple]))
    have hall := Emits.append (.compute (List.Subset.refl _) hcalc) hcode
    refine ⟨Γ', ⟨by simpa [leaving] using hall, htail, ?_, hy.same.kept⟩, by simp⟩
    simpa [leaving] using hy.issued.append hi
  | some v =>
    refine depart_yields ret_eq_ok (by decide) hy ?_ htail
    rw [hids]
    exact .ret hmay (List.Subset.refl _) hcalc (hr v (by simp)) (hy.isTemp v (by simp))

theorem genThrow_yields (hU : Reads π U V) (hc : CodeYields π setting U value) :
    StmtYields π setting V [] true (genThrow location value) := by
  intro s Γ hF
  obtain ⟨k, hk, -⟩ := hF.exists_current
  unfold genThrow
  refine .state ?_
  split
  · exact ensures_bind.2 .fail
  next hfin =>
  have hmay := hF.mayThrow (by simpa using hfin)
  have hbound := hF.boundary (by simpa using hfin)
  refine (value_yields hk π U [] hc).bind fun v s1 l1 hy => ?_
  have hids : s1.scopesToHandler = Γ.inner := by
    have hlen : s1.scopes.length = Γ.frames.length := by
      rw [← Context.length_ids, hF.ids, State.openScopes, List.length_map, hy.state]
    have hopen : s1.openScopes = Γ.ids := by
      rw [hF.ids, hy.state]
      rfl
    have hhandlers : s1.handlers = s.handlers := by rw [hy.state]
    unfold State.scopesToHandler Context.inner
    rw [hhandlers, hopen, hlen, hbound, boundaryOf]
    cases s.handlers with
    | nil => rw [Nat.sub_zero, ← Context.length_ids, List.take_length]
    | cons handler outer => rfl
  obtain ⟨Γ', hcalc, htail, -, hr, -⟩ := hF.calc_of_yields hU hy
  refine depart_yields throw_eq_ok (by decide) hy ?_ htail
  rw [hids]
  exact .throw hmay (List.Subset.refl _) hcalc (hr v (by simp)) (hy.isTemp v (by simp))

end ScopedIR.Layout
