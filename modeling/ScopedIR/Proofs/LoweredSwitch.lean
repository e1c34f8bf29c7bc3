import ScopedIR.Proofs.LoweredFlow

/-!
# Switches have the layout

A switch registers the variable it returns to the scope around it, from inside the scope of its chain,
so the context around a switch grows by the names that its code registers there.

Main statement: `genSwitch_yields`.
-/

namespace ScopedIR.Layout

open Instr Lowering Gen

/-! ### Names registered to an outer scope -/

namespace Context

/-- Register names to the innermost scope called `k`, the last one first. -/
def ownAll (k : String) (xs : List String) (F : List Frame) : List Frame := xs.foldr (ownIn k) F

variable {k : String} {xs ys : List String} {F : List Frame}

theorem ownAll_cons {x : String} : ownAll k (x :: xs) F = ownIn k x (ownAll k xs F) := rfl

theorem ownAll_append : ownAll k (xs ++ ys) F = ownAll k xs (ownAll k ys F) := by
  simp [ownAll]

variable {Γ : Context}

theorem ids_ownAll : ({ Γ with frames := ownAll k xs F } : Context).ids =
    ({ Γ with frames := F } : Context).ids := by
  induction xs with
  | nil => rfl
  | cons x xs ih =>
    rw [← ih]
    exact ids_own (Γ := { Γ with frames := ownAll k xs F })

/-- Names registered to an outer scope leave the innermost scope alone. -/
theorem ownAll_of_ne {f : Frame} (hf : f.id ≠ k) : ownAll k xs (f :: F) = f :: ownAll k xs F := by
  induction xs with
  | nil => rfl
  | cons x xs ih => rw [ownAll_cons, ih, ownIn, if_neg hf, ownAll_cons]

/-- Names registered to the innermost scope leave the scopes around it alone. -/
theorem tail_ownAll (hk : Γ.ids.head? = some k) : (ownAll k xs Γ.frames).tail = Γ.frames.tail := by
  induction xs with
  | nil => rfl
  | cons x xs ih =>
    rw [ownAll_cons, ← ih]
    refine tail_own (Γ := { Γ with frames := ownAll k xs Γ.frames }) ?_
    rw [ids_ownAll]
    exact hk

end Context

/-- An expression registers temporaries to one scope. -/
theorem Calc.exists_ownAll {π : Policy} {B : List String} {k : String} {Γ Γ1 : Context}
    {l : List Instr} (h : Calc π B k Γ l Γ1) :
    ∃ ts, (∀ t ∈ ts, IsTemp t) ∧ Γ1.frames = Context.ownAll k ts Γ.frames := by
  induction h with
  | append _ _ ih ih' =>
    obtain ⟨ts, hts, he⟩ := ih
    obtain ⟨ts', hts', he'⟩ := ih'
    exact ⟨ts' ++ ts, List.forall_mem_append.2 ⟨hts', hts⟩, by rw [he', he, Context.ownAll_append]⟩
  | @create _ t _ _ _ ht | @call _ t _ _ _ ht => exact ⟨[t], by simpa using ht, rfl⟩
  | _ => exact ⟨[], by simp, rfl⟩

variable {π : Policy} {setting : Setting} {V U ts xs W : List String} {s s' s1 s2 s3 s4 : State}
  {Γ Γ1 Γ' : Context} {k subject type : String} {location : Option Location} {l : List Instr}
  {test : SwitchTest} {e : Case Instr} {enum : Option EnumType}
  {cases : List (SwitchCase BlockCode)} {returning guard : Option GuardCode} {d : Bool}
  {guards : Option (GuardVariables Instr)} {c : Chain Instr} {otherwise : Option BlockCode}

/-- Registered temporaries do not matter for what is visible. -/
theorem Fits.ownTemps (h : Fits π V s Γ) (ht : ∀ t ∈ ts, IsTemp t) :
    Fits π V s { Γ with frames := Context.ownAll k ts Γ.frames } := by
  induction ts with
  | nil => exact h
  | cons t ts ih =>
    have ih := ih fun t ht' => ht t (List.mem_cons_of_mem _ ht')
    have hown : ∀ y ∈ (Context.own { Γ with frames := Context.ownAll k ts Γ.frames } k t).owned,
        y ∈ ({ Γ with frames := Context.ownAll k ts Γ.frames } : Context).owned ∨ IsTemp y := by
      intro y hy
      rcases Context.mem_of_mem_owned_own hy with rfl | hy
      · exact .inr (ht _ List.mem_cons_self)
      · exact .inl hy
    exact ih.grow .own Context.owned_own_subset (fun _ => Context.names_own_subset) hown

/-! ### Switches -/

/-- The code of a test of a switch, with the names it reads. -/
def TestYields (π : Policy) (setting : Setting) (V : List String) (test : SwitchTest) : Prop :=
  ∀ e, test = .value e → ∃ U, Reads π U V ∧ CodeYields π setting U e.lower

/-- The comparison of a subject with a candidate that was just computed. -/
theorem compare_yields {candidate : String} {symbol : Symbol}
    (h : Yields π U [subject] k s l s1 [candidate] []) :
    (genCallValue subject symbol [candidate] >>= fun result =>
      genPrimitive result TypeName.boolean >>= fun p => pure (result, p)).Ensures setting s1
        fun a s' l' => Yields π U [subject] k s (l ++ l') s' [a.1] [a.2] := by
  refine (genCallValue_yields h.scope_after π U ([candidate] ++ [subject]) (by simp)
    (by simp)).bind ?_
  intro b s2 l2 h2
  refine (genPrimitive_yields h2.scope_after π U ([b] ++ ([candidate] ++ [subject]))
    (by simp)).bind ?_
  intro p s3 l3 h3
  exact .pure (by simpa using h.andThen (h2.append h3))

theorem genTest_yields (hF : Fits π V s Γ) (ht : TestYields π setting V test)
    (hs : subject ∈ Γ.names) :
    (genTest subject type test).Ensures setting s fun a s' l =>
      Test π Γ a.1.evaluation a.1.primitive ∧ Issued s a.1.evaluation s' ∧ Same s s' ∧ l = [] := by
  have hk : s.inside.currentScope = .ok s.scopeId.1 := rfl
  unfold genTest
  cases test with
  | value e =>
    obtain ⟨U, hU, hc⟩ := ht e rfl
    refine scopedCondition_yields (R := [subject]) hF hU (by simpa using hs) ?_
    refine (value_yields hk π U [subject] hc).bind fun a s1 l1 h1 => ?_
    exact .ofExcept fun method _ => compare_yields h1
  | enumConstant c =>
    refine scopedCondition_yields (U := []) (R := [subject]) hF (.of_subset (List.nil_subset _))
      (by simpa using hs) ?_
    refine (genLiteral_yields hk π [] [subject]).bind fun a s1 l1 h1 => ?_
    exact .ofExcept fun method _ => compare_yields h1

/-- A case of a switch: its test and its block. -/
def SwitchCaseYields (π : Policy) (setting : Setting) (V : List String)
    (c : SwitchCase BlockCode) : Prop :=
  TestYields π setting V c.test ∧ BlockYields π setting V c.body

theorem switchCase_eq_ok {scope : String} {condition : CaseCondition Instr}
    {body : CaseBody Instr} (h : switchCase enum test scope condition body = .ok e) :
    e.condition = condition ∧ e.body = body ∧ e.updates = [] := by
  unfold switchCase at h
  split at h
  · split at h
    · unfold Case.enumConstant at h
      split at h
      · cases h
      · cases h
        exact ⟨rfl, rfl, rfl⟩
    · cases h
  · cases h
    exact ⟨rfl, rfl, rfl⟩
  · cases h
    exact ⟨rfl, rfl, rfl⟩

theorem genSwitchCases_yields (hF : Fits π V s Γ) (hs : subject ∈ Γ.names)
    (hc : ∀ c ∈ cases, SwitchCaseYields π setting V c) :
    (genSwitchCases subject type enum cases).Ensures setting s fun cs s' l =>
      l = [] ∧ CasesLaid π Γ s cs s' := by
  induction cases generalizing s with
  | nil =>
    unfold genSwitchCases
    exact .pure ⟨rfl, .nil s⟩
  | cons c rest ih =>
    obtain ⟨ht, hb⟩ := hc c List.mem_cons_self
    unfold genSwitchCases
    refine (genTest_yields hF ht hs).bind ?_
    rintro ⟨condition, conditionScope⟩ s1 _ ⟨htest, hi1, hs1, rfl⟩
    dsimp only at htest hi1 ⊢
    have hF1 := hF.same hs1 hi1.scopes.le
    refine (scopedBody_yields hF1.scopeId_notMem (hb.laid hF1.push)).bind ?_
    rintro ⟨bodyScope, body⟩ s2 _ ⟨d, hbody, hi2, hs2, rfl⟩
    dsimp only at hbody hi2 ⊢
    have hF2 := hF1.same hs2 hi2.scopes.le
    refine .ofExcept fun e he => ?_
    obtain ⟨hcond, hbd, hup⟩ := switchCase_eq_ok he
    refine (ih hF2 fun c hc' => hc c (List.mem_cons_of_mem _ hc')).bind ?_
    rintro cs s3 _ ⟨rfl, hcs⟩
    refine .pure ⟨rfl, .cons ⟨?_, ⟨d, ?_⟩, ?_, hup⟩ ?_ (hs1.trans hs2) hcs⟩
    · simpa [hcond] using htest
    · simpa [hbd] using hbody
    · simp [hbd]
    · simpa [hcond, hbd] using hi1.append hi2

/-- The variable that a switch returns, if there is one. Its setup registers it to the scope that
was innermost when it was generated. -/
inductive Returned (π : Policy) (V : List String) (s : State) :
    Option GuardCode → Option (ChainVariable Instr) → State → Prop where
  | none : Returned π V s none none s
  | some {r v U k value l s1 s'} (hx : Introduces π V r.name) (hU : Reads π U V)
      (hname : v.name = r.name)
      (hsetup : v.setup = declaring none r.name r.type k ++ l ++ initialising none r.name value)
      (hy : Yields π U [] k s l s1 [value] []) (hd : s1.declare r.name r.type false = .ok s') :
      Returned π V s (some r) (some v) s'

theorem genReturning_yields (hr : GuardYields π setting V returning) :
    (genReturning returning).Ensures setting s fun v s' l =>
      l = [] ∧ Returned π V s returning v s' := by
  unfold genReturning
  cases returning with
  | none => exact .pure ⟨rfl, .none⟩
  | some r =>
    obtain ⟨hx, U, hU, hc⟩ := hr r rfl
    refine .currentScope fun k hk => .captured ((genBind_emits hc hk).mono ?_)
    rintro _ s1 _ ⟨l1, v, rfl, hy⟩
    exact .declare fun s2 hd => .pure ⟨rfl, .some hx hU rfl rfl hy hd⟩

namespace Returned

variable {returning : Option GuardCode} {v : Option (ChainVariable Instr)}

theorem issued (h : Returned π V s returning v s') : Issued s (setupOf v) s' := by
  cases h with
  | none => exact .nil _
  | some _ _ _ hsetup hy hd =>
    simp only [setupOf, Option.map_some, Option.getD_some]
    rw [hsetup]
    exact hy.issued_bind.declare hd

theorem kept (h : Returned π V s returning v s') : Kept s s' := by
  cases h with
  | none => exact .refl _
  | some _ _ _ _ hy hd => exact hy.same.kept.trans (kept_declare hd)

variable {W : List String}

/-- Generating the variable leaves what was visible before as it is. -/
theorem fits (h : Returned π V s returning v s') (hF : Fits π W s Γ) (hW : W ⊆ V) :
    Fits π W s' Γ := by
  cases h with
  | none => exact hF
  | some hx _ _ _ hy hd => exact (hF.yields hy).declare (fun hs hm => (hx.1 hs).1 (hW hm)) hd

/-- The setup runs in a later context, where the scope is still open. It registers temporaries and
the variable there. -/
theorem emits {s2 : State} {Γ1 : Context} (h : Returned π V s returning v s')
    (hk : s.currentScope = .ok k) (hF : Fits π V s2 Γ1) (hin : k ∈ Γ1.reach) :
    ∃ ts Γ2, Emits π Γ1 false (setupOf v) Γ2 ∧ (∀ t ∈ ts, IsTemp t) ∧
      Γ2.frames = Context.ownAll k (ts ++ guardName returning) Γ1.frames ∧
      (∀ w ∈ v, w.name ∈ Γ2.owned) ∧ Γ1.names ⊆ Γ2.names ∧ Fits π (V ++ guardName returning) s2 Γ2 := by
  cases h with
  | none =>
    exact ⟨[], Γ1, .nil, by simp, rfl, by simp, List.Subset.refl _, by simpa [guardName] using hF⟩
  | @some r v U k' value l s1 _ hx hU hname hsetup hy hd =>
    obtain rfl : k' = k := Except.ok.inj (hy.scope.symm.trans hk)
    obtain ⟨Γ2, hc, hr, -⟩ := hy.code (Γ1.own k' r.name) Γ1.names (by simpa using hin)
      (hF.readable hU) (by simp)
    obtain ⟨ts, hts, hframes⟩ := hc.exists_ownAll
    refine ⟨ts, Γ2, ?_, hts, ?_, ?_, List.Subset.trans Context.names_own_subset hc.names_subset, ?_⟩
    · simp only [setupOf, Option.map_some, Option.getD_some]
      rw [hsetup]
      exact .bind (hF.declarable hx) hin (List.Subset.refl _) hc (hr value (by simp))
        (hy.isTemp value (by simp))
    · rw [hframes, Context.ownAll_append]
      rfl
    · intro w hw
      cases hw
      rw [hname]
      exact hc.owned_subset (Context.mem_owned_own (Context.mem_ids_of_reach hin))
    · exact (hF.own (Context.mem_ids_of_reach hin) fun hs => (hx.1 hs).2).compute hc

/-- Around the switch, the scope has got the variable and temporaries. -/
theorem fits_around {ts : List String} (h : Returned π V s returning v s') (hF : Fits π W s' Γ)
    (hk : k ∈ Γ.ids) (hts : ∀ t ∈ ts, IsTemp t) :
    Fits π (W ++ guardName returning) s'
      { Γ with frames := Context.ownAll k (ts ++ guardName returning) Γ.frames } := by
  rw [Context.ownAll_append]
  cases h with
  | none => simpa [guardName, Context.ownAll] using hF.ownTemps (k := k) hts
  | some hx => exact (hF.own hk fun hs => (hx.1 hs).2).ownTemps hts

end Returned

/-- Code in a fresh scope leaves it innermost, and names registered to an outer scope do not show
in it. -/
theorem Laid.tail_ownAll
    (h : Laid π (Γ.push s.scopeId.1) s.inside d l s' Γ1)
    (hF : Fits π V s Γ) (hk : k ∈ Γ.ids) :
    (Context.ownAll k xs Γ1.frames).tail = Context.ownAll k xs Γ.frames := by
  have hids := h.code.alike.ids
  have hne : s.scopeId.1 ≠ k := by
    rintro rfl
    exact hF.scopeId_notMem hk
  cases hf : Γ1.frames with
  | nil => simp [Context.ids, hf, Context.push] at hids
  | cons f outer =>
    have hid : f.id = s.scopeId.1 := by
      simpa [Context.ids, hf, Context.push] using congrArg List.head? hids
    have htail : outer = Γ.frames := by
      have := h.outer
      rwa [hf] at this
    rw [Context.ownAll_of_ne (by rwa [hid]), htail, List.tail_cons]

/-- Below a guard, names registered to an open scope show as they are. -/
theorem Guarding.below_ownAll (h : Guarding π V Γ s guard guards s' Γ1) (hF : Fits π V s Γ)
    (hk : k ∈ Γ.ids) :
    belowGuard guards (Context.ownAll k xs Γ1.frames) = Context.ownAll k xs Γ.frames := by
  cases h with
  | none => rfl
  | some _ hlaid => exact hlaid.tail_ownAll hF hk

theorem Context.reach_push (h : Γ.floor ≤ Γ.frames.length) :
    (Γ.push k).reach = k :: Γ.reach := by
  unfold Context.reach
  have : (Γ.push k).frames.length - (Γ.push k).floor = Γ.frames.length - Γ.floor + 1 := by
    simp only [Context.push, List.length_cons]
    omega
  rw [this, Context.ids_push, List.take_succ_cons]

/-- Inside a guard, the scopes a throw would leave are still to be left. -/
theorem Guarding.reach (h : Guarding π V Γ s guard guards s' Γ1) (hF : Fits π V s Γ)
    (hk : k ∈ Γ.reach) : k ∈ Γ1.reach := by
  cases h with
  | none => exact hk
  | some _ hlaid =>
    rw [hlaid.code.alike.reach, Context.reach_push (Nat.le_of_lt hF.inside)]
    exact List.mem_cons_of_mem _ hk

/-- The names of a plain chain with its guard, when the variable it returns was generated first. -/
theorem Issued.placed_returning (hp : Plain c)
    (h : Issued s (setupOf c.returning ++ ((guardCode guards ++
      [Layout.entering c.scope] ++ setupOf c.subject) ++
        (caseCode c.cases ++ bodyCode c.fallback))) s') :
    Issued s (c.placed guards location) s' := by
  refine Issued.placed ((Issued.of_perm h ?_ ?_))
  · have : binds (guardCode guards ++ ([Layout.entering c.scope] ++ [Instr.chained location c])) =
        binds (guardCode guards ++ [Layout.entering c.scope] ++ setupOf c.subject) ++
          (binds (setupOf c.returning) ++ binds (caseCode c.cases ++ bodyCode c.fallback)) := by
      rw [binds_append, binds_append, hp.binds_eq]
      simp only [Plain.code, binds_append, List.append_assoc]
    rw [this, binds_append, binds_append]
    exact List.perm_append_comm_assoc _ _ _
  · have : enters (guardCode guards ++ ([Layout.entering c.scope] ++ [Instr.chained location c])) =
        enters (guardCode guards ++ [Layout.entering c.scope] ++ setupOf c.subject) ++
          (enters (setupOf c.returning) ++ enters (caseCode c.cases ++ bodyCode c.fallback)) := by
      rw [enters_append, enters_append, hp.enters_eq]
      simp only [Plain.code, enters_append, List.append_assoc]
    rw [this, enters_append, enters_append]
    exact List.perm_append_comm_assoc _ _ _

/-- The end of a switch, when its cases have been generated. -/
theorem closeSwitch_yields {dispatch : Option EnumDispatch} {name : String} {setup : List Instr}
    {v : Option (ChainVariable Instr)} {cases : List (Case Instr)} {Γ2 Γ3 : Context}
    (hkind : kind = .switch ∨ kind = .switchEnum) (hF : Fits π V s Γ)
    (hk : s.currentScope = .ok k) (hret : Returned π (V ++ guardName guard) s returning v s1)
    (hguard : Guarding π V Γ s1 guard guards s2 Γ1)
    (hsub : Laid π (Γ1.push s2.scopeId.1) s2.inside false setup s3 Γ2)
    (hcode : Emits π Γ2 false (setupOf v) Γ3) (hts : ∀ t ∈ ts, IsTemp t)
    (hframes : Γ3.frames = Context.ownAll k (ts ++ guardName returning) Γ2.frames)
    (hname : ∀ w ∈ v, w.name ∈ Γ3.owned)
    (hF3 : Fits π (V ++ guardName guard ++ guardName returning) s4 Γ3)
    (hcases : CasesLaid π Γ3 s3 cases s4)
    (ho : ∀ b ∈ otherwise, BlockYields π setting (V ++ guardName guard ++ guardName returning) b) :
    (genFallback otherwise >>= fun fallback => Gen.exitScope s2.scopeId.1 >>= fun _ =>
      closeGuard? guards >>= fun _ =>
      Gen.ofExcept (Chain.validate
        { kind, scope := s2.scopeId.1, subject := some { name, type, setup }, returning := v,
          cases, fallback, dispatch }) >>= fun c =>
      Gen.emitAll (c.place guards location)).Ensures setting s4 fun _ s' l =>
        ∃ Γ', Laid π Γ s false l s' Γ' ∧ Fits π (V ++ guardName returning) s' Γ' := by
  have hkΓ : k ∈ Γ.ids := Context.mem_ids_of_reach (hF.current hk).2
  have hF1 := hret.fits hF (List.subset_append_left _ _)
  refine (genFallback_yields hF3 ho).bind ?_
  rintro fallback s5 _ ⟨rfl, hfall, hi5, hs5⟩
  refine .exitScope fun s6 hx6 => ?_
  have hs6 := (hsub.kept.trans (hcases.same.trans hs5).kept).exit hx6
  generalize hc : ({ kind, scope := s2.scopeId.1, subject := some { name, type, setup },
                     returning := v, cases, fallback, dispatch } : Chain Instr) = c
  have hplain : Plain c := by
    rw [← hc]
    exact ⟨rfl, rfl, rfl⟩
  have hscope : c.scope = s2.scopeId.1 := by rw [← hc]
  have hchain : Emits π (Γ1.push s2.scopeId.1) false [chained location c] (Γ3.settle π) := by
    refine emits_branch Γ2 ?_ ?_ hplain ?_ ?_ ?_ ?_ ?_
    all_goals rw [← hc]
    · rcases hkind with rfl | rfl <;> simp
    · rcases hkind with rfl | rfl <;> rfl
    · exact hsub.code
    · exact hcode
    · exact fun w hw => hname w hw
    · exact hcases.laid
    · exact hfall
  have hF2 := hguard.fits hF1
  have hscoped := Emits.scope hF2.scopeId_notMem hchain
  rw [Context.frames_settle, ← hscope] at hscoped
  refine (hguard.close hF1 hscoped hs6).bind ?_
  rintro _ s7 _ ⟨rfl, hs7, hids, htemps, hall⟩
  refine .check Chain.validate_eq_ok (.lastAll Chain.place_eq_ok ?_)
  have hi : Issued s (c.placed guards location) s5 := by
    refine Issued.placed_returning hplain ?_
    rw [hscope, ← hc]
    exact hret.issued.append (((hguard.issued.append (.entering s2)).append hsub.issued).append
      (hcases.issued.append hi5))
  have hcounters := (hi.exit hx6).of_counters htemps hids
  have hk1 : k ∈ Γ1.ids := Context.mem_ids_of_reach (hguard.reach hF1 (hF.current hk).2)
  have hbelow : belowGuard guards Γ3.frames.tail
      = Context.ownAll k (ts ++ guardName returning) Γ.frames := by
    rw [hframes, hsub.tail_ownAll hF2 hk1, hguard.below_ownAll hF1 hkΓ]
  rw [hbelow] at hall
  have hle : s1.scopeIds ≤ s7.scopeIds := by
    rw [hids, exitScope_eq hx6]
    have h1 := hguard.issued.scopes.le
    have h2 := hsub.issued.scopes.le
    have h3 := hcases.issued.scopes.le
    have h4 := hi5.scopes.le
    simp only [State.scopeId, State.enterScope] at h2 ⊢
    omega
  refine ⟨_, ⟨hall, ?_, hcounters, hret.kept.trans hs7.kept⟩, ?_⟩
  · rw [Context.frames_settle]
    exact Context.tail_ownAll (hF.current hk).1
  · exact ((hret.fits_around hF1 hkΓ hts).same hs7 hle).settle

theorem genSwitch_yields {subject : Code} (hg : GuardYields π setting V guard)
    (hU : Reads π U (V ++ guardName guard)) (hsub : CodeYields π setting U subject)
    (hr : GuardYields π setting (V ++ guardName guard) returning) (hc : ∀ c ∈ cases,
      SwitchCaseYields π setting (V ++ guardName guard ++ guardName returning) c)
    (ho : ∀ b ∈ otherwise, BlockYields π setting (V ++ guardName guard ++ guardName returning) b) :
    StmtYields π setting V (guardName returning) false
      (genSwitch location guard subject cases otherwise returning) := by
  intro s Γ hF
  obtain ⟨k, hk, hhead, hreach⟩ := hF.exists_current
  unfold genSwitch
  refine (genReturning_yields hr).bind ?_
  rintro v s1 _ ⟨rfl, hret⟩
  have hF1 := hret.fits hF (List.subset_append_left _ _)
  refine (openGuard?_yields hF1 hg).bind ?_
  rintro guards s2 _ ⟨rfl, Γ1, hguard⟩
  have hF2 := hguard.fits hF1
  have hks : s2.inside.currentScope = .ok s2.scopeId.1 := rfl
  refine .scopeId (.enterScope (.captured ((value_yields hks π U [] hsub).mono ?_)))
  intro name s3 setup hy
  -- the subject is evaluated in the scope of the chain
  obtain ⟨Γ2, hcalc, htail, hF3, hnear, -⟩ := hF2.push.calc_of_yields hU hy
  have hlaid : Laid π (Γ1.push s2.scopeId.1) s2.inside false setup s3 Γ2 := .compute hcalc htail hy
  have hin : k ∈ Γ2.reach := by
    rw [hcalc.alike.reach, Context.reach_push (Nat.le_of_lt hF2.inside)]
    exact List.mem_cons_of_mem _ (hguard.reach hF1 hreach)
  obtain ⟨ts, Γ3, hcode, hts, hframes, hown, hnames, hF4⟩ := hret.emits hk hF3 hin
  have hname : name ∈ Γ3.names := hnames (hnear name (by simp)).mem_names
  refine .ofSetting ((genSwitchCases_yields hF4 hname hc).bind ?_)
  rintro chainCases s4 _ ⟨rfl, hcases⟩
  refine .check Chain.start_eq_ok ?_
  have hF5 := hF4.same hcases.same hcases.issued.scopes.le
  dsimp only
  split
  · next enum henum =>
    simp only [henum, Option.isSome_some, if_true]
    refine .ofExcept fun dispatch _ => ensures_bind.2 (.pure ((closeSwitch_yields (.inr rfl) hF hk
      hret hguard hlaid hcode hts hframes hown hF5 hcases ho).mono ?_))
    exact fun _ _ _ h => h.imp fun _ h => ⟨h.1, fun _ => h.2⟩
  · next henum =>
    simp only [henum, Option.isSome_none, Bool.false_eq_true, if_false]
    refine ensures_bind.2 (.pure ((closeSwitch_yields (.inl rfl) hF hk hret hguard hlaid hcode hts
      hframes hown hF5 hcases ho).mono ?_))
    exact fun _ _ _ h => h.imp fun _ h => ⟨h.1, fun _ => h.2⟩

end ScopedIR.Layout
