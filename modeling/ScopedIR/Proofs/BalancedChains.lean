import ScopedIR.Proofs.BalancedRuns

/-!
# Scopes and chains keep the balance

A scope drops what it holds when it is left, and nothing else. A test leaves the state as it was,
but for its temporaries. The cases of a chain start from the same context, a loop comes back to the
context it started from, and a try chain takes over an exception with the reference it holds, or
passes it on.

Main statement: `Emits.sound`, that the code of statements does what the layout says.
-/

namespace ScopedIR.Layout

open Exec Instr

variable {σ : Type}

section

variable {π : Policy} {cfg : Config σ} {rounds : Nat} {strict inner inside d : Bool}
  {Γ Γ1 Γ2 : Context} {m m1 : Machine σ} {held held1 : List ObjectId} {t x k : String}
  {location : Option Location} {l r : List Instr} {post : Control → Machine σ → Prop}

/-! ### Scopes -/

/-- The state in which the code of a new scope starts. -/
def entered (k : String) (m : Machine σ) : Machine σ :=
  { m with scopes := { id := k } :: m.scopes }

theorem Inv.push (h : Inv π Γ m held) (k : String) : Inv π (Γ.push k) (entered k m) held :=
  { h with
    nodup := h.nodup
    bound := h.bound
    counts := h.counts
    caller := h.caller
    frames := .cons ⟨rfl, List.nil_subset _⟩ h.frames
    owned := h.owned }

theorem Fresh.push (h : Fresh Γ (scoping k d l) m) : Fresh (Γ.push k) l (entered k m) := by
  obtain ⟨hnd, htemp, hap, hsh⟩ := h
  rw [binds_scoping] at hnd htemp hap hsh
  exact ⟨hnd, htemp, hap, hsh⟩

variable {E : Fault → Prop} {m2 : Machine σ} {c : Chain Instr} {dep : Case Instr → Bool}
  {out : Case Instr → Context} {outF : Context} {last : Option (FinallyBlock Instr)} {e : Binding}
  {exc type : String}

/-- Code in a new scope, which is left where control goes on. -/
theorem leads_scoping {Q : Control → Machine σ → Prop} (hm : cfg.memory = .arc)
    (hbody : LeadsAll π cfg rounds strict inner inside l (entered k (ticked m)) Q)
    (hnext : ∀ m1, Q .next m1 → d = false ∧
      Leads (Allowed π cfg) (exitScope k) (ticked m1) fun _ m2 => post .next m2)
    (hleft : ∀ c m1, c ≠ .next → Q c m1 → post c m1) :
    LeadsAll π cfg rounds strict inner inside (scoping k d l) m post := by
  rw [scoping, List.append_assoc, leadsAll_append]
  refine leadsAll_single ?_
  rw [entering, leads_scopeEnter hm]
  change LeadsAll _ _ _ _ _ _ (l ++ _) _ _
  rw [leadsAll_append]
  refine hbody.through (fun m1 h1 => ?_) hleft
  obtain ⟨rfl, hexit⟩ := hnext m1 h1
  rw [if_neg Bool.false_ne_true]
  refine leadsAll_single ?_
  rw [exiting, leads_scopeExit hm]
  exact hexit

theorem Registers.tail {frames : List Frame} {scopes : List OpenScope} (h : Registers frames scopes) :
    Registers frames.tail scopes.tail := by
  cases h with
  | nil => exact .nil
  | cons _ h => exact h

/-- What is left of a context and a state when the innermost scope is gone. -/
theorem Inv.popped (h : Inv π Γ m held) (h1 : Inv π Γ1 m1 held1) {held2 : List ObjectId}
    (hB : Balanced π.held Γ.params m2 held2) (hs : m2.scopes = m1.scopes.tail) :
    Inv π ({ Γ with frames := Γ1.frames.tail }.settle π) m2 held2 := by
  have hI : Inv π { Γ.forget with frames := Γ1.frames.tail } m2 held2 :=
    { hB with
      frames := hs ▸ h1.frames.tail
      owned := by
        intro x hx
        -- a name is registered once, so one of an outer scope is not a name of the innermost frame
        have hframes := h1.frames
        have hnd := h1.nodup
        have howned := h1.owned x
        unfold Registers at hframes
        unfold Machine.registered at hx hnd howned
        unfold Context.owned at howned ⊢
        rw [hs] at hx
        generalize Γ1.frames = frames at hframes howned ⊢
        generalize m1.scopes = scopes at hframes howned hnd hx
        cases hframes with
        | nil => cases hx
        | cons hf _ =>
          rw [List.flatMap_cons] at hnd howned
          rcases howned (List.mem_append_right _ hx) with h | h
          · exact .inl h
          · rcases List.mem_append.1 h with h | h
            · exact absurd rfl ((List.nodup_append.1 hnd).2.2 x (hf.2 h) x hx)
            · exact .inr h
      aliases := fun _ s hs => by cases hs
      temps := h.forget.temps
      undotted := h.undotted }
  unfold Context.settle
  split
  · exact hI
  · next hh => exact { hI with aliases := fun h => absurd h hh, temps := h.temps }

/-- A mark in the outer scopes stands where it stood before the new scope. -/
theorem drop_push {n : Nat} {s : OpenScope} {outer : List OpenScope} (hn : n ≤ Γ.frames.length) :
    (s :: outer).drop ((Γ.push k).frames.length - n) = outer.drop (Γ.frames.length - n) := by
  have hlength : (Γ.push k).frames.length - n = (Γ.frames.length - n) + 1 := by
    change Γ.frames.length + 1 - n = _
    omega
  rw [hlength, List.drop_succ_cons]

/-- Control that left the code of a new scope has left the scope. -/
theorem After.outward {c : Control} {d' : Bool} (ho : Γ.Ordered) (hc : c ≠ .next)
    (h : After π strict inside (Γ.push k) d l Γ1 (entered k m) held c m1) :
    After π strict inside Γ d' r Γ2 m held c m1 := by
  obtain ⟨lost, hlost, h⟩ := h
  refine ⟨lost, hlost, ?_⟩
  cases c with
  | next => exact absurd rfl hc
  | throw e =>
    obtain ⟨hs, ⟨extra, he⟩, hB⟩ := h
    refine ⟨hs, ⟨extra, ?_⟩, hB⟩
    rw [he]
    exact congrArg _ (drop_push (Nat.le_trans ho.boundary ho.floor))
  | ret v | jump _ => exact h

/-- Code in a new scope, started with whatever is held. -/
theorem Inv.leads_scoped (hs : Serves π cfg) (ho : Γ.Ordered) (hI : Inv π Γ m held1)
    (ha : (Γ.push k).Alike Γ1)
    (h : LeadsAll π cfg rounds strict inner inside l
      (entered k (ticked m)) (After π strict inside (Γ.push k) d l Γ1 (entered k (ticked m)) held)) :
    LeadsAll π cfg rounds strict inner inside (scoping k d l) m
      (After π strict inside Γ d (scoping k d l) ({ Γ with frames := Γ1.frames.tail }.settle π) m
        held) := by
  refine leads_scoping hs.arc h (fun m1 h1 => ?_)
    fun c m1 hc h1 => h1.outward (m := ticked m) ho hc
  obtain ⟨lost, hlost, hd, hI1, hbelow, hnew⟩ := h1
  refine ⟨hd, ?_⟩
  have hids : m1.scopes.map (·.id) = k :: Γ.ids := hI1.frames.map_id.trans ha.ids
  cases hscopes : m1.scopes with
  | nil =>
    rw [hscopes] at hids
    cases hids
  | cons s outer =>
    rw [hscopes, List.map_cons] at hids
    obtain ⟨rfl, -⟩ := List.cons.inj hids
    refine hI1.tick.toBalanced.leads_exitScope hscopes fun heap hbal _ => ?_
    rw [ha.params] at hbal
    refine ⟨lost, hlost, hd, hI.popped hI1 hbal (by rw [hscopes]; rfl), ?_, ?_⟩
    · rw [hscopes] at hbelow
      exact (drop_push ho.floor).symm.trans (hbelow.trans (drop_push ho.floor))
    · intro t ht htemp
      rw [binds_scoping]
      refine hnew t ?_ htemp
      rw [Machine.registered, hscopes, List.flatMap_cons]
      exact List.mem_append_right _ ht

theorem Context.Ordered.push (ho : Γ.Ordered) : (Γ.push k).Ordered :=
  ⟨ho.boundary, Nat.le_succ_of_le ho.floor⟩

theorem Context.Ordered.fence (ho : Γ.Ordered) : Γ.fence.Ordered :=
  ⟨Nat.le_trans ho.boundary ho.floor, Nat.le_refl _⟩

theorem Context.ordered_protect {b : Bool} : (Γ.protect b).Ordered := ⟨Nat.le_refl _, Nat.le_refl _⟩

theorem Context.ordered_lastly : Γ.lastly.Ordered := ⟨Nat.le_refl _, Nat.le_refl _⟩

theorem sound_scope (hs : Serves π cfg) (ho : Γ.Ordered) (ha : (Γ.push k).Alike Γ1)
    (h : Sound π cfg rounds strict inside (Γ.push k) d l Γ1) :
    Sound π cfg rounds strict inside Γ d (scoping k d l)
      ({ Γ with frames := Γ1.frames.tail }.settle π) := by
  intro inner m held hI hF
  exact hI.leads_scoped hs ho ha
    (h inner _ held (hI.tick.push k) hF.tick.push)

/-! ### Tests -/

/-- Where scopes may be registered to does not matter to an expression, as long as its own is one of
them. -/
theorem Calc.refloor {B : List String} (n : Nat) (h : Calc π B k Γ l Γ1)
    (hk : k ∈ ({ Γ with floor := n } : Context).reach) :
    Calc π B k { Γ with floor := n } l { Γ1 with floor := n } := by
  have hnext : ∀ {Γ Γ1 : Context} {l : List Instr}, Calc π B k Γ l Γ1 →
      k ∈ ({ Γ with floor := n } : Context).reach →
      k ∈ ({ Γ1 with floor := n } : Context).reach := by
    intro Γ Γ1 l h hk
    have ha := h.alike
    have : Context.Alike { Γ with floor := n } { Γ1 with floor := n } :=
      ⟨ha.ids, ha.params, ha.boundary, rfl, ha.mayReturn, ha.mayThrow⟩
    rwa [this.reach]
  induction h with
  | nil => exact .nil
  | append h _ ih ih' => exact .append (ih hk) (ih' (hnext h hk))
  | create ht _ ho => exact .create ht hk ho
  | load ht hx => exact .load ht hx
  | loadField ht hx => exact .loadField ht hx
  | call ht _ ho hr htarget hargs => exact .call ht hk ho hr htarget hargs
  | perform ho hr htarget hargs => exact .perform ho hr htarget hargs
  | test ht hr htarget hargs => exact .test ht hr htarget hargs
  | isSet ht hn hx _ hf _ hv ih ih' => exact .isSet ht hn hx (ih hk) hf (ih' hk) hv
  | logical ht h hl hc h' _ hr ih ih' ih'' =>
    exact .logical ht (ih hk) hl hc (ih' (hnext h hk)) (ih'' (hnext h' (hnext h hk))) hr

/-- A test leaves the scopes as they were, and what stood for an object stands for it still. -/
theorem Inv.leads_test {p : String} (rounds : Nat) (strict inner inside : Bool) (hs : Serves π cfg)
    (hn : π.named) (ho : Γ.Ordered) (ht : Test π Γ l p) (hI : Inv π Γ m held) (hF : Fresh Γ l m) :
    LeadsAll π cfg rounds strict inner inside l m fun c m1 =>
      After π strict inside Γ false l Γ m held c m1 ∧
        (c = .next → IsTemp p ∧ m1.scopes = m.scopes) := by
  obtain @⟨k, p, B, l, Γ1, hk, hB, hc, hp⟩ := ht
  have hone : (Γ.fence.push k).frames.length - (Γ.fence.push k).floor = 1 :=
    Nat.add_sub_cancel_left ..
  have hreach : k ∈ (Γ.fence.push k).reach := by
    rw [Context.reach, hone]
    exact List.mem_cons_self
  have hc' : Calc π B k (Γ.fence.push k) l { Γ1 with floor := Γ.frames.length } :=
    hc.refloor Γ.frames.length hreach
  have ho' := ho.fence
  have hF' := hF.tick.push
  have hI' : Inv π (Γ.fence.push k) (entered k (ticked m)) held := (show Inv π Γ.fence (ticked m) held
    from { hI with }).push k
  have hsound : Sound π cfg rounds strict inside _ false l _ :=
    hc'.sound hs hn ho'.push (List.Subset.trans hB (List.Subset.refl _))
  have hrun := hsound inner _ held hI' { hF' with }
  refine leads_scoping hs.arc
    (hrun.and (hc.leads_frame cfg rounds strict inner inside _)) (fun m1 h1 => ?_)
    fun c m1 hc h1 => ⟨?_, fun h => absurd h hc⟩
  · obtain ⟨⟨lost, hlost, -, hI1, hbelow, hnew⟩, hframe⟩ := h1
    refine ⟨rfl, ?_⟩
    have hids : m1.scopes.map (·.id) = k :: Γ.ids := hI1.frames.map_id.trans hc.alike.ids
    cases hscopes : m1.scopes with
    | nil =>
      rw [hscopes] at hids
      cases hids
    | cons s outer =>
      rw [hscopes, List.map_cons] at hids
      obtain ⟨rfl, -⟩ := List.cons.inj hids
      have houter : outer = m.scopes := by
        rw [hone, hscopes] at hbelow
        exact hbelow
      refine hI1.tick.toBalanced.leads_exitScope hscopes fun heap hbal _ => ?_
      rw [hc'.alike.params] at hbal
      have hregistered : ({ ticked m1 with scopes := outer, heap } : Machine σ).registered =
          m.registered := registered_eq houter
      -- the names that hold the object of an alias are not among the temporaries of the test
      have hkept : ∀ y ∈ m.registered ++ Γ.params, m1.vars.get? y = m.vars.get? y := by
        intro y hy
        refine hframe y fun hmem => ?_
        rcases List.mem_append.1 hy with hy | hy
        · exact hF'.apart y hmem hy
        · exact hI.notMem_params (hF'.temp y hmem) hy
      have hI2 : Inv π Γ { ticked m1 with scopes := outer, heap } (lost ++ held) :=
        { hbal with
          frames := houter ▸ hI.frames
          owned := by
            rw [hregistered]
            exact hI.owned
          aliases := by
            intro hh s hs c hc
            change m1.vars.get? s = some c at hc
            change c.objects ⊆ objectsOf m1.vars (_ ++ Γ.params) ++ (lost ++ held)
            rw [hregistered, objectsOf_congr hkept]
            rw [hframe s fun hmem => hF'.unshared s hmem hs] at hc
            refine List.Subset.trans (hI.aliases hh s hs c hc) ?_
            exact List.append_subset.2 ⟨List.subset_append_left _ _,
              List.subset_append_of_subset_right _ (List.subset_append_right _ _)⟩
          temps := hI.temps
          undotted := hI.undotted }
      refine ⟨⟨lost, hlost, rfl, hI2, by rw [houter], fun t ht _ => .inl ?_⟩, fun _ =>
        ⟨hI1.temps p (.inr hp), houter⟩⟩
      rwa [hregistered] at ht
  · have hout : After π strict inside Γ.fence false l Γ (ticked m) held c m1 := h1.1.outward ho' hc
    exact hout.unfence hc

/-- Control that left a part, started in the same scopes with some references lost, has left the
whole. -/
theorem After.departed {d' : Bool} {c : Control} {lost : List ObjectId}
    (hm : m1.scopes = m.scopes) (hlost : strict = true → lost = []) (hc : c ≠ .next)
    (h : After π strict inside Γ d l Γ1 m1 (lost ++ held) c m2) :
    After π strict inside Γ d' r Γ2 m held c m2 := by
  obtain ⟨lost2, hlost2, h⟩ := h
  refine ⟨lost2 ++ lost, fun hs => by rw [hlost hs, hlost2 hs]; rfl, ?_⟩
  cases c with
  | next => exact absurd rfl hc
  | throw e =>
    obtain ⟨hs, he, hB⟩ := h
    exact ⟨hs, hm ▸ he, by rwa [List.append_assoc]⟩
  | ret v =>
    obtain ⟨hr, he, hB⟩ := h
    exact ⟨hr, he, by rwa [List.append_assoc]⟩
  | jump _ => exact h

/-! ### Conditionals and switches -/

theorem runSetup_map (v : Option (ChainVariable Instr)) (f : Instr → Exec σ Control) :
    runSetup (v.map (·.map f)) = runAll ((setupOf v).map f) := by
  cases v <;> rfl

theorem binds_sublist_of_mem {L : List (List Instr)} (h : l ∈ L) :
    (binds l).Sublist (binds L.flatten) := by
  induction L with
  | nil => cases h
  | cons a L ih =>
    rw [List.flatten_cons, binds_append]
    rcases List.mem_cons.1 h with rfl | h
    · exact List.sublist_append_left _ _
    · exact (ih h).trans (List.sublist_append_right _ _)

theorem binds_sublist_of_case {cases : List (Case Instr)} {e : Case Instr} (he : e ∈ cases)
    (hl : l ∈ e.lists) : (binds l).Sublist (binds (caseCode cases)) :=
  binds_sublist_of_mem (List.mem_flatMap.2 ⟨e, he, hl⟩)

/-- The end of a chain that has no result of its own. -/
theorem leads_finish {f : Instr → Exec σ Control} (hc : c.result = none)
    (hv : ∀ v, c.returning = some v → ∃ b, m.vars.get? v.name = some b) (h : post .next m) :
    Leads E (finishChain (chained location c) (c.returning.map (·.map f)) none) m post := by
  have hbound : ∀ b, bound m (chained location c).result b = m := by
    intro b
    change bound m c.result b = m
    rw [hc]
    rfl
  cases hr : c.returning with
  | none =>
    rw [Option.map_none, leads_finishChain_none, hbound]
    exact h
  | some v =>
    obtain ⟨b, hb⟩ := hv v hr
    rw [Option.map_some, leads_finishChain_returning]
    refine gives_bound hb ?_
    rw [hbound]
    exact h

/-- What a case leaves behind is forgotten, apart from the frames it started from. -/
theorem After.settle (hI : Inv π Γ2 m1 held1) (hf : Γ1.frames = Γ2.frames)
    (hp : Γ1.params = Γ2.params) (hb : binds l ⊆ binds r)
    (h : After π strict inside Γ d l Γ1 m held .next m2) :
    After π strict inside Γ false r (Γ2.settle π) m held .next m2 := by
  obtain ⟨lost, hlost, -, hI1, hbelow, hnew⟩ := h
  have hparams : (Γ2.settle π).params = Γ2.params := Context.Alike.settle.params
  refine ⟨lost, hlost, rfl, ?_, hbelow, fun t ht htemp => (hnew t ht htemp).imp_right fun h => hb h⟩
  exact hI.settle.back hI1 (hf.trans Context.frames_settle.symm) (hp.trans hparams.symm)
    fun hh => Context.aliases_settle hh

theorem sound_branch {depF : Bool} (hs : Serves π cfg) (hn : π.named) (ho : Γ.Ordered)
    (ht : c.kind ≠ .tryCatchFinally) (hl : c.kind.isLoop = false) (hp : Plain c)
    (hsub : Emits π Γ false (setupOf c.subject) Γ1)
    (hret : Emits π Γ1 false (setupOf c.returning) Γ2)
    (hname : ∀ v, c.returning = some v → v.name ∈ Γ2.owned)
    (htest : ∀ e ∈ c.cases, Test π Γ2 e.condition.evaluation e.condition.primitive)
    (hbody : ∀ e ∈ c.cases, Emits π Γ2 (dep e) e.body.evaluation (out e))
    (hout : ∀ e ∈ c.cases, (out e).frames = Γ2.frames ∧ e.body.result = none ∧ e.updates = [])
    (hfall : ∀ b, c.fallback = some b → Emits π Γ2 depF b.evaluation outF)
    (houtF : ∀ b, c.fallback = some b → outF.frames = Γ2.frames ∧ b.result = none)
    (ihsub : Sound π cfg rounds strict inside Γ false (setupOf c.subject) Γ1)
    (ihret : Sound π cfg rounds strict inside Γ1 false (setupOf c.returning) Γ2)
    (ihbody : ∀ e ∈ c.cases, Sound π cfg rounds strict inside Γ2 (dep e) e.body.evaluation (out e))
    (ihfall : ∀ b, c.fallback = some b →
      Sound π cfg rounds strict inside Γ2 depF b.evaluation outF) :
    Sound π cfg rounds strict inside Γ false [chained location c] (Γ2.settle π) := by
  intro inner m held hI hF
  have hcode : Fresh Γ ((setupOf c.subject ++ setupOf c.returning) ++
      (caseCode c.cases ++ bodyCode c.fallback)) m := by
    refine hF.sublist ?_
    rw [hp.binds_eq, Plain.code, List.append_assoc (setupOf c.subject ++ setupOf c.returning)]
  have hsetup : Emits π Γ false (setupOf c.subject ++ setupOf c.returning) Γ2 := .append hsub hret
  have ha2 := hsetup.alike
  -- before every test and every body, the variables of the chain are set up
  let J : Machine σ → Prop := After π strict inside Γ false
    (setupOf c.subject ++ setupOf c.returning) Γ2 m held .next
  have hfresh : ∀ {l : List Instr} {m2 : Machine σ}, J m2 →
      (binds l).Sublist (binds (caseCode c.cases ++ bodyCode c.fallback)) → Fresh Γ2 l m2 := by
    intro l m2 hJ hsub
    obtain ⟨_, -, -, -, -, hnew⟩ := hJ
    exact (hcode.right hnew fun s hs => hsetup.mem_aliases hs).sublist hsub
  have hall : ∀ {l : List Instr}, (binds l).Sublist (binds (caseCode c.cases ++ bodyCode c.fallback)) →
      binds (setupOf c.subject ++ setupOf c.returning ++ l) ⊆ binds [chained location c] := by
    intro l hsub
    rw [hp.binds_eq, Plain.code, List.append_assoc (setupOf c.subject ++ setupOf c.returning),
      binds_append, binds_append _ (caseCode c.cases ++ bodyCode c.fallback)]
    exact ((List.Sublist.refl _).append hsub).subset
  have hbound : ∀ {Γ' : Context} {m2 : Machine σ} {held2 : List ObjectId}, Inv π Γ' m2 held2 →
      Γ'.frames = Γ2.frames → ∀ v, c.returning = some v → ∃ b, m2.vars.get? v.name = some b := by
    intro Γ' m2 held2 hI2 hf v hv
    refine hI2.bound _ (hI2.mem_registered ?_)
    rw [Context.owned, hf]
    exact hname v hv
  -- a body or the default, from the frames that all cases share
  have hpart : ∀ {l : List Instr} {d : Bool} {Γ' : Context}, Emits π Γ2 d l Γ' →
      Sound π cfg rounds strict inside Γ2 d l Γ' → Γ'.frames = Γ2.frames →
      (binds l).Sublist (binds (caseCode c.cases ++ bodyCode c.fallback)) → ∀ m2, J m2 →
      LeadsAll π cfg rounds strict true inside l m2
        fun ctl m3 => Through ctl
          (Leads (Allowed π cfg) (finishChain (chained location c)
            (c.returning.map (·.map (watchedIn cfg rounds strict true inside))) none) m3
            (After π strict inside Γ false [chained location c] (Γ2.settle π) m held))
          (After π strict inside Γ false [chained location c] (Γ2.settle π) m held ctl m3) := by
    intro l d Γ' he hsound hf hsub m2 hJ
    have hfr := hfresh hJ hsub
    obtain ⟨lost, hlost, -, hI2, hbelow, hnew⟩ := hJ
    refine (hsound true m2 _ hI2 hfr).through (fun m3 h3 => ?_) fun ctl m3 hc h3 =>
      (h3.trans ho ha2 hlost hbelow hnew).widen rfl hc
    have hafter := h3.trans ho ha2 hlost hbelow hnew
    refine leads_finish hp.result ?_ (hafter.settle hI2 hf he.alike.params (hall hsub))
    obtain ⟨_, -, -, hI3, -⟩ := h3
    exact hbound hI3 hf
  refine leadsAll_chained ?_
  refine leads_branch (P := After π strict inside Γ false (setupOf c.subject) Γ1 m held .next)
    (J := J) ht hl ?_ ?_ ?_ ?_ ?_ ?_
  · change Leads _ (runSetup (c.subject.map _)) _ _
    rw [runSetup_map]
    refine (ihsub true (ticked m) held hI.tick (hcode.left.left.of_scopes rfl)).through
      (fun m1 h1 => h1) fun ctl m1 hc h1 => h1.widen rfl hc
  · intro m1 h1
    change Leads _ (runSetup (c.returning.map _)) _ _
    rw [runSetup_map]
    obtain ⟨lost, hlost, -, hI1, hbelow, hnew⟩ := h1
    refine (ihret true m1 _ hI1 (hcode.left.right hnew fun s hs => hsub.mem_aliases hs)).through
      (fun m2 h2 => ?_) fun ctl m2 hc h2 => ?_
    · exact h2.trans ho hsub.alike hlost hbelow hnew
    · exact (h2.trans ho hsub.alike hlost hbelow hnew).widen rfl hc
  · intro e' he' m2 hJ
    obtain ⟨e, he, rfl⟩ := List.mem_map.1 he'
    have hfr := hfresh hJ (((binds_sublist_of_case he (l := e.condition.evaluation)
      (by simp [Case.lists])).trans (by rw [binds_append]; exact List.sublist_append_left _ _)))
    obtain ⟨lost, hlost, -, hI2, hbelow, hnew⟩ := hJ
    have hafter := hI2.leads_test rounds strict true inside hs hn (ho.alike ha2) (htest e he) hfr
    refine hafter.through (fun m3 h3 => ?_) fun ctl m3 hc h3 =>
      (h3.1.trans ho ha2 hlost hbelow hnew).widen rfl hc
    obtain ⟨htemp, hscopes⟩ := h3.2 rfl
    obtain ⟨lost3, hlost3, -, hI3, -⟩ := h3.1
    rw [leads_primitive]
    refine gives_lookup htemp.dot_notMem fun b _ => ?_
    cases b with
    | null | object _ => exact Allowed.of_isMemory rfl
    | primitive _ =>
      refine ⟨lost3 ++ lost, fun hs => by rw [hlost hs, hlost3 hs]; rfl, rfl,
        by rwa [List.append_assoc], by rw [hscopes, hbelow], fun t ht htemp => ?_⟩
      rw [registered_eq hscopes] at ht
      exact hnew t ht htemp
  · intro e' he' m2 hJ
    obtain ⟨e, he, rfl⟩ := List.mem_map.1 he'
    obtain ⟨hf, hr, hu⟩ := hout e he
    change Leads _ (andThen (runAll (e.body.evaluation.map _)) (runAll (e.updates.map _))) m2
      fun ctl m3 => Through ctl (Leads _ (finishChain _ (c.returning.map _) e.body.result) m3 _) _
    rw [hu, hr]
    refine leads_andThen_nil (hpart (hbody e he) (ihbody e he) hf ?_ m2 hJ)
    refine (binds_sublist_of_case he (by simp [Case.lists])).trans ?_
    rw [binds_append]
    exact List.sublist_append_left _ _
  · intro b' hb' m2 hJ
    obtain ⟨b, hb, rfl⟩ := Option.map_eq_some_iff.1 hb'
    obtain ⟨hf, hr⟩ := houtF b hb
    change Leads _ (runAll (b.evaluation.map _)) m2
      fun ctl m3 => Through ctl (Leads _ (finishChain _ (c.returning.map _) b.result) m3 _) _
    rw [hr]
    refine hpart (hfall b hb) (ihfall b hb) hf ?_ m2 hJ
    rw [bodyCode, hb, binds_append]
    exact List.sublist_append_right _ _
  · intro _ m2 hJ
    have hafter : After π strict inside Γ false [chained location c] (Γ2.settle π) m held .next m2 := by
      refine hJ.settle hJ.choose_spec.2.2.1 rfl rfl ?_
      have hnil := hall (l := []) (List.nil_sublist _)
      rwa [List.append_nil] at hnil
    exact leads_finish hp.result (hbound hJ.choose_spec.2.2.1 rfl) hafter

/-! ### Loops -/

theorem sound_loop {e : Case Instr} (hs : Serves π cfg) (hn : π.named) (ho : Γ.Ordered)
    (hl : c.kind.isLoop = true) (hp : Plain c) (hsubject : c.subject = none)
    (hreturning : c.returning = none) (hcases : c.cases = [e]) (hfall : c.fallback = none)
    (haliases : π.held → Γ.aliases = [])
    (htest : Test π Γ e.condition.evaluation e.condition.primitive)
    (hbody : Emits π Γ.fence d e.body.evaluation Γ1) (hf1 : Γ1.frames = Γ.frames)
    (hupdates : Emits π Γ.fence false e.updates Γ2) (hf2 : Γ2.frames = Γ.frames)
    (ihbody : Sound π cfg rounds strict inside Γ.fence d e.body.evaluation Γ1)
    (ihupdates : Sound π cfg rounds strict inside Γ.fence false e.updates Γ2) :
    Sound π cfg rounds strict inside Γ false [chained location c] Γ := by
  intro inner m held hI hF
  have hcode : ∀ {l : List Instr}, l ∈ e.lists → Fresh Γ l m := by
    intro l hl
    refine hF.sublist ?_
    have hmem : e ∈ c.cases := by simp [hcases]
    rw [hp.binds_eq, Plain.code, hsubject, hreturning, hfall]
    refine (binds_sublist_of_case hmem hl).trans ?_
    simp [setupOf, bodyCode]
  have hzero : Γ.fence.frames.length - Γ.fence.floor = 0 := Nat.sub_self _
  -- before every round the scopes are those before the loop
  let J : Machine σ → Prop := fun m1 => ∃ lost, (strict = true → lost = []) ∧
    Inv π Γ m1 (lost ++ held) ∧ m1.scopes = m.scopes
  have hround : ∀ {l : List Instr} {d : Bool} {Γ' : Context}, Emits π Γ.fence d l Γ' →
      Sound π cfg rounds strict inside Γ.fence d l Γ' → Γ'.frames = Γ.frames → l ∈ e.lists →
      ∀ m1, J m1 → LeadsAll π cfg rounds strict true inside l m1
        fun ctl m2 => Through ctl (J m2)
          (After π strict inside Γ false [chained location c] Γ m held ctl m2) := by
    intro l d Γ' he hsound hf hmem m1 hJ
    obtain ⟨lost, hlost, hI1, hm1⟩ := hJ
    have hI1' : Inv π Γ.fence m1 (lost ++ held) := { hI1 with }
    have hfr : Fresh Γ.fence l m1 := { (hcode hmem).of_scopes hm1 with }
    refine (hsound true m1 _ hI1' hfr).through (fun m2 h2 => ?_) fun ctl m2 hc h2 => ?_
    · obtain ⟨lost2, hlost2, -, hI2, hbelow, -⟩ := h2
      rw [hzero, List.drop_zero, List.drop_zero] at hbelow
      refine ⟨lost2 ++ lost, fun hs => by rw [hlost hs, hlost2 hs]; rfl, ?_, hbelow.trans hm1⟩
      rw [List.append_assoc]
      exact hI1.back hI2 hf he.alike.params haliases
    · have hleft : After π strict inside Γ false l Γ m1 (lost ++ held) ctl m2 := h2.unfence hc
      exact hleft.departed hm1 hlost hc
  refine leadsAll_chained ?_
  rw [runChain_loop (c := c.mapWith _ _) (e := e.map (watchedIn cfg rounds strict true inside)) hl
    (by simp [Chain.mapWith, Chain.map, hsubject]) (by simp [Chain.mapWith, Chain.map, hreturning])
    (by simp [Chain.mapWith, Chain.map, hcases])]
  refine leads_loop (J := J) (K := J) (fun m1 hJ => ?_) (fun m1 hJ => ?_) ?_
  · obtain ⟨lost, hlost, hI1, hm1⟩ := hJ
    have hfr : Fresh Γ e.condition.evaluation m1 := (hcode (by simp [Case.lists])).of_scopes hm1
    have hafter := hI1.leads_test rounds strict true inside hs hn ho htest hfr
    refine hafter.through (fun m2 h2 => ?_) fun ctl m2 hc h2 => h2.1.departed hm1 hlost hc
    obtain ⟨htemp, hscopes⟩ := h2.2 rfl
    obtain ⟨lost2, hlost2, -, hI2, -⟩ := h2.1
    have hJ2 : J m2 := ⟨lost2 ++ lost, fun hs => by rw [hlost hs, hlost2 hs]; rfl,
      by rwa [List.append_assoc], hscopes.trans hm1⟩
    change Leads _ (primitive e.condition.primitive) m2 _
    rw [leads_primitive]
    refine gives_lookup htemp.dot_notMem fun b _ => ?_
    cases b with
    | null | object _ => exact Allowed.of_isMemory rfl
    | primitive holds =>
      cases holds with
      | true => exact hJ2
      | false =>
        obtain ⟨lost3, hlost3, hI3, hm3⟩ := hJ2
        refine ⟨lost3, hlost3, rfl, hI3, by rw [hm3], fun t ht _ => .inl ?_⟩
        rwa [registered_eq hm3] at ht
  · change Leads _ (andThen (runAll (e.body.evaluation.map _)) (runAll (e.updates.map _))) m1 _
    rw [leads_andThen]
    refine (hround hbody ihbody hf1 (by simp [Case.lists]) m1 hJ).mono fun ctl m2 h2 => ?_
    cases ctl with
    | next => exact hround hupdates ihupdates hf2 (by simp [Case.lists]) m2 h2
    | _ => exact h2
  · have hJ : J (ticked m) := ⟨[], fun _ => rfl, hI.tick, rfl⟩
    split <;> exact hJ

/-! ### Try chains -/

/-- What a try chain waits with for its finally block. -/
def Pended (π : Policy) (strict inside : Bool) (Γ : Context) (last : Option (FinallyBlock Instr))
    (m : Machine σ) (held : List ObjectId) (c : Control) (m' : Machine σ) : Prop :=
  ∃ lost, (strict = true → lost = []) ∧
    match c with
    | .next => Inv π Γ m' (lost ++ held) ∧ m'.scopes = m.scopes
    | .throw e => (strict && inside) = false ∧ m'.scopes = m.scopes ∧
        Balanced π.held Γ.params m' (e.objects ++ (lost ++ held))
    | .ret v => last = none ∧ Γ.mayReturn = true ∧ m'.scopes = [] ∧
        Balanced π.held Γ.params m' ((v.map Binding.objects).getD [] ++ (lost ++ held))
    | .jump _ => False

/-- Nothing waits longer than the chain lasts. -/
theorem Pended.after {c : Control} (h : Pended π strict inside Γ last m held c m1) :
    After π strict inside Γ false l Γ m held c m1 := by
  obtain ⟨lost, hlost, h⟩ := h
  refine ⟨lost, hlost, ?_⟩
  cases c with
  | next =>
    refine ⟨rfl, h.1, by rw [h.2], fun t ht _ => .inl ?_⟩
    rwa [registered_eq h.2] at ht
  | throw e =>
    refine ⟨h.1, ⟨m.scopes.take (Γ.frames.length - Γ.boundary), ?_⟩, h.2.2⟩
    rw [List.take_append_drop, h.2.1]
  | ret v => exact h.2
  | jump _ => exact h

theorem mayReturn_protect {b : Bool} (h : (Γ.protect b).mayReturn = true) :
    b = false ∧ Γ.mayReturn = true := by
  change (Γ.mayReturn && !b) = true at h
  rw [Bool.and_eq_true, Bool.not_eq_true'] at h
  exact ⟨h.2, h.1⟩

/-- The end of a protected part, unless it throws. -/
theorem After.pended (last : Option (FinallyBlock Instr)) (lost : List ObjectId) {c : Control}
    (hI : Inv π Γ m held1) (haliases : π.held → Γ.aliases = []) (hf : Γ1.frames = Γ.frames)
    (hp : Γ1.params = Γ.params) (hm : m1.scopes = m.scopes) (hlost : strict = true → lost = [])
    (hc : ∀ e, c ≠ .throw e)
    (h : After π strict inside (Γ.protect last.isSome) d l Γ1 m1 (lost ++ held) c m2) :
    Pended π strict inside Γ last m held c m2 := by
  obtain ⟨lost2, hlost2, h⟩ := h
  refine ⟨lost2 ++ lost, fun hs => by rw [hlost hs, hlost2 hs]; rfl, ?_⟩
  cases c with
  | next =>
    obtain ⟨-, hI2, hbelow, -⟩ := h
    have hzero : (Γ.protect last.isSome).frames.length - (Γ.protect last.isSome).floor = 0 :=
      Nat.sub_self _
    rw [hzero, List.drop_zero, List.drop_zero] at hbelow
    refine ⟨?_, hbelow.trans hm⟩
    rw [List.append_assoc]
    exact hI.back hI2 hf hp haliases
  | throw e => exact absurd rfl (hc e)
  | ret v =>
    obtain ⟨hr, he, hB⟩ := h
    obtain ⟨hnone, hr⟩ := mayReturn_protect hr
    refine ⟨Option.not_isSome_iff_eq_none.1 (by rw [hnone]; exact Bool.false_ne_true), hr, he, ?_⟩
    rw [List.append_assoc]
    exact hB
  | jump _ => exact h

/-- An exception on its way out of a protected part is unwound to the chain. -/
theorem After.leads_unwind (last : Option (FinallyBlock Instr)) (lost : List ObjectId)
    {post : Unit → Machine σ → Prop} (hm : m1.scopes = m.scopes)
    (hlost : strict = true → lost = [])
    (h : After π strict inside (Γ.protect last.isSome) d l Γ1 m1 (lost ++ held) (.throw e) m2)
    (hpost : ∀ m3, Pended π strict inside Γ last m held (.throw e) m3 → post () m3) :
    Leads E (unwind exitScope m.scopes.length) m2 post := by
  obtain ⟨lost2, hlost2, hs, ⟨extra, he⟩, hB⟩ := h
  have hzero : (Γ.protect last.isSome).frames.length - (Γ.protect last.isSome).boundary = 0 :=
    Nat.sub_self _
  rw [hzero, List.drop_zero, hm] at he
  refine hB.leads_unwind he fun heap hbal _ => hpost _ ?_
  refine ⟨lost2 ++ lost, fun hs => by rw [hlost hs, hlost2 hs]; rfl, hs, rfl, ?_⟩
  rw [List.append_assoc]
  exact hbal

/-- The variable of a catch clause takes over the exception with the reference that it holds. -/
theorem Inv.leads_catching {v : String} (hs : Serves π cfg) (hI : Inv π Γ m (e.objects ++ held))
    (hk : k ∈ Γ.ids) (hr : v ∉ m.registered) (hp : v ∉ Γ.params) (ht : ¬ IsTemp v)
    (hd : '.' ∉ v.toList) (hexc : exc ≠ v) (he : m.vars.get? exc = some e)
    (hpost : ∀ m', Inv π (Γ.own k v) m' held →
      (∀ n, k ∈ Γ.ids.take n → m'.scopes.drop n = m.scopes.drop n) →
      m'.registered.Perm (v :: m.registered) → post .next m') :
    LeadsAll π cfg rounds strict inner inside (catching k v type exc) m post := by
  have ha : v ∉ Γ.aliases := fun h => ht (hI.temps v (.inl h))
  refine leadsAll_cons ?_
  rw [leads_reference]
  refine leadsAll_cons ?_
  rw [leads_store]
  have he' : (m.vars.insert v .null).get? exc = some e := by
    rw [FinMap.get?_insert_ne _ hexc.symm]
    exact he
  refine gives_bound he' ?_
  rw [leads_store_var hd]
  refine leadsAll_single ?_
  rw [leads_scopeRegister hs.arc]
  have hI1 := ((hI.tick.set hr hp hd ha (b := .null)).tick.set hr hp hd ha (b := e)).tick
  obtain ⟨scopes, hreg, hI2, hperm, hdrop⟩ :=
    hI1.register (FinMap.get?_insert_self _ _ _) hr hp hk
  rw [hreg]
  exact hpost _ hI2 hdrop hperm

theorem Balanced.gives_typeOf {flat : Prop} {params : List String} {post : String → Prop}
    (h : Balanced flat params m (e.objects ++ held)) (hpost : ∀ s, post s) :
    Gives E (m.typeOf e) post := by
  cases e with
  | null | primitive _ => exact hpost _
  | object id =>
    have ha : m.heap.Alive id := h.counts.alive_of_mem (List.mem_append_right _ List.mem_cons_self)
    obtain ⟨o, ho, hf⟩ := ha
    change Gives E (m.heap.value id >>= fun v => pure v.typeName) post
    unfold Heap.value
    rw [Heap.live_eq_ok ho hf]
    exact hpost _

theorem binds_sublist_of_nested {i : Instr} (h : l ∈ i.lists) : (binds l).Sublist (binds [i]) := by
  rw [binds_cons, binds_nil, List.append_nil]
  exact (binds_sublist_of_mem h).trans (List.sublist_append_right _ _)

/-- A catch clause is run with the exception that it takes over. -/
theorem Inv.leads_catch {v : String} {body : List Instr} (hs : Serves π cfg) (hn : π.named)
    (ho : (Γ.protect last.isSome).Ordered) (hI : Inv π Γ m (e.objects ++ held))
    (hv : Declarable π Γ v) (hexc : IsTemp exc) (he : m.vars.get? exc = some e)
    (hbody : Emits π (((Γ.protect last.isSome).push k).own k v) d body Γ1)
    (ih : Sound π cfg rounds strict inside (((Γ.protect last.isSome).push k).own k v) d body Γ1)
    (hF : Fresh Γ (scoping k d (catching k v type exc ++ body)) m) :
    LeadsAll π cfg rounds strict inner inside (scoping k d (catching k v type exc ++ body)) m
      (After π strict inside (Γ.protect last.isSome) d (scoping k d (catching k v type exc ++ body))
        ({ Γ.protect last.isSome with frames := Γ1.frames.tail }.settle π) m held) := by
  obtain ⟨howned, hparams, htemp, hdot⟩ := hv.1 hn
  have hI' : Inv π (Γ.protect last.isSome) m (e.objects ++ held) := { hI with }
  have hF' : Fresh (Γ.protect last.isSome) (scoping k d (catching k v type exc ++ body)) m :=
    { hF with }
  have ha : ((Γ.protect last.isSome).push k).Alike Γ1 := Context.Alike.own.trans hbody.alike
  have hr : v ∉ m.registered := by
    intro h
    rcases hI.owned v h with h | h
    · exact htemp h
    · exact howned h
  have hne : exc ≠ v := by
    rintro rfl
    exact htemp hexc
  have hcatching : binds (catching k v type exc) = [] := by simp [catching, binds_cons]
  refine hI'.leads_scoped hs ho ha ?_
  rw [leadsAll_append]
  refine (hI'.tick.push k).leads_catching hs List.mem_cons_self hr hparams htemp hdot hne he
    fun m1 hI1 hdrop hperm => ?_
  have hnew : ∀ t ∈ m1.registered, IsTemp t →
      t ∈ (entered k (ticked m)).registered ∨ t ∈ binds (catching k v type exc) := by
    intro t ht ht'
    rcases List.mem_cons.1 (hperm.mem_iff.1 ht) with rfl | ht
    · exact absurd ht' htemp
    · exact .inl ht
  have hbelow := hdrop (((Γ.protect last.isSome).push k).frames.length -
    ((Γ.protect last.isSome).push k).floor) (by
      have hone : ((Γ.protect last.isSome).push k).frames.length -
        ((Γ.protect last.isSome).push k).floor = 1 := Nat.add_sub_cancel_left ..
      rw [hone]
      exact List.mem_cons_self)
  refine (ih inner m1 held hI1 ?_).mono fun c m2 h2 => ?_
  · exact hF'.tick.push.right hnew fun _ h => .inl h
  · exact h2.trans ho.push .own (L := []) (fun _ => rfl) hbelow hnew

theorem sound_tryCatch {b : TryBlock Instr} {scopeOf var typeOf : Case Instr → String}
    {body : Case Instr → List Instr} (hs : Serves π cfg) (hn : π.named)
    (hkind : c.kind = .tryCatchFinally) (hb : c.tryBlock = some b) (hexc : IsTemp b.exception)
    (haliases : π.held → Γ.aliases = [])
    (hblock : Emits π (Γ.protect c.finallyBlock.isSome) d b.evaluation Γ1)
    (hf1 : Γ1.frames = Γ.frames)
    (hcode : ∀ e ∈ c.cases, e.body.evaluation = scoping (scopeOf e) (dep e)
      (catching (scopeOf e) (var e) (typeOf e) b.exception ++ body e))
    (hdecl : ∀ e ∈ c.cases, scopeOf e ∉ Γ.ids ∧ Declarable π Γ (var e))
    (hbody : ∀ e ∈ c.cases, Emits π
      (((Γ.protect c.finallyBlock.isSome).push (scopeOf e)).own (scopeOf e) (var e)) (dep e) (body e)
      (out e)) (hout : ∀ e ∈ c.cases, (out e).frames.tail = Γ.frames)
    (hlast : ∀ b, c.finallyBlock = some b → Emits π Γ.lastly false b.evaluation outF)
    (houtF : ∀ b, c.finallyBlock = some b → outF.frames = Γ.frames)
    (ihblock : Sound π cfg rounds strict inside (Γ.protect c.finallyBlock.isSome) d b.evaluation Γ1)
    (ihbody : ∀ e ∈ c.cases, Sound π cfg rounds strict inside
      (((Γ.protect c.finallyBlock.isSome).push (scopeOf e)).own (scopeOf e) (var e)) (dep e) (body e)
      (out e)) (ihlast : ∀ b, c.finallyBlock = some b →
      Sound π cfg rounds strict true Γ.lastly false b.evaluation outF) :
    Sound π cfg rounds strict inside Γ false [chained location c] Γ := by
  intro inner m held hI hF
  have ho : (Γ.protect c.finallyBlock.isSome).Ordered := Context.ordered_protect
  have hfresh : ∀ {l : List Instr}, l ∈ c.lists → Fresh Γ l m := fun hl =>
    hF.sublist (binds_sublist_of_nested (i := chained location c) hl)
  have hexcb : b.exception ∈ binds [chained location c] := by
    simp [binds_cons, hb]
  refine leadsAll_chained ?_
  rw [runChain_try (c := c.mapWith _ _) (b := b.map (watchedIn cfg rounds strict true inside)) hkind
    (by simp [Chain.mapWith, Chain.map, hb])]
  refine leads_runTry (R := Pended π strict inside Γ c.finallyBlock m held) ?_ ?_ ?_
  · change Leads _ (runAll (b.evaluation.map _)) (ticked m) _
    refine (ihblock true (ticked m) held { hI with } ?_).mono fun ctl m1 h1 => ?_
    · exact { (hfresh (l := b.evaluation) (by simp [Chain.lists, hb])).of_scopes rfl with }
    · have hm1 : (ticked m).scopes = m.scopes := rfl
      have hpend := fun hc => After.pended c.finallyBlock [] hI haliases hf1 hblock.alike.params hm1
        (fun _ => rfl) hc h1
      cases ctl with
      | next | jump _ | ret _ => exact hpend (by simp)
      | throw e =>
        refine leads_handle (c := c)
          (After.leads_unwind c.finallyBlock [] hm1 (fun _ => rfl) h1 fun m2 h2 => ?_)
        have hpended := h2
        obtain ⟨lost, hlost, -, hm2, hB⟩ := h2
        refine hB.gives_typeOf fun type => ⟨hpended, fun e' he' => ?_⟩
        have hI2 := (hI.resume hB hm2 haliases).bind hexc
          (by rw [registered_eq hm2]; exact hF.apart _ hexcb) (hF.unshared _ hexcb) (b := e)
        have hm3 : ({ m2 with vars := m2.vars.insert b.exception e } : Machine σ).scopes =
            m.scopes := hm2
        have hF2 : Fresh Γ e'.body.evaluation
            { m2 with vars := m2.vars.insert b.exception e } :=
          (hfresh (Chain.mem_lists_of_case he' (by simp [Case.lists]))).of_scopes hm3
        rw [hcode e' he'] at hF2 ⊢
        refine (hI2.leads_catch hs hn ho (hdecl e' he').2 hexc
          (FinMap.get?_insert_self _ _ _) (hbody e' he') (ihbody e' he') hF2).mono
          fun ctl m3 h3 => ?_
        have hparams : ({ Γ.protect c.finallyBlock.isSome with
            frames := (out e').frames.tail }.settle π).params = Γ.params :=
          Context.Alike.settle.params
        have hpend := fun hc => After.pended c.finallyBlock lost hI haliases
          (Context.frames_settle.trans (hout e' he')) hparams hm3 hlost hc h3
        cases ctl with
        | next | jump _ | ret _ => exact hpend (by simp)
        | throw e =>
          exact After.leads_unwind c.finallyBlock lost hm3 hlost h3 fun _ h => h
  · exact fun _ ctl m1 h1 => h1.after
  · intro last hlast' ctl m1 h1
    obtain ⟨block, hblock', rfl⟩ := Option.map_eq_some_iff.1 hlast'
    change Leads _ (runAll (block.evaluation.map _)) m1 _
    -- what the finally block starts with, and what is pending after it
    have hstart : ∃ kept, Inv π Γ m1 (kept ++ held) ∧ m1.scopes = m.scopes ∧
        ∀ lost m2, (strict = true → lost = []) → Inv π Γ m2 (lost ++ (kept ++ held)) →
          m2.scopes = m.scopes → Pended π strict inside Γ c.finallyBlock m held ctl m2 := by
      obtain ⟨lost, hlost, h1⟩ := h1
      cases ctl with
      | next =>
        refine ⟨lost, h1.1, h1.2, fun lost2 m2 hlost2 hI2 hm2 => ?_⟩
        refine ⟨lost2 ++ lost, fun hs => by rw [hlost hs, hlost2 hs]; rfl, ?_, hm2⟩
        rwa [List.append_assoc]
      | throw e =>
        obtain ⟨hin, hm1, hB⟩ := h1
        refine ⟨e.objects ++ lost, ?_, hm1, fun lost2 m2 hlost2 hI2 hm2 => ?_⟩
        · rw [List.append_assoc]
          exact hI.resume hB hm1 haliases
        · refine ⟨lost2 ++ lost, fun hs => by rw [hlost hs, hlost2 hs]; rfl, hin, hm2, ?_⟩
          refine hI2.toBalanced.perm ?_
          rw [List.append_assoc, List.append_assoc]
          exact List.perm_append_comm_assoc ..
      | ret v =>
        rw [hblock'] at h1
        cases h1.1
      | jump _ => exact h1.elim
    obtain ⟨kept, hI1, hm1, hpend⟩ := hstart
    have hfr : Fresh Γ.lastly block.evaluation m1 :=
      { (hfresh (l := block.evaluation) (by simp [Chain.lists, hblock'])).of_scopes hm1 with }
    refine (ihlast block hblock' true m1 _ { hI1 with } hfr).mono fun c' m2 h2 => ?_
    have hzero : Γ.lastly.frames.length - Γ.lastly.floor = 0 := Nat.sub_self _
    have hzero' : Γ.lastly.frames.length - Γ.lastly.boundary = 0 := Nat.sub_self _
    obtain ⟨lost, hlost, h2⟩ := h2
    cases c' with
    | next =>
      obtain ⟨-, hI2, hbelow, -⟩ := h2
      rw [hzero, List.drop_zero, List.drop_zero] at hbelow
      have hback := hI.back hI2 (houtF block hblock') (hlast block hblock').alike.params haliases
      exact (hpend lost m2 hlost hback (hbelow.trans hm1)).after
    | throw e =>
      -- only a run that is not strict loses what was pending
      obtain ⟨hstrict, ⟨extra, he⟩, hB⟩ := h2
      rw [Bool.and_true] at hstrict
      rw [hzero', List.drop_zero, hm1] at he
      refine ⟨lost ++ kept, fun h => ?_, ?_, ⟨extra ++ m.scopes.take (Γ.frames.length - Γ.boundary), ?_⟩,
        ?_⟩
      · rw [hstrict] at h
        cases h
      · rw [hstrict, Bool.false_and]
      · rw [List.append_assoc, List.take_append_drop, he]
      · rw [List.append_assoc]
        exact hB
    | ret v => cases h2.1
    | jump _ => exact h2.elim

/-! ### Statements -/

/-- The code of statements does what the layout says. -/
theorem Emits.sound {Γ' : Context} (hs : Serves π cfg) (hn : π.named) (h : Emits π Γ d l Γ')
    (ho : Γ.Ordered) (hin : inside = true → Γ.mayThrow = false) :
    Sound π cfg rounds strict inside Γ d l Γ' := by
  induction h generalizing inside with
  | nil => exact .nil
  | append h _ ih ih' =>
    refine .append ho h.alike (fun s hs => h.mem_aliases hs) (ih ho hin)
      (ih' (ho.alike h.alike) ?_)
    rw [h.alike.mayThrow]
    exact hin
  | forget _ _ ih =>
    intro inner m held hI hF
    exact ih ⟨ho.boundary, ho.floor⟩ hin inner m held hI.forget (hF.of_aliases (List.nil_subset _))
  | compute hB hc => exact hc.sound hs hn ho hB
  | declare hx hk => exact sound_declare hs hn hx hk
  | bind hx hk hB hc hv => exact sound_bind hs hn ho hx hk hB hc hv.mem_names
  | assign hx _ hB hc hv ht => exact sound_assign hs hn ho hx hB hc hv.mem_names ht
  | assignField hh hx _ hB hc _ ht =>
    exact sound_assignField hs hn hh ho (hx hn).1 (hx hn).2 hB hc ht
  | initField _ h => exact absurd hn h
  | assert hB hc hp => exact sound_assert hs hn ho hB hc hp
  | ret hr hB hc hv ht => exact sound_ret hs hn ho hr hB hc hv.mem_names ht
  | retNone hr => exact sound_retNone hs hr
  | throw hr hB hc hv ht => exact sound_throw hs hn ho hin hr hB hc hv.mem_names ht
  | scope _ h ih => exact sound_scope hs ho h.alike (ih ho.push hin)
  | branch htry hl hp hsub hret hname htest hbody hout hfall houtF ihsub ihret ihbody ihfall =>
    have ho1 := ho.alike hsub.alike
    have ho2 := ho1.alike hret.alike
    have hin1 := hsub.alike.mayThrow
    have hin2 := hret.alike.mayThrow.trans hin1
    refine sound_branch hs hn ho htry hl hp hsub hret hname htest hbody hout hfall houtF
      (ihsub ho hin) (ihret ho1 ?_) (fun e he => ihbody e he ho2 ?_) fun b hb => ihfall b hb ho2 ?_
    · rwa [hin1]
    · rwa [hin2]
    · rwa [hin2]
  | loop hl hp hsub hret hc hfall ha htest hbody hf1 hupd hf2 ihbody ihupd =>
    exact sound_loop hs hn ho hl hp hsub hret hc hfall ha htest hbody hf1 hupd hf2
      (ihbody ho.fence hin) (ihupd ho.fence hin)
  | tryCatch hkind _ _ _ _ hb hexc ha hblock hf1 _ hcode hdecl hbody hout hlast houtF ihblock ihbody
      ihlast =>
    exact sound_tryCatch hs hn hkind hb hexc ha hblock hf1 hcode hdecl hbody hout hlast houtF
      (ihblock Context.ordered_protect hin)
      (fun e he => ihbody e he (Context.ordered_protect.push.alike .own) hin)
      fun b hb => ihlast b hb Context.ordered_lastly fun _ => rfl

end

end ScopedIR.Layout
