import ScopedIR.Proofs.BalancedCalc

/-!
# Statements keep the balance

Running the code of statements keeps registered names and references in balance, whichever way
control leaves it. A value that is returned or thrown is on its way with one reference; a return has
left every scope, and an exception has left none that the next try chain around does not leave.

Main statement: `Emits.sound`, that the code of statements does what the layout says.
-/

namespace ScopedIR.Layout

open Exec Instr

variable {σ : Type}

section

variable {π : Policy} {cfg : Config σ} {rounds : Nat} {strict inner inside : Bool} {Γ Γ1 : Context}
  {m : Machine σ} {held : List ObjectId} {t x k : String} {location : Option Location}
  {post : Control → Machine σ → Prop}

/-! ### Variables -/

theorem leads_store_var {E : Fault → Prop} {b : Binding} {post : Unit → Machine σ → Prop}
    (hx : '.' ∉ x.toList) :
    Leads E (Exec.store x b) m post ↔ post () { m with vars := m.vars.insert x b } := by
  unfold Exec.store
  rw [fieldPath?_eq_none hx]
  rfl

variable {type v : String} {B ks : List String} {l : List Instr} {extra outer : List OpenScope}

variable (hs : Serves π cfg)

include hs

/-- A declared variable is null, and registered. -/
theorem Inv.leads_declaring (hn : π.named) (hI : Inv π Γ m held) (hx : Declarable π Γ x)
    (hk : k ∈ Γ.reach) (hpost : ∀ m', Inv π (Γ.own k x) m' held →
      m'.scopes.drop (Γ.frames.length - Γ.floor) = m.scopes.drop (Γ.frames.length - Γ.floor) →
      m'.registered.Perm (x :: m.registered) → m'.vars.get? x = some .null → post .next m') :
    LeadsAll π cfg rounds strict inner inside (declaring location x type k) m post := by
  obtain ⟨howned, hparams, htemp, hdot⟩ := hx.1 hn
  have hr : x ∉ m.registered := by
    intro h
    rcases hI.owned x h with h | h
    · exact htemp h
    · exact howned h
  refine leadsAll_cons ?_
  rw [leads_reference]
  refine leadsAll_single ?_
  rw [leads_scopeRegister hs.arc]
  have hI1 := hI.tick.set hr hparams hdot (fun h => htemp (hI.temps x (.inl h))) (b := .null)
  obtain ⟨scopes, hreg, hI2, hperm, hdrop⟩ := hI1.tick.register (b := .null)
    (FinMap.get?_insert_self _ _ _) hr hparams (Context.mem_ids_of_reach hk)
  rw [hreg]
  exact hpost _ hI2 (hdrop _ hk) hperm (FinMap.get?_insert_self _ _ _)

theorem sound_declare (hn : π.named) (hx : Declarable π Γ x) (hk : k ∈ Γ.reach) :
    Sound π cfg rounds strict inside Γ false (declaring location x type k) (Γ.own k x) := by
  intro inner m held hI _
  refine hI.leads_declaring hs hn hx hk fun m1 hI1 hbelow hperm _ => ?_
  refine .of_next hI1 hbelow fun t ht htemp => ?_
  rcases List.mem_cons.1 (hperm.mem_iff.1 ht) with rfl | ht
  · exact absurd htemp (hx.1 hn).2.2.1
  · exact .inl ht

/-- An unset variable gets its first value. -/
theorem Inv.leads_initialising (hI : Inv π Γ m held) (hx : x ∈ Γ.owned) (ht : ¬ IsTemp x)
    (hnull : m.vars.get? x = some .null) (hv : v ∈ Γ.names)
    (hpost : ∀ m', Inv π Γ m' held → m'.scopes = m.scopes → post .next m') :
    LeadsAll π cfg rounds strict inner inside (initialising location x v) m post := by
  have hreg := hI.mem_registered hx
  have hdot := hI.plain x _ hnull
  refine leadsAll_cons ?_
  rw [leads_store]
  refine hI.tick.gives_name hv fun b hb hback => ?_
  rw [leads_store_var hdot]
  refine leadsAll_single ?_
  rw [Exec.leads_retain hs.arc, lookup_eq_ok (FinMap.get?_insert_self _ _ _)]
  have hc : m.heap.Counts (objectsOf m.vars (m.registered.erase x) ++ held) :=
    hI.counts.perm ((objectsOf_erase hreg hnull).append_right held)
  -- the variable held nothing, so what was held still is
  have hmore : objectsOf m.vars (m.registered ++ Γ.params) ⊆
      objectsOf (m.vars.insert x b) (m.registered ++ Γ.params) := by
    intro id hid
    obtain ⟨y, hy, hid⟩ := List.mem_flatMap.1 hid
    refine List.mem_flatMap.2 ⟨y, hy, ?_⟩
    rw [FinMap.get?_insert_ne]
    · exact hid
    · rintro rfl
      rw [hnull] at hid
      cases hid
  have hret := gives_retain cfg (Q := fun heap =>
    post .next { ticked { ticked m with vars := m.vars.insert x b } with heap }) hc
    (fun hh => hI.toBalanced.holds (hback hh)) ?_
  · cases b with
    | object id | null | primitive _ => exact hret
  · intro heap hc' hk
    refine hpost _ ?_ rfl
    exact
      { hI with
        toBalanced := { hI.toBalanced.rebind hreg hc' hk.drops with }
        aliases := by
          intro hh s hs c hc
          change (m.vars.insert x b).get? s = some c at hc
          change c.objects ⊆ objectsOf (m.vars.insert x b) (m.registered ++ Γ.params) ++ held
          rw [FinMap.get?_insert_ne _ (by rintro rfl; exact ht (hI.temps _ (.inl hs)))] at hc
          refine List.Subset.trans (hI.aliases hh s hs c hc) ?_
          exact List.append_subset.2 ⟨List.subset_append_of_subset_left _ hmore,
            List.subset_append_right _ _⟩ }

omit hs in
@[simp] theorem binds_declaring : binds (declaring location x type k) = [] := by
  simp [declaring, binds_cons]

omit hs in
@[simp] theorem binds_initialising : binds (initialising location x v) = [] := by
  simp [initialising, binds_cons]

theorem sound_bind (hn : π.named) (ho : Γ.Ordered) (hx : Declarable π Γ x) (hk : k ∈ Γ.reach)
    (hB : B ⊆ Γ.names) (hc : Calc π B k (Γ.own k x) l Γ1) (hv : v ∈ Γ1.names) :
    Sound π cfg rounds strict inside Γ false
      (declaring location x type k ++ l ++ initialising location x v) Γ1 := by
  intro inner m held hI hF
  have htemp := (hx.1 hn).2.2.1
  have ho1 : (Γ.own k x).Ordered := ho.alike .own
  have hB1 : B ⊆ (Γ.own k x).names := List.Subset.trans hB Context.names_own_subset
  have hx1 : x ∈ Γ1.owned :=
    hc.owned_subset (Context.mem_owned_own (Context.mem_ids_of_reach hk))
  rw [leadsAll_append, leadsAll_append]
  refine hI.leads_declaring hs hn hx hk fun m1 hI1 hbelow1 hperm hnull => ?_
  have hnew1 : ∀ t ∈ m1.registered, IsTemp t →
      t ∈ m.registered ∨ t ∈ binds (declaring location x type k) := by
    intro t ht ht'
    rcases List.mem_cons.1 (hperm.mem_iff.1 ht) with rfl | ht
    · exact absurd ht' htemp
    · exact .inl ht
  change Leads _ (runAll (l.map _)) m1 _
  refine ((hc.sound hs hn ho1 hB1 inner m1 held hI1 (hF.left.right hnew1 fun _ h => .inl h)).and
    (hc.leads_frame cfg rounds strict inner inside m1)).through
    (fun m2 hm2 => ?_) fun c m2 hc h => ?_
  · obtain ⟨⟨lost, hlost, -, hI2, hbelow, hnew⟩, hleaves⟩ := hm2
    have hxl : x ∉ binds l := fun h => htemp (hF.left.temp x (by
      rw [binds_append]
      exact List.mem_append_right _ h))
    refine hI2.leads_initialising hs hx1 htemp ((hleaves x hxl).trans hnull) hv
      fun m3 hI3 hm3 => ?_
    refine ⟨lost, hlost, rfl, hI3, ?_, ?_⟩
    · rw [Context.length_frames_own] at hbelow
      rw [hm3, hbelow1.symm]
      exact hbelow
    · intro t ht htemp
      rw [registered_eq hm3] at ht
      simp only [binds_append, binds_declaring, binds_initialising, List.nil_append,
        List.append_nil]
      rcases hnew t ht htemp with ht | ht
      · exact .inl ((hnew1 t ht htemp).resolve_right (by simp))
      · exact .inr ht
  · exact After.widen rfl hc (h.1.trans ho .own (L := []) (fun _ => rfl) hbelow1 hnew1)

/-- A variable gets another value: the new one is retained before the old one is released. -/
theorem Inv.leads_assigning (hI : Inv π Γ m held) (hx : x ∈ Γ.owned) (hv : v ∈ Γ.names)
    (hdot : '.' ∉ v.toList)
    (hpost : ∀ m', Inv π (Γ.settle π) m' held → m'.scopes = m.scopes → post .next m') :
    LeadsAll π cfg rounds strict inner inside (assigning location x v) m post := by
  have hreg := hI.mem_registered hx
  obtain ⟨b0, hb0⟩ := hI.bound x hreg
  refine leadsAll_cons (hI.tick.leads_retain hs hdot (fun hh b hb => hI.holds hv hh hb) ?_)
  intro b heap hb hI1 hkeep
  refine leadsAll_cons ?_
  rw [leads_release hs.arc]
  refine gives_bound hb0 ?_
  have hc : heap.Counts (b0.objects ++
      (b.objects ++ (objectsOf m.vars (m.registered.erase x) ++ held))) := by
    refine hI1.counts.perm (((objectsOf_erase hreg hb0).append_right _).trans ?_)
    rw [List.append_assoc]
    exact (List.perm_append_comm_assoc ..).append_left _
  obtain ⟨heap', hrel, hc', hd⟩ := hc.releaseAll
  change Gives _ (heap.releaseAll b0.objects).1 fun _ => LeadsAll _ _ _ _ _ _ [_]
    { ticked { ticked m with heap } with heap := (heap.releaseAll b0.objects).2 } post
  rw [hrel]
  refine leadsAll_single ?_
  rw [leads_store]
  refine gives_bound hb ?_
  rw [leads_store_var (hI.plain x _ hb0)]
  refine hpost _ (hI.settled ?_ rfl) rfl
  exact { hI.toBalanced.rebind hreg hc' (hkeep.drops.trans hd) with }

theorem sound_assign (hn : π.named) (ho : Γ.Ordered) (hx : Assignable π Γ x) (hB : B ⊆ Γ.names)
    (hc : Calc π B k Γ l Γ1) (hv : v ∈ Γ1.names) (ht : IsTemp v) :
    Sound π cfg rounds strict inside Γ false (l ++ assigning location x v) (Γ1.settle π) := by
  refine .append ho hc.alike (fun s hs => hc.mem_aliases hs) (hc.sound hs hn ho hB)
    fun inner m held hI _ => ?_
  refine hI.leads_assigning hs (hc.owned_subset (hx.1 hn).1) hv ht.dot_notMem fun m1 hI1 hm1 => ?_
  exact .of_scopes hI1 hm1

/-- A field gets another value. What the field held before is dropped while it still stands in the
field, whose holder is held by a variable or by the caller. -/
theorem Inv.leads_assigningField {o f : String} (hh : ¬ π.held) (hI : Inv π Γ m held)
    (ho : o ∈ Γ.owned ∨ o ∈ Γ.params) (hdot : '.' ∉ o.toList)
    (hv : '.' ∉ v.toList) (hpost : ∀ m', Inv π Γ m' held → m'.scopes = m.scopes → post .next m') :
    LeadsAll π cfg rounds strict inner inside (assigning location (o ++ "." ++ f) v) m post := by
  have hE : ∀ e : Fault, Allowed π cfg e := fun _ h => absurd h hh
  have hpath : fieldPath? (o ++ "." ++ f) = some (o, f) := fieldPath?_field hdot
  have hnone : m.vars.get? (o ++ "." ++ f) = none := by
    cases hb : m.vars.get? (o ++ "." ++ f) with
    | none => rfl
    | some b => exact absurd (by simp) (hI.plain _ b hb)
  refine leadsAll_cons
    (hI.tick.leads_retain hs hv (fun h => absurd h hh) fun b heap hb hI1 hkeep => ?_)
  refine leadsAll_cons ?_
  rw [leads_release hs.arc]
  change Gives _ (({ ticked m with heap } : Machine σ).lookup (o ++ "." ++ f)) _
  unfold Machine.lookup
  rw [show ({ ticked m with heap } : Machine σ).vars.get? (o ++ "." ++ f) = none from hnone, hpath]
  dsimp only
  cases hholder : m.vars.get? o with
  | none =>
    rw [show (ticked m).vars.get? o = none from hholder]
    exact hE _
  | some holder =>
    rw [show (ticked m).vars.get? o = some holder from hholder]
    cases holder with
    | null | primitive _ => exact hE _
    | object a =>
      dsimp only
      have ha : a ∈ objectsOf m.vars m.registered ++ held ∨ heap.External a := by
        rcases ho with ho | ho
        · exact .inl (List.mem_append_left _ (mem_objectsOf (hI.mem_registered ho) hholder))
        · obtain ⟨_, he, hext⟩ := (hI.caller o ho).2.2 _ hholder
          cases he
          exact .inr (hkeep.external a hext)
      have hc : heap.Counts (b.objects ++ (objectsOf m.vars m.registered ++ held)) :=
        hI1.counts.perm (List.perm_append_comm_assoc ..)
      have halive : heap.Alive a := by
        rcases ha with ha | ha
        · exact hc.alive_of_mem (List.mem_append_right _ ha)
        · exact hc.alive_of_external ha
      obtain ⟨cell, hcell, hfreed⟩ := halive
      have hfield : heap.field a f = .ok (cell.fields.get? f) := by
        unfold Heap.field
        rw [Heap.live_eq_ok hcell hfreed]
        rfl
      rw [gives_bind, hfield]
      obtain ⟨v', hv'⟩ : ∃ v' : Option ObjectId, b.objects = v'.toList := by
        cases b with
        | object id => exact ⟨some id, rfl⟩
        | null | primitive _ => exact ⟨none, rfl⟩
      rw [hv'] at hc
      obtain ⟨heap1, hrel, heap2, hset, hc2, hext⟩ := hc.relink (f := f) hcell ha
      have hstore : LeadsAll π cfg rounds strict inner inside
          [simple location .store [o ++ "." ++ f, v] none]
          { ticked { ticked m with heap } with heap := heap1 } post := by
        refine leadsAll_single ?_
        rw [leads_store]
        refine gives_bound hb ?_
        unfold Exec.store
        rw [hpath]
        dsimp only
        rw [leads_bind, leads_lookup]
        refine gives_bound hholder ?_
        have hnext : ∀ target : Option ObjectId, target = v' → Leads (Allowed π cfg)
            (onHeap (·.setField a f target))
            (ticked { ticked { ticked m with heap } with heap := heap1 })
            fun _ m' => post .next m' := by
          rintro _ rfl
          rw [leads_onHeap]
          change Gives _ (heap1.setField a f _).1 fun _ => post .next
            { ticked (ticked (ticked m)) with heap := (heap1.setField a f _).2 }
          rw [hset]
          refine hpost _ ?_ rfl
          exact
            { hI with
              counts := hc2
              unwritten := fun h => absurd h hh
              caller := by
                intro p hp
                obtain ⟨ht, hr, hb⟩ := hI.caller p hp
                refine ⟨ht, hr, fun b hb' => ?_⟩
                obtain ⟨id, rfl, he⟩ := hb b hb'
                exact ⟨id, rfl, hext id (hkeep.external id he)⟩
              aliases := fun h => absurd h hh }
        cases b with
        | object id => exact hnext (some id) (by cases v' <;> simp_all [Binding.objects])
        | null => exact hnext none (by cases v' <;> simp_all [Binding.objects])
        | primitive _ => exact hE _
      have hrelease : ∀ c : Binding, c.objects = (cell.fields.get? f).toList →
          Gives (Allowed π cfg) (heap.releaseAll c.objects).1 fun _ =>
            LeadsAll π cfg rounds strict inner inside
              [simple location .store [o ++ "." ++ f, v] none]
              { ticked { ticked m with heap } with heap := (heap.releaseAll c.objects).2 } post := by
        intro c hc
        rw [hc, hrel]
        exact hstore
      cases hf : cell.fields.get? f with
      | none => exact hrelease .null (by rw [hf]; rfl)
      | some target => exact hrelease (.object target) (by rw [hf]; rfl)

theorem sound_assignField {o f : String} (hn : π.named) (hh : ¬ π.held) (ho : Γ.Ordered)
    (hx : o ∈ Γ.owned ∨ o ∈ Γ.params) (hdot : '.' ∉ o.toList) (hB : B ⊆ Γ.names)
    (hc : Calc π B k Γ l Γ1) (ht : IsTemp v) :
    Sound π cfg rounds strict inside Γ false (l ++ assigning location (o ++ "." ++ f) v) Γ1 := by
  refine .append ho hc.alike (fun s hs => hc.mem_aliases hs) (hc.sound hs hn ho hB)
    fun inner m held hI _ => ?_
  have hx1 : o ∈ Γ1.owned ∨ o ∈ Γ1.params := by
    rw [hc.alike.params]
    exact hx.imp_left fun h => hc.owned_subset h
  refine hI.leads_assigningField hs hh hx1 hdot ht.dot_notMem fun m1 hI1 hm1 => ?_
  exact .of_scopes hI1 hm1

theorem sound_assert (hn : π.named) (ho : Γ.Ordered) (hB : B ⊆ Γ.names) (hc : Calc π B k Γ l Γ1)
    (hv : v ∈ Γ1.truths) :
    Sound π cfg rounds strict inside Γ false (l ++ [simple location .assert [v] none]) Γ1 := by
  refine .append ho hc.alike (fun s hs => hc.mem_aliases hs) (hc.sound hs hn ho hB)
    fun inner m held hI _ => ?_
  refine leadsAll_single ?_
  rw [leads_assert, leads_primitive]
  refine gives_lookup (hI.temps v (.inr hv)).dot_notMem fun b _ => ?_
  cases b with
  | null | object _ => exact Allowed.of_isMemory rfl
  | primitive b =>
    cases b with
    | true =>
      change After π strict inside Γ1 false _ Γ1 m held .next (ticked m)
      exact .of_scopes hI.tick rfl
    | false => exact Allowed.of_isMemory rfl

/-! ### Leaving -/

omit hs in
/-- The innermost scopes are left one by one, and names stay bound. -/
theorem Balanced.leads_leaving {flat : Prop} {params : List String} (hm : cfg.memory = .arc)
    (h : Balanced flat params m held) (hs : m.scopes = extra ++ outer)
    (hks : extra.map (·.id) = ks)
    (hpost : ∀ m', Balanced flat params m' held → m'.scopes = outer → m'.vars = m.vars →
      post .next m') :
    LeadsAll π cfg rounds strict inner inside (leaving location ks) m post := by
  induction extra generalizing m ks with
  | nil =>
    rw [← hks]
    exact hpost m h hs rfl
  | cons s extra ih =>
    rw [← hks]
    refine leadsAll_cons ?_
    rw [leads_scopeExit hm]
    refine h.tick.leads_exitScope hs fun heap hbal _ => ?_
    exact ih hbal rfl rfl hpost

/-- A value on its way out is retained, and then scopes are left. -/
theorem Inv.leads_departing {last : Instr} (hI : Inv π Γ m held) (hv : v ∈ Γ.names) (ht : IsTemp v)
    (hscopes : m.scopes = extra ++ outer)
    (hks : extra.map (·.id) = ks)
    (hpost : ∀ m' b, Balanced π.held Γ.params m' (b.objects ++ held) → m'.scopes = outer →
      m'.vars.get? v = some b → LeadsAll π cfg rounds strict inner inside [last] m' post) :
    LeadsAll π cfg rounds strict inner inside
      ([simple location .retain [v] none] ++ leaving location ks ++ [last]) m post := by
  rw [leadsAll_append, leadsAll_append]
  refine leadsAll_single ?_
  refine hI.tick.leads_retain hs ht.dot_notMem (fun hh b hb => hI.holds hv hh hb) ?_
  intro b heap hb hI1 _
  refine hI1.toBalanced.leads_leaving hs.arc hscopes hks fun m2 hbal hm2 hvars => ?_
  exact hpost m2 b hbal hm2 (by rw [hvars]; exact hb)

omit hs in
/-- The open scopes are the ones that the context knows. -/
theorem Registers.map_id {frames : List Frame} {scopes : List OpenScope}
    (h : Registers frames scopes) : scopes.map (·.id) = frames.map (·.id) := by
  unfold Registers at h
  induction h with
  | nil => rfl
  | cons hf _ ih => rw [List.map_cons, List.map_cons, ih, hf.1]

theorem sound_ret (hn : π.named) (ho : Γ.Ordered) (hr : Γ.mayReturn = true) (hB : B ⊆ Γ.names)
    (hc : Calc π B k Γ l Γ1) (hv : v ∈ Γ1.names) (ht : IsTemp v) :
    Sound π cfg rounds strict inside Γ true
      (l ++ ([simple location .retain [v] none] ++ leaving location Γ.ids
        ++ [simple location .ret [v] none])) Γ1 := by
  refine .append ho hc.alike (fun s hs => hc.mem_aliases hs) (hc.sound hs hn ho hB)
    fun inner m held hI _ => ?_
  have hks : m.scopes.map (·.id) = Γ.ids := hI.frames.map_id.trans hc.alike.ids
  refine hI.leads_departing hs hv ht (List.append_nil _).symm hks fun m1 b hbal hm1 hb => ?_
  refine leadsAll_single ?_
  rw [leads_ret]
  refine gives_bound hb ⟨[], fun _ => rfl, ?_, hm1, hbal.tick⟩
  rw [hc.alike.mayReturn]
  exact hr

theorem sound_retNone (hr : Γ.mayReturn = true) : Sound π cfg rounds strict inside Γ true
      (leaving location Γ.ids ++ [simple location .ret [] none]) Γ := by
  intro inner m held hI _
  rw [leadsAll_append]
  refine hI.toBalanced.leads_leaving hs.arc (List.append_nil _).symm hI.frames.map_id
    fun m1 hbal hm1 _ => ?_
  refine leadsAll_single ?_
  rw [leads_retNone]
  exact ⟨[], fun _ => rfl, hr, hm1, hbal.tick⟩

theorem sound_throw (hn : π.named) (ho : Γ.Ordered) (hin : inside = true → Γ.mayThrow = false)
    (hr : Γ.mayThrow = true) (hB : B ⊆ Γ.names)
    (hc : Calc π B k Γ l Γ1) (hv : v ∈ Γ1.names) (ht : IsTemp v) :
    Sound π cfg rounds strict inside Γ true
      (l ++ ([simple location .retain [v] none] ++ leaving location Γ.inner
        ++ [simple location .throw [v] none])) Γ1 := by
  refine .append ho hc.alike (fun s hs => hc.mem_aliases hs) (hc.sound hs hn ho hB)
    fun inner m held hI _ => ?_
  have hout : inside = false := by
    refine Bool.eq_false_iff.2 fun h => ?_
    rw [hin h] at hr
    cases hr
  have hks : (m.scopes.take (Γ.frames.length - Γ.boundary)).map (·.id) = Γ.inner := by
    rw [List.map_take, hI.frames.map_id]
    exact congrArg _ hc.alike.ids
  refine hI.leads_departing hs hv ht (List.take_append_drop _ _).symm hks fun m1 b hbal hm1 hb => ?_
  refine leadsAll_single ?_
  rw [leads_throw]
  refine gives_bound hb ⟨[], fun _ => rfl, ?_, ⟨[], ?_⟩, hbal.tick⟩
  · rw [hout, Bool.and_false]
  · rw [hc.alike.length_frames, hc.alike.boundary]
    exact hm1

end

end ScopedIR.Layout
