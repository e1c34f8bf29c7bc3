import ScopedIR.Proofs.Balance
import ScopedIR.Proofs.Frame

/-!
# Expressions keep the balance

Running the code of an expression registers every object it makes to one scope, and frees nothing:
what was live stays live until the expression is over. A call hands nothing over. An exception of a
callee is on its way with one reference, and the scopes stay as they were.

Main definition: `Serves`, what is asked of the handler of calls.

Main statement: `Calc.sound`, that the code of an expression does what the layout says.
-/

namespace ScopedIR.Layout

open Exec Instr

variable {σ : Type}

/-- What is asked of a run: references are counted, and where objects must be held, a call that has
a result is answered with one. -/
structure Serves (π : Policy) (cfg : Config σ) : Prop where
  arc : cfg.memory = .arc
  answers : π.held → ∀ site receiver args calls reply calls',
    cfg.handler site receiver args calls = (.ok reply, calls') → site.hasResult = true →
      reply.outcome ≠ .void

section

variable {π : Policy} {cfg : Config σ} {rounds : Nat} {strict inner inside : Bool} {Γ Γ1 : Context}
  {m : Machine σ} {held : List ObjectId} {t x k : String} {location : Option Location}
  {p : Payload (Exec σ Control)} {post : Control → Machine σ → Prop}

/-! ### Registering -/

/-- A live object can be retained; where objects need not be held, it may also be freed already. -/
theorem gives_retain (cfg : Config σ) {h : Heap} {base : List ObjectId} {b : Binding}
    {Q : Heap → Prop} (hc : h.Counts base) (hlive : π.held → h.Holds b)
    (hpost : ∀ heap, heap.Counts (b.objects ++ base) → h.Keeps heap → Q heap) :
    match b with
    | .object id => Gives (Allowed π cfg) (h.retain id).1 fun _ => Q (h.retain id).2
    | .null | .primitive _ => Q h := by
  cases b with
  | object id =>
    dsimp only
    by_cases ha : h.Alive id
    · obtain ⟨heap, hr, hc', hk⟩ := hc.retain ha
      rw [hr]
      exact hpost heap hc' hk
    · rw [Heap.retain, Heap.updateLive_eq_error ha]
      exact fun hh => absurd (hlive hh id (List.mem_singleton.2 rfl)) ha
  | null | primitive v => exact hpost h hc (.refl _)

/-- Retaining a name adds a reference to its object. -/
theorem Inv.leads_retain (hs : Serves π cfg) (hI : Inv π Γ m held) (hx : '.' ∉ x.toList)
    (hlive : π.held → ∀ b, m.vars.get? x = some b → m.heap.Holds b)
    (hpost : ∀ b heap, m.vars.get? x = some b →
      Inv π Γ { m with heap } (b.objects ++ held) → m.heap.Keeps heap → post .next { m with heap }) :
    Leads (Allowed π cfg) (perform exitScope cfg rounds (simple location .retain [x] none) p) m post := by
  rw [Exec.leads_retain hs.arc]
  refine gives_lookup hx fun b hb => ?_
  have hret := gives_retain cfg (π := π) (Q := fun heap => post .next { m with heap }) hI.counts
    (fun hh => hlive hh b hb) fun heap hc hk =>
      hpost b heap hb (hI.withHeap (hc.perm (List.perm_append_comm_assoc ..)) hk
        (List.subset_append_right _ _)) hk
  cases b with
  | object id | null | primitive v => exact hret

/-- A scope takes over the object of a fresh temporary. -/
theorem Inv.leads_registering (hs : Serves π cfg) (hI : Inv π Γ m held) (ht : IsTemp t)
    (hr : t ∉ m.registered) (hk : k ∈ Γ.reach)
    (hlive : π.held → ∀ b, m.vars.get? t = some b → m.heap.Holds b)
    (hpost : ∀ m', Inv π (Γ.own k t) m' held →
      m'.scopes.drop (Γ.frames.length - Γ.floor) = m.scopes.drop (Γ.frames.length - Γ.floor) →
      m'.registered.Perm (t :: m.registered) → post .next m') :
    LeadsAll π cfg rounds strict inner inside (registering location t k) m post := by
  refine leadsAll_cons (hI.tick.leads_retain hs ht.dot_notMem hlive ?_)
  intro b heap hb hI1 _
  refine leadsAll_single ?_
  rw [leads_scopeRegister hs.arc]
  obtain ⟨scopes, hreg, hI2, hperm, hdrop⟩ :=
    hI1.tick.register hb hr (hI.notMem_params ht) (Context.mem_ids_of_reach hk)
  rw [hreg]
  exact hpost _ hI2 (hdrop _ hk) hperm

/-! ### Calls -/

theorem gives_value {id : ObjectId} {post : Value → Prop} (hlive : π.held → m.heap.Alive id)
    (hpost : ∀ v, m.heap.Alive id → post v) : Gives (Allowed π cfg) (m.heap.value id) post := by
  by_cases ha : m.heap.Alive id
  · have ⟨o, ho, hf⟩ := ha
    unfold Heap.value
    rw [Heap.live_eq_ok ho hf]
    exact hpost _ ha
  · unfold Heap.value
    rw [Heap.live_eq_error ha]
    exact fun hh => absurd (hlive hh) ha

variable {opcode : Opcode} {result : Option String} {site : CallSite} {B : List String}
  {f o v : String} {l r nullBody setBody : List Instr} {m1 : Machine σ} {Γ2 : Context}
  {b : LogicalBlock Instr}

theorem Inv.leads_receiver {post : Receiver × Option ObjectId → Machine σ → Prop}
    (hI : Inv π Γ m held) (htarget : opcode = .callStatic ∨ site.target ∈ Γ.names)
    (hpost : ∀ r target, (∀ id, target = some id → m.heap.Alive id) → post (r, target) m) :
    Leads (Allowed π cfg) (receiver (calling location opcode result site) site) m post := by
  unfold receiver
  change Leads _ (if opcode = .callStatic then _ else _) m post
  split
  · exact hpost _ _ (by simp)
  · next hne =>
    rw [leads_bind, leads_lookup]
    refine hI.gives_name (htarget.resolve_left hne) fun b hb hback => ?_
    cases b with
    | object id =>
      change Leads _ (get >>= fun m : Machine σ => ofExcept (m.heap.value id) >>= fun v =>
        pure (.object v, some id)) m post
      rw [leads_bind, leads_get, leads_bind, leads_ofExcept]
      refine gives_value (fun hh => hI.toBalanced.holds (hback hh) id (List.mem_singleton.2 rfl))
        fun v ha => ?_
      refine hpost _ _ ?_
      rintro _ ⟨⟩
      exact ha
    | null => exact hpost _ _ (by simp)
    | primitive v => exact Allowed.of_isMemory rfl

theorem Inv.leads_arguments {i : Instr} {args : List String}
    {post : List (Option Value) → Machine σ → Prop} (hI : Inv π Γ m held)
    (hargs : ∀ a ∈ args, a ∈ Γ.names) (hpost : ∀ values, post values m) :
    Leads (Allowed π cfg) (arguments i args) m post := by
  induction args generalizing post with
  | nil => exact hpost []
  | cons a rest ih =>
    have hrest : ∀ v : Option Value, Leads (Allowed π cfg) (arguments i rest) m
        fun values m' => post (v :: values) m' := fun v =>
      ih (fun b hb => hargs b (List.mem_cons_of_mem _ hb)) fun values => hpost _
    unfold arguments
    rw [leads_bind, leads_lookup]
    refine hI.gives_name (hargs a List.mem_cons_self) fun b hb hback => ?_
    cases b with
    | object id =>
      change Leads _ (get >>= fun m : Machine σ => ofExcept (m.valueOf (.object id)) >>= fun v =>
        arguments i rest >>= fun values => pure (v :: values)) m post
      rw [leads_bind, leads_get, leads_bind, leads_ofExcept]
      change Gives _ (m.heap.value id >>= fun v => pure (some v)) _
      rw [gives_bind]
      refine gives_value (fun hh => hI.toBalanced.holds (hback hh) id (List.mem_singleton.2 rfl))
        fun v _ => ?_
      exact leads_bind.2 (hrest (some v))
    | null =>
      change Leads _ (arguments i rest >>= fun values => pure (none :: values)) m post
      exact leads_bind.2 (hrest none)
    | primitive v => exact Allowed.of_isMemory rfl

theorem leads_ask {r : Receiver} {args : List (Option Value)}
    {post : CallReply → Machine σ → Prop}
    (hpost : ∀ reply calls, cfg.handler site r args m.calls = (.ok reply, calls) →
      post reply { m with calls }) :
    Leads (Allowed π cfg) (ask cfg.handler site r args) m post := by
  unfold ask
  rw [leads_bind, leads_get]
  rcases ha : cfg.handler site r args m.calls with ⟨reply, calls⟩
  change Leads _ (modify _ >>= fun _ => ofExcept reply) m post
  rw [leads_bind, leads_modify, leads_ofExcept]
  cases reply with
  | ok reply => exact hpost reply calls ha
  | error f => exact fun _ _ => ⟨site, r, args, m.calls, congrArg Prod.fst ha⟩

theorem Inv.leads_concluding {outcome : CallOutcome} (hI : Inv π Γ m held)
    (hvoid : outcome = .void → post .next m)
    (hvalue : ∀ m' b, Inv π Γ m' held → m'.scopes = m.scopes → m'.heap.Holds b →
      post .next (bound m' result b))
    (hthrow : ∀ m' id, Balanced π.held Γ.params m' (id :: held) → m'.scopes = m.scopes →
      post (.throw (.object id)) m') :
    Leads (Allowed π cfg) (concluding result outcome) m post := by
  cases outcome with
  | void => exact hvoid rfl
  | object v =>
    unfold concluding
    rw [leads_bind, leads_allocate, leads_bind, leads_bindResult, leads_pure]
    refine hvalue _ _ (hI.withHeap (hI.counts.alloc v false) (Heap.keeps_add rfl)
      (List.Subset.refl _)) rfl ?_
    exact Heap.holds_object (Heap.alive_next_add rfl)
  | primitive b =>
    unfold concluding
    rw [leads_bind, leads_bindResult, leads_pure]
    exact hvalue m _ hI rfl fun id hid => by cases hid
  | throw v =>
    unfold concluding
    rw [leads_bind, leads_allocate, leads_pure]
    refine hthrow _ _ ?_ rfl
    refine hI.toBalanced.withHeap ?_ (Heap.keeps_add rfl).drops
    exact (hI.counts.allocOwned v).perm List.perm_middle.symm

/-- A call leaves the scopes and what is live as they were. It may leave its result unbound only
where objects need not be held, or where no result is expected. -/
theorem Inv.leads_call (hs : Serves π cfg) (hI : Inv π Γ m held)
    (htarget : opcode = .callStatic ∨ site.target ∈ Γ.names)
    (hargs : ∀ a ∈ site.args, a ∈ Γ.names)
    (hvoid : ∀ m', Inv π Γ m' held → m'.scopes = m.scopes → (π.held → site.hasResult = false) →
      post .next m') (hvalue : ∀ m' b, Inv π Γ m' held → m'.scopes = m.scopes → m'.heap.Holds b →
      post .next (bound m' result b))
    (hthrow : ∀ m' id, Balanced π.held Γ.params m' (id :: held) → m'.scopes = m.scopes →
      post (.throw (.object id)) m') :
    Leads (Allowed π cfg) (Exec.call cfg (calling location opcode result site) site) m post := by
  rw [call_eq, leads_bind]
  refine hI.leads_receiver htarget fun r target htarget => ?_
  rw [leads_bind]
  refine hI.leads_arguments hargs fun values => ?_
  rw [leads_bind]
  refine leads_ask fun reply calls hreply => ?_
  have hI1 : Inv π Γ { m with calls } held := { hI with }
  have hend : ∀ m1, Inv π Γ m1 held → m1.scopes = m.scopes →
      Leads (Allowed π cfg) (concluding result reply.outcome) m1 post := by
    intro m1 hI1 hm1
    refine hI1.leads_concluding ?_ ?_ ?_
    · intro hout
      refine hvoid m1 hI1 hm1 fun hh => Bool.eq_false_iff.2 fun hr => ?_
      exact hs.answers hh _ _ _ _ _ _ hreply hr hout
    · intro m2 b hI2 hm2 hb
      exact hvalue m2 b hI2 (hm2.trans hm1) hb
    · intro m2 id hB hm2
      exact hthrow m2 id hB (hm2.trans hm1)
  rw [leads_bind]
  cases target with
  | none => exact hend _ hI1 rfl
  | some id =>
    cases reply.receiver with
    | static | null => exact hend _ hI1 rfl
    | object v =>
      obtain ⟨heap, hr, hc, hk⟩ := hI.counts.setValue (htarget id rfl) v
      rw [updating, leads_onHeap, hr]
      exact hend _ (hI1.withHeap hc hk (List.Subset.refl _)) rfl

/-! ### The forms of expressions -/

theorem perform_calling (ho : opcode.isCall = true) :
    perform exitScope cfg rounds (calling location opcode result site) p =
      Exec.call cfg (calling location opcode result site) site := by
  cases opcode <;> first | rfl | cases ho

section

variable {l : List Instr} {m' : Machine σ}

/-- Control goes on with the same references held. -/
theorem After.of_next (hI : Inv π Γ1 m' held)
    (hbelow : m'.scopes.drop (Γ.frames.length - Γ.floor) =
      m.scopes.drop (Γ.frames.length - Γ.floor))
    (hnew : ∀ t ∈ m'.registered, IsTemp t → t ∈ m.registered ∨ t ∈ binds l) :
    After π strict inside Γ false l Γ1 m held .next m' :=
  ⟨[], fun _ => rfl, rfl, hI, hbelow, hnew⟩

/-- Control goes on with the same scopes. -/
theorem After.of_scopes (hI : Inv π Γ1 m' held) (hm : m'.scopes = m.scopes) :
    After π strict inside Γ false l Γ1 m held .next m' :=
  .of_next hI (by rw [hm]) fun t ht _ => .inl (by rwa [registered_eq hm] at ht)

/-- A callee throws, and the scopes are those before the call. -/
theorem After.of_callee {id : ObjectId} {d : Bool} (hs : (strict && inside) = false)
    (hB : Balanced π.held Γ.params m' (id :: held)) (hm : m'.scopes = m.scopes) :
    After π strict inside Γ d l Γ1 m held (.throw (.object id)) m' := by
  refine ⟨[], fun _ => rfl, hs, ⟨m.scopes.take (Γ.frames.length - Γ.boundary), ?_⟩, hB⟩
  rw [hm, List.take_append_drop]

end

/-- A callee's exception is not refused outside finally blocks. -/
theorem and_eq_false_of_isCall (ho : opcode.isCall = true)
    (h : (strict && inside && opcode.isCall) = false) : (strict && inside) = false := by
  rwa [ho, Bool.and_true] at h

theorem sound_create {operands : List String} (hs : Serves π cfg) (ht : IsTemp t)
    (hk : k ∈ Γ.reach) (ho : opcode = .loadLiteral ∨ opcode = .allocObject) :
    Sound π cfg rounds strict inside Γ false
      ([simple location opcode operands (some t)] ++ registering location t k) (Γ.own k t) := by
  intro inner m held hI hF
  have htb : t ∈ binds
      ([simple location opcode operands (some t)] ++ registering location t k) := by
    simp [binds_cons]
  rw [leadsAll_append]
  refine leadsAll_single ?_
  refine leads_create ho (fun _ => Allowed.of_isMemory) fun v => ?_
  have hlive : (m.heap.alloc v false).Holds (.object m.heap.next) :=
    Heap.holds_object (Heap.alive_next_add rfl)
  have hI1 := (hI.tick.withHeap (hI.counts.alloc v false) (Heap.keeps_add rfl)
    (List.Subset.refl _)).bind ht (hF.apart t htb) (hF.unshared t htb) (b := .object m.heap.next)
  refine hI1.leads_registering hs ht (hF.apart t htb) hk (fun _ b hb => hlive.of_insert hb)
    fun m2 hI2 hbelow hperm => ?_
  refine .of_next hI2 hbelow fun s hmem _ => ?_
  rcases List.mem_cons.1 (hperm.mem_iff.1 hmem) with rfl | hmem
  · exact .inr htb
  · exact .inl hmem

theorem sound_load (hn : π.named) (hB : B ⊆ Γ.names) (ht : IsTemp t) (hx : Readable π B x) :
    Sound π cfg rounds strict inside Γ false [simple location .load [x] (some t)]
      (Γ.share t) := by
  intro inner m held hI hF
  have htb : t ∈ binds [simple location .load [x] (some t)] := by simp [binds_cons]
  refine leadsAll_single ?_
  rw [leads_load]
  refine hI.tick.gives_readable hn hB hx fun b hb hback => ?_
  exact .of_scopes (hI.tick.shared ht (hF.apart t htb) (hF.unshared t htb) hback) rfl

theorem sound_call (hs : Serves π cfg) (ht : IsTemp t) (hk : k ∈ Γ.reach)
    (ho : opcode.isCall = true) (hr : site.hasResult = true)
    (htarget : opcode = .callStatic ∨ site.target ∈ Γ.names)
    (hargs : ∀ a ∈ site.args, a ∈ Γ.names) :
    Sound π cfg rounds strict inside Γ false
      ([calling location opcode (some t) site] ++ registering location t k) (Γ.own k t) := by
  intro inner m held hI hF
  have htb : t ∈ binds
      ([calling location opcode (some t) site] ++ registering location t k) := by
    simp [binds_cons]
  have htr := hF.apart t htb
  rw [leadsAll_append]
  refine leads_runAll_single.2 (leads_watched ?_)
  rw [perform_calling ho]
  have hgo : ∀ m1, Inv π Γ m1 held → m1.scopes = m.scopes →
      (π.held → ∀ b, m1.vars.get? t = some b → m1.heap.Holds b) →
      LeadsAll π cfg rounds strict inner inside (registering location t k) m1
        (After π strict inside Γ false
          ([calling location opcode (some t) site] ++ registering location t k) (Γ.own k t) m
          held) := by
    intro m1 hI1 hm1 hlive
    have hreg := registered_eq hm1
    refine hI1.leads_registering hs ht (hreg ▸ htr) hk hlive fun m2 hI2 hbelow hperm => ?_
    refine .of_next hI2 (by rw [hbelow, hm1]) fun s hmem _ => ?_
    rcases List.mem_cons.1 (hperm.mem_iff.1 hmem) with rfl | hmem
    · exact .inr htb
    · exact .inl (hreg ▸ hmem)
  refine hI.tick.leads_call hs htarget hargs ?_ ?_ ?_
  · intro m1 hI1 hm1 hvoid _ _
    refine hgo m1 hI1 hm1 fun hh => ?_
    rw [hvoid hh] at hr
    cases hr
  · intro m1 b hI1 hm1 hb _ _
    have hr1 : t ∉ m1.registered := by rwa [registered_eq (m := m) hm1]
    exact hgo _ (hI1.bind ht hr1 (hF.unshared t htb)) hm1 fun _ c hc => hb.of_insert hc
  · intro m1 id hB hm1 _ hthrow
    exact Through.throw (.of_callee (and_eq_false_of_isCall ho (hthrow _ rfl)) hB hm1)

/-- The parts of a path to a field, whose object has a name without a dot. -/
theorem fieldPath?_field (ho : '.' ∉ o.toList) : fieldPath? (o ++ "." ++ f) = some (o, f) := by
  have hp : ∀ c ∈ o.toList, (decide (c ≠ '.')) = true := by
    intro c hc
    rw [decide_eq_true_eq]
    rintro rfl
    exact ho hc
  have hl : (o ++ "." ++ f).toList = o.toList ++ '.' :: f.toList := by simp
  unfold fieldPath?
  rw [hl, List.span_eq_takeWhile_dropWhile, List.takeWhile_append_of_pos hp,
    List.dropWhile_append_of_pos hp]
  simp

/-- Where objects must be held, no field was written, so looking up one finds null. -/
theorem Inv.gives_field {post : Binding → Prop} (hI : Inv π Γ m held) (hn : π.named)
    (hB : B ⊆ Γ.names) (ho : Readable π B o) (hpost : ∀ b, (π.held → b = .null) → post b) :
    Gives (Allowed π cfg) (m.lookup (o ++ "." ++ f)) post := by
  obtain ⟨hmem, hdot⟩ := ho.1 hn
  have hnone : m.vars.get? (o ++ "." ++ f) = none := by
    cases hb : m.vars.get? (o ++ "." ++ f) with
    | none => rfl
    | some b => exact absurd (by simp) (hI.plain _ b hb)
  unfold Machine.lookup
  rw [hnone, fieldPath?_field hdot]
  dsimp only
  cases hb : m.vars.get? o with
  | none => exact Allowed.of_isMemory rfl
  | some b =>
    cases b with
    | null | primitive v => exact Allowed.of_isMemory rfl
    | object id =>
      dsimp only
      rw [gives_bind]
      by_cases ha : m.heap.Alive id
      · obtain ⟨obj, hobj, hfreed⟩ := ha
        unfold Heap.field
        rw [Heap.live_eq_ok hobj hfreed]
        change Gives _ _ post
        cases hf : obj.fields.get? f with
        | none => exact hpost _ fun _ => rfl
        | some target =>
          refine hpost _ fun hh => ?_
          have := Heap.fieldRefs_pos hobj (Heap.mem_values_of_get? hf)
          have := hI.unwritten hh target
          omega
      · unfold Heap.field
        rw [Heap.live_eq_error ha]
        exact fun hh => absurd (hI.holds (hB hmem) hh hb id (List.mem_singleton.2 rfl)) ha

theorem sound_loadField (hn : π.named) (hB : B ⊆ Γ.names) (ht : IsTemp t) (ho : Readable π B o) :
    Sound π cfg rounds strict inside Γ false [simple location .load [o ++ "." ++ f] (some t)]
      (Γ.share t) := by
  intro inner m held hI hF
  have htb : t ∈ binds [simple location .load [o ++ "." ++ f] (some t)] := by simp [binds_cons]
  refine leadsAll_single ?_
  rw [leads_load]
  refine hI.tick.gives_field hn hB ho fun b hnull => ?_
  refine .of_scopes (hI.tick.shared ht (hF.apart t htb) (hF.unshared t htb) fun hh => ?_) rfl
  rw [hnull hh]
  exact fun id hid => by cases hid

theorem sound_perform (hs : Serves π cfg) (ho : opcode.isCall = true)
    (htarget : opcode = .callStatic ∨ site.target ∈ Γ.names)
    (hargs : ∀ a ∈ site.args, a ∈ Γ.names) :
    Sound π cfg rounds strict inside Γ false [calling location opcode none site] Γ := by
  intro inner m held hI _
  refine leads_runAll_single.2 (leads_watched ?_)
  rw [perform_calling ho]
  refine hI.tick.leads_call hs htarget hargs ?_ ?_ ?_
  · exact fun m1 hI1 hm1 _ _ _ => .of_scopes hI1 hm1
  · exact fun m1 b hI1 hm1 _ _ _ => .of_scopes hI1 hm1
  · exact fun m1 id hB hm1 _ hthrow => .of_callee (and_eq_false_of_isCall ho (hthrow _ rfl)) hB hm1

theorem sound_test (hs : Serves π cfg) (ht : IsTemp t) (htarget : site.target ∈ Γ.names)
    (hargs : site.args = []) :
    Sound π cfg rounds strict inside Γ false [calling location .call (some t) site]
      (Γ.truth t) := by
  intro inner m held hI hF
  have htb : t ∈ binds [calling location .call (some t) site] := by simp [binds_cons]
  refine leads_runAll_single.2 (leads_watched ?_)
  rw [perform_calling rfl]
  refine hI.tick.leads_call hs (.inr htarget) (by simp [hargs]) ?_ ?_ ?_
  · exact fun m1 hI1 hm1 _ _ _ => .of_scopes (hI1.truth ht) hm1
  · intro m1 b hI1 hm1 hb _ _
    have hr1 : t ∉ m1.registered := by
      rw [registered_eq (m := m) hm1]
      exact hF.apart t htb
    exact .of_scopes ((hI1.bind ht hr1 (hF.unshared t htb)).truth ht) hm1
  · exact fun m1 id hB hm1 _ hthrow => .of_callee (and_eq_false_of_isCall rfl (hthrow _ rfl)) hB hm1

/-! ### Values of branches -/

theorem Registers.mono {F F' : List Frame} {scopes : List OpenScope} (h : Registers F' scopes)
    (hg : Grows F F') : Registers F scopes := by
  unfold Registers Grows at *
  induction hg generalizing scopes with
  | nil => exact h
  | cons hf _ ih =>
    cases h with
    | cons hs h => exact .cons ⟨hs.1.trans hf.1, List.Subset.trans hf.2 hs.2⟩ (ih h)

/-- What an expression registered besides need not be remembered. -/
theorem Inv.shrink {held1 : List ObjectId} (hI : Inv π Γ m held) (h : Inv π Γ1 m1 held1)
    (hc : Calc π B k Γ l Γ1) : Inv π Γ m1 held1 where
  toBalanced := hc.alike.params ▸ h.toBalanced
  frames := h.frames.mono hc.grows
  owned := by
    intro x hx
    rcases h.owned x hx with hx | hx
    · exact .inl hx
    · exact (hc.mem_owned hx).symm
  aliases := fun hh s hs => hc.alike.params ▸ h.aliases hh s (hc.aliases_subset hs)
  temps := hI.temps
  undotted := hI.undotted

/-- Control goes on after an expression whose value a fresh temporary now stands for. -/
theorem After.of_alias {lost : List ObjectId} {b : Binding} (hI : Inv π Γ m held)
    (hc : Calc π B k Γ l Γ1) (hlost : strict = true → lost = [])
    (hI1 : Inv π Γ1 m1 (lost ++ held)) (hbelow : m1.scopes.drop (Γ.frames.length - Γ.floor) =
      m.scopes.drop (Γ.frames.length - Γ.floor))
    (hnew : ∀ s ∈ m1.registered, IsTemp s → s ∈ m.registered ∨ s ∈ binds l)
    (hsub : binds l ⊆ binds r) (ht : IsTemp t) (hF : Fresh Γ r m) (htr : t ∈ binds r)
    (htl : t ∉ binds l)
    (hb : π.held → b.objects ⊆ objectsOf m1.vars (m1.registered ++ Γ1.params) ++ (lost ++ held)) :
    After π strict inside Γ false r (Γ.share t) m held .next
      { m1 with vars := m1.vars.insert t b } := by
  have htr1 : t ∉ m1.registered := by
    intro hmem
    rcases hnew t hmem ht with h | h
    · exact hF.apart t htr h
    · exact htl h
  have hI2 := (hI.shrink hI1 hc).shared ht htr1 (hF.unshared t htr) (hc.alike.params ▸ hb)
  exact ⟨lost, hlost, rfl, hI2, hbelow, fun s hs hst => (hnew s hs hst).imp_right fun h => hsub h⟩

theorem binds_question {n : String} :
    binds [chained location (question k t n x nullBody f setBody v)] =
      t :: n :: (binds nullBody ++ binds setBody) := by
  simp [binds_cons, question, Chain.lists, Case.lists, binds_append]

/-- The value of one branch of a question stands for the value of the whole. -/
theorem leads_answer {body : List Instr} (hI : Inv π Γ m held) (hI1 : Inv π Γ m1 held)
    (hm : m1.scopes = m.scopes) (hc : Calc π B k Γ body Γ1)
    (hbody : Sound π cfg rounds strict inside Γ false body Γ1) (hv : v ∈ Γ1.names)
    (hF : Fresh Γ r m) (hsub : (binds body).Sublist (binds r)) (ht : IsTemp t) (htr : t ∈ binds r)
    (htl : t ∉ binds body) {i : Instr} (hres : i.result = some t) :
    LeadsAll π cfg rounds strict true inside body m1
      fun c m2 => Through c
        (Leads (Allowed π cfg) (finishChain i none (some v)) m2
          (After π strict inside Γ false r (Γ.share t) m held))
        (After π strict inside Γ false r (Γ.share t) m held c m2) := by
  refine (hbody true m1 held hI1 ((hF.sublist hsub).of_scopes hm)).through (fun m2 h => ?_)
    fun c m2 hc h => h.widen hm hc
  obtain ⟨lost, hlost, -, hI2, hbelow, hnew⟩ := h
  rw [leads_finishChain_value, hres]
  refine hI2.gives_name hv fun b hb hback => ?_
  refine .of_alias hI hc hlost hI2 (by rw [hbelow, hm]) ?_ hsub.subset ht hF htr htl hback
  intro s hs hst
  exact (hnew s hs hst).imp_left fun h => registered_eq hm ▸ h

theorem sound_isSet {n : String} (ht : IsTemp t) (hn : IsTemp n) (hx : x ∈ Γ.names)
    (hc1 : Calc π B k Γ nullBody Γ1) (hf : f ∈ Γ1.names) (hc2 : Calc π B k Γ setBody Γ2)
    (hv : v ∈ Γ2.names) (h1 : Sound π cfg rounds strict inside Γ false nullBody Γ1)
    (h2 : Sound π cfg rounds strict inside Γ false setBody Γ2) :
    Sound π cfg rounds strict inside Γ false
      [chained location (question k t n x nullBody f setBody v)] (Γ.share t) := by
  intro inner m held hI hF
  have hnd := hF.nodup
  rw [binds_question] at hnd
  have htr : t ∈ binds [chained location (question k t n x nullBody f setBody v)] := by
    simp [binds_question]
  have hnr : n ∈ binds [chained location (question k t n x nullBody f setBody v)] := by
    simp [binds_question]
  have htl1 : t ∉ binds nullBody := by
    intro h
    simp [h] at hnd
  have htl2 : t ∉ binds setBody := by
    intro h
    simp [h] at hnd
  have hsub1 : (binds nullBody).Sublist
      (binds [chained location (question k t n x nullBody f setBody v)]) := by
    rw [binds_question]
    exact ((List.sublist_append_left _ _).cons _).cons _
  have hsub2 : (binds setBody).Sublist
      (binds [chained location (question k t n x nullBody f setBody v)]) := by
    rw [binds_question]
    exact ((List.sublist_append_right _ _).cons _).cons _
  refine leadsAll_chained ?_
  rw [leads_runChain (show ChainKind.question ≠ .tryCatchFinally by decide) rfl]
  change Leads _ (select _) _ _
  -- the null check binds `n`, and the branch it picks runs in the same scopes
  refine leads_select (Q := fun choice m1 =>
    (choice ≠ .refused → Ending (Allowed π cfg) _ none _ choice m1) ∧
      (choice = .refused → Inv π Γ m1 held ∧ m1.scopes = m.scopes)) ?_
    (fun choice m1 hne h => h.1 hne) (fun h => by cases h) ?_
  · refine leads_tryCases_cons ?_
    refine leadsAll_single ?_
    rw [leads_isNull]
    refine hI.tick.tick.gives_name hx fun b _ _ => ?_
    have hI1 := hI.tick.tick.bind hn (hF.apart n hnr) (hF.unshared n hnr)
      (b := .primitive (b = .null))
    change Leads _ (primitive n) _ _
    rw [leads_primitive, lookup_eq_ok (FinMap.get?_insert_self _ _ _)]
    change if decide (b = .null) = true then _ else _
    split
    · refine leads_andThen_nil ?_
      refine (leads_answer (i := chained location (question k t n x nullBody f setBody v)) hI hI1 rfl
        hc1 h1 hf hF hsub1 ht htr htl1 rfl).mono
        fun c m2 h => ?_
      cases c with
      | next | _ => exact ⟨fun _ => h, fun h => by cases h⟩
    · exact ⟨fun h => absurd rfl h, fun _ => ⟨hI1, rfl⟩⟩
  · rintro _ ⟨⟩ m1 h
    obtain ⟨hI1, hm1⟩ := h.2 rfl
    exact leads_answer hI hI1 hm1 hc2 h2 hv hF hsub2 ht htr htl2 rfl

theorem binds_logicalBlock :
    binds [logicalBlock location t b] =
      t :: binds (b.leftEvaluation ++ b.rightEvaluation ++ b.computation) := by
  simp [binds_cons, binds_append]

theorem sound_logical {Γ3 : Context} (ho : Γ.Ordered) (ht : IsTemp t)
    (hc1 : Calc π B k Γ b.leftEvaluation Γ1) (hleft : b.left ∈ Γ1.names)
    (hcond : b.condition ∈ Γ1.truths) (hc2 : Calc π B k Γ1 b.rightEvaluation Γ2)
    (hc3 : Calc π B k Γ2 b.computation Γ3) (hres : b.result ∈ Γ3.names)
    (h1 : Sound π cfg rounds strict inside Γ false b.leftEvaluation Γ1)
    (h2 : Sound π cfg rounds strict inside Γ1 false b.rightEvaluation Γ2)
    (h3 : Sound π cfg rounds strict inside Γ2 false b.computation Γ3) :
    Sound π cfg rounds strict inside Γ false [logicalBlock location t b] (Γ.share t) := by
  intro inner m held hI hF
  have hnd := hF.nodup
  have htr : t ∈ binds [logicalBlock location t b] := by
    rw [binds_logicalBlock]
    exact List.mem_cons_self
  rw [binds_logicalBlock] at hnd
  have htl := (List.nodup_cons.1 hnd).1
  have hsub : binds (b.leftEvaluation ++ b.rightEvaluation ++ b.computation) ⊆
      binds [logicalBlock location t b] := by
    rw [binds_logicalBlock]
    exact List.subset_cons_self _ _
  have hF0 : Fresh Γ (b.leftEvaluation ++ b.rightEvaluation ++ b.computation) (ticked m) :=
    (hF.sublist (by rw [binds_logicalBlock]; exact List.sublist_cons_self _ _)).of_scopes rfl
  have hsub1 : binds b.leftEvaluation ⊆
      binds (b.leftEvaluation ++ b.rightEvaluation ++ b.computation) := by
    rw [binds_append, binds_append, List.append_assoc]
    exact List.subset_append_left _ _
  refine leadsAll_logicalBlock (leads_runLogical ?_)
  refine (h1 true (ticked m) held hI.tick hF0.left.left).through (fun m1 hm1 => ?_)
    fun c m1 hc h => h.widen rfl hc
  obtain ⟨lost, hlost, -, hI1, hbelow, hnew⟩ := hm1
  rw [leads_primitive]
  refine gives_lookup (hI1.temps _ (.inr hcond)).dot_notMem fun v _ => ?_
  cases v with
  | null | object _ => exact Allowed.of_isMemory rfl
  | primitive v =>
    dsimp only
    split
    -- the left side decides, and its operand is the value
    · refine hI1.gives_name hleft fun v _ hback => ?_
      exact .of_alias hI hc1 hlost hI1 hbelow hnew (List.Subset.trans hsub1 hsub) ht hF htr
        (fun h => htl (hsub1 h)) hback
    · refine (h2 true m1 _ hI1 (hF0.left.right hnew fun s hs => hc1.mem_aliases hs)).through
        (fun m2 hm2 => ?_) fun c m2 hc h => (h.trans ho hc1.alike hlost hbelow hnew).widen rfl hc
      have hm2 := hm2.trans ho hc1.alike hlost hbelow hnew
      obtain ⟨lost2, hlost2, -, hI2, hbelow2, hnew2⟩ := hm2
      have ha2 := hc1.alike.trans hc2.alike
      refine (h3 true m2 _ hI2 (hF0.right hnew2 fun s hs => (hc1.append hc2).mem_aliases hs)).through
        (fun m3 hm3 => ?_) fun c m3 hc h =>
        (h.trans ho ha2 hlost2 hbelow2 hnew2).widen rfl hc
      have hm3 := hm3.trans ho ha2 hlost2 hbelow2 hnew2
      obtain ⟨lost3, hlost3, -, hI3, hbelow3, hnew3⟩ := hm3
      refine hI3.gives_name hres fun v _ hback => ?_
      exact .of_alias hI ((hc1.append hc2).append hc3) hlost3 hI3 hbelow3 hnew3 hsub ht hF htr htl
        hback

/-- The code of an expression does what the layout says. -/
theorem Calc.sound (hs : Serves π cfg) (hn : π.named) (hc : Calc π B k Γ l Γ1) (ho : Γ.Ordered)
    (hB : B ⊆ Γ.names) : Sound π cfg rounds strict inside Γ false l Γ1 := by
  induction hc with
  | nil => exact .nil
  | append h _ ih ih' =>
    exact .append ho h.alike (fun s hs => h.mem_aliases hs) (ih ho hB)
      (ih' (ho.alike h.alike) (List.Subset.trans hB h.names_subset))
  | create ht hk hop => exact sound_create hs ht hk hop
  | load ht hx => exact sound_load hn hB ht hx
  | loadField ht hx => exact sound_loadField hn hB ht hx
  | call ht hk hop hr htarget hargs => exact sound_call hs ht hk hop hr htarget hargs
  | perform hop _ htarget hargs => exact sound_perform hs hop htarget hargs
  | test ht _ htarget hargs => exact sound_test hs ht htarget hargs
  | isSet ht hn hx h hf h' hv ih ih' =>
    exact sound_isSet ht hn hx h hf h' hv (ih ho hB) (ih' ho hB)
  | logical ht h hleft hcond h' h'' hres ih ih' ih'' =>
    have ho1 := ho.alike h.alike
    have hB1 := List.Subset.trans hB h.names_subset
    exact sound_logical ho ht h hleft hcond h' h'' hres (ih ho hB) (ih' ho1 hB1)
      (ih'' (ho1.alike h'.alike) (List.Subset.trans hB1 h'.names_subset))

end

end ScopedIR.Layout
