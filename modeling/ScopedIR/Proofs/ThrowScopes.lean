import ScopedIR.Proofs.CheckedRuns

/-!
# Scopes at a throw

Inside a chain with a protected block, the check compares how many scopes are open at a throw with how
many were open at the chain. A list that departs may leave scopes that were open around it, so the
numbers may agree although the scopes do not: code that leaves a scope of the chain and enters another
is accepted.

Since no scope is entered twice, this is all that can happen. The scopes at the throw are some of
those at the chain, the outermost ones, and in place of the others as many that were entered since.

Main definitions:

* `ScopeCheck.Throws`: the throws of a list outside of further chains, and the scopes open at them;
* `ScopeCheck.ThrowsInChain`: the same with the scopes open at the innermost chain around the throw;
* `ScopeCheck.ComesTo`: the scopes that the check of a body starts a block with.

Main statements: `scopes_at_throw_of_checkScopes`, and `throw_in_other_scope` for code that leaves a
scope of its chain.
-/

namespace ScopedIR

namespace ScopeCheck

variable {i : Instr} {l rest : List Instr} {b : Nat} {s s' : Scopes} {flow : Flow}
  {r : Flow × Scopes} {c e o t : List String}

/-! ### Throws and the scopes open at them -/

/-- The open scopes behind an instruction, by its opcode alone. -/
def moved (i : Instr) (opened : List String) : List String :=
  match i.opcode with
  | .scopeEnter => i.scope?.getD "" :: opened
  | .scopeExit => opened.tail
  | _ => opened

/-- With some scopes open, control comes to a throw of the list with others open. The throw may be
nested, but in no chain with a protected block. -/
inductive Throws : List Instr → List String → List String → Prop
  | here {i : Instr} {rest : List Instr} {o : List String} (hthrow : i.opcode = .throw) :
      Throws (i :: rest) o o
  | nested {i : Instr} {rest l : List Instr} {o t : List String} (hgo : i.opcode.departs = false)
      (hprotects : i.protects = false) (hl : l ∈ i.lists) (h : Throws l (moved i o) t) :
      Throws (i :: rest) o t
  | later {i : Instr} {rest : List Instr} {o t : List String} (hgo : i.opcode.departs = false)
      (h : Throws rest (moved i o) t) : Throws (i :: rest) o t

/-- With the scopes `o` open, control comes to a chain with a protected block with `c` open, and to a
throw whose innermost such chain it is with `t` open. -/
inductive ThrowsInChain : List Instr → List String → List String → List String → Prop
  | here {i : Instr} {rest l : List Instr} {o t : List String} (hgo : i.opcode.departs = false)
      (hprotects : i.protects = true) (hl : l ∈ i.lists) (h : Throws l (moved i o) t) :
      ThrowsInChain (i :: rest) o (moved i o) t
  | nested {i : Instr} {rest l : List Instr} {o c t : List String} (hgo : i.opcode.departs = false)
      (hl : l ∈ i.lists) (h : ThrowsInChain l (moved i o) c t) : ThrowsInChain (i :: rest) o c t
  | later {i : Instr} {rest : List Instr} {o c t : List String} (hgo : i.opcode.departs = false)
      (h : ThrowsInChain rest (moved i o) c t) : ThrowsInChain (i :: rest) o c t

/-! ### One instruction -/

/-- What an instruction that does not depart does to the scopes. -/
inductive Moves (s : Scopes) : Scopes → Prop
  | enter {k : String} (hk : k ∉ s.entered) : Moves s ⟨k :: s.entered, k :: s.opened⟩
  | exit : Moves s { s with opened := s.opened.tail }
  | still : Moves s s

theorem Moves.entered (h : Moves s s') {k : String} (hk : k ∈ s.entered) : k ∈ s'.entered := by
  cases h with
  | enter => exact List.mem_cons_of_mem _ hk
  | exit | still => exact hk

theorem event_moves (hgo : i.opcode.departs = false) (h : event i b s = .ok (flow, s')) :
    flow = .fallThrough ∧ Moves s s' ∧ s'.opened = moved i s.opened := by
  by_cases henter : i.opcode = .scopeEnter
  · simp only [event, henter] at h
    split at h
    · cases h
    · next hk =>
      cases h
      exact ⟨rfl, .enter hk, by simp only [moved, henter]⟩
  by_cases hexit : i.opcode = .scopeExit
  · simp only [event, hexit] at h
    split at h
    · cases h
    · next top outer hopened =>
      split at h
      · cases h
        refine ⟨rfl, ?_, by simp only [moved, hexit, hopened, List.tail_cons]⟩
        have : outer = s.opened.tail := by rw [hopened, List.tail_cons]
        rw [this]
        exact .exit
      · cases h
  · obtain ⟨rfl, hflow⟩ := event_unmoved henter hexit h
    rw [hgo] at hflow
    refine ⟨hflow, .still, ?_⟩
    unfold moved
    split
    · contradiction
    · contradiction
    · rfl

/-! ### Scopes that have been entered -/

/-- A check that forgets no scope that has been entered. -/
def Grows (step : Step) : Prop :=
  ∀ b s flow s', step b s = .ok (flow, s') → ∀ k ∈ s.entered, k ∈ s'.entered

variable {steps : List Step} {context : String} {lists : List (List Step)}

theorem grows_runAll (h : ∀ step ∈ steps, Grows step) : Grows (runAll steps) := by
  induction steps with
  | nil =>
    intro b s flow s' hrun k hk
    cases hrun
    exact hk
  | cons step steps ih =>
    intro b s flow s' hrun k hk
    obtain ⟨⟨flow1, s1⟩, hstep, hrest⟩ := except_bind_eq_ok.1 hrun
    have hk1 := h step List.mem_cons_self b s flow1 s1 hstep k hk
    cases flow1 with
    | departed =>
      cases hrest
      exact hk1
    | fallThrough =>
      exact ih (fun step hmem => h step (List.mem_cons_of_mem _ hmem)) b s1 flow s' hrest k hk1

theorem nested_entered (h : Grows (runAll steps)) (hn : nested context steps b s = .ok s') :
    ∀ k ∈ s.entered, k ∈ s'.entered := by
  intro k hk
  obtain ⟨⟨flow, inner⟩, hrun, hn⟩ := except_bind_eq_ok.1 hn
  have hinner := h b s flow inner hrun k hk
  cases flow with
  | departed =>
    cases hn
    exact hinner
  | fallThrough =>
    simp only at hn
    split at hn
    · cases hn
      exact hinner
    · cases hn

theorem nestedAll_entered (h : ∀ steps ∈ lists, Grows (runAll steps))
    (hn : nestedAll context lists b s = .ok s') : ∀ k ∈ s.entered, k ∈ s'.entered := by
  induction lists generalizing s with
  | nil =>
    cases hn
    exact fun k hk => hk
  | cons steps lists ih =>
    intro k hk
    obtain ⟨s1, hfirst, hn⟩ := except_bind_eq_ok.1 hn
    have hk1 := nested_entered (h steps List.mem_cons_self) hfirst k hk
    exact ih (fun steps hmem => h steps (List.mem_cons_of_mem _ hmem)) hn k hk1

/-- A nested list is checked with the scopes around it open, and behind what is entered there. -/
theorem exists_runAll_of_nestedAll (h : ∀ steps ∈ lists, Grows (runAll steps))
    (hn : nestedAll context lists b s = .ok s') (hmem : steps ∈ lists) :
    ∃ E r, (∀ k ∈ s.entered, k ∈ E) ∧ runAll steps b ⟨E, s.opened⟩ = .ok r := by
  induction lists generalizing s with
  | nil => cases hmem
  | cons first lists ih =>
    obtain ⟨s1, hfirst, hn⟩ := except_bind_eq_ok.1 hn
    rcases List.mem_cons.1 hmem with rfl | hmem
    · obtain ⟨r, hrun, -⟩ := except_bind_eq_ok.1 hfirst
      exact ⟨s.entered, r, fun k hk => hk, hrun⟩
    · have hone : nestedAll context [first] b s = .ok s1 :=
        except_bind_eq_ok.2 ⟨s1, hfirst, rfl⟩
      obtain ⟨E, r, hE, hrun⟩ :=
        ih (fun steps hm => h steps (List.mem_cons_of_mem _ hm)) hn hmem
      rw [opened_nestedAll hone] at hrun
      exact ⟨E, r, fun k hk => hE k (nested_entered (h first List.mem_cons_self) hfirst k hk), hrun⟩

/-- A return or a throw departs, and does nothing else. -/
theorem checkScopes_of_departs (hd : i.opcode.departs = true)
    (h : i.checkScopes b s = .ok (flow, s')) : flow = .departed ∧ s' = s := by
  have henter : i.opcode ≠ .scopeEnter := by
    intro hop
    rw [hop] at hd
    cases hd
  have hexit : i.opcode ≠ .scopeExit := by
    intro hop
    rw [hop] at hd
    cases hd
  obtain ⟨s1, hevent, hdeparted, -⟩ := Instr.checkScopes_eq_ok h
  obtain ⟨rfl, hflow⟩ := event_unmoved henter hexit hevent
  rw [hd] at hflow
  exact ⟨hflow, hdeparted hflow⟩

theorem grows_checkScopes (i : Instr) : Grows i.checkScopes := by
  induction i using Instr.nested_induction with
  | h i ih =>
    have hlists : ∀ steps ∈ i.lists.map (·.map Instr.checkScopes), Grows (runAll steps) := by
      intro steps hsteps
      obtain ⟨l, hl, rfl⟩ := List.mem_map.1 hsteps
      apply grows_runAll
      intro step hstep
      obtain ⟨j, hj, rfl⟩ := List.mem_map.1 hstep
      exact ih l hl j hj
    intro b s flow s' hcheck k hk
    cases hgo : i.opcode.departs with
    | true =>
      rw [(checkScopes_of_departs hgo hcheck).2]
      exact hk
    | false =>
      obtain ⟨s1, hevent, -, hnested⟩ := Instr.checkScopes_eq_ok hcheck
      obtain ⟨hflow, hmoves, -⟩ := event_moves hgo hevent
      obtain ⟨context, hall⟩ := hnested hflow
      exact nestedAll_entered hlists hall k (hmoves.entered hk)

theorem grows_list (l : List Instr) : Grows (list l) := by
  apply grows_runAll
  intro step hstep
  obtain ⟨i, -, rfl⟩ := List.mem_map.1 hstep
  exact grows_checkScopes i

theorem grows_lists (i : Instr) :
    ∀ steps ∈ i.lists.map (·.map Instr.checkScopes), Grows (runAll steps) := by
  intro steps hsteps
  obtain ⟨l, -, rfl⟩ := List.mem_map.1 hsteps
  exact grows_list l

/-- The check of a list that does not depart at its first instruction. -/
theorem list_cons_eq_ok (hgo : i.opcode.departs = false) (h : list (i :: rest) b s = .ok r) :
    ∃ context s1 s2, Moves s s1 ∧ s1.opened = moved i s.opened ∧
      nestedAll context (i.lists.map (·.map Instr.checkScopes))
        (if i.protects then s1.opened.length else b) s1 = .ok s2 ∧
      list rest b s2 = .ok r := by
  obtain ⟨⟨flow, s2⟩, hcheck, hrest⟩ := except_bind_eq_ok.1 h
  obtain ⟨s1, hevent, -, hnested⟩ := Instr.checkScopes_eq_ok hcheck
  obtain ⟨rfl, hmoves, hopened⟩ := event_moves hgo hevent
  obtain ⟨context, hall⟩ := hnested rfl
  exact ⟨context, s1, s2, hmoves, hopened, hall, hrest⟩

/-! ### From the chain to the throw -/

/-- The scopes `t` are outermost ones of `c`, and others that are none of `e`. -/
def Since (e c t : List String) : Prop :=
  ∃ fresh kept, t = fresh ++ kept ∧ kept <:+ c ∧ ∀ k ∈ fresh, k ∉ e

theorem Moves.since (h : Moves s s') (he : ∀ k ∈ e, k ∈ s.entered) (hs : Since e c s.opened) :
    Since e c s'.opened := by
  obtain ⟨fresh, kept, hopened, hkept, hfresh⟩ := hs
  cases h with
  | @enter k hk =>
    refine ⟨k :: fresh, kept, congrArg (k :: ·) hopened, hkept, fun k' hk' => ?_⟩
    rcases List.mem_cons.1 hk' with rfl | hk'
    · exact fun hmem => hk (he _ hmem)
    · exact hfresh k' hk'
  | exit =>
    cases fresh with
    | nil =>
      refine ⟨[], kept.tail, congrArg List.tail hopened, ?_, fun k hk => by cases hk⟩
      exact (List.tail_suffix kept).trans hkept
    | cons k fresh =>
      exact ⟨fresh, kept, congrArg List.tail hopened, hkept,
        fun k' hk' => hfresh k' (List.mem_cons_of_mem _ hk')⟩
  | still => exact ⟨fresh, kept, hopened, hkept, hfresh⟩

/-- At a throw outside of chains, as many scopes are open as it unwinds to. -/
theorem Throws.since (h : Throws l o t) (ho : s.opened = o) (hl : list l b s = .ok r)
    (he : ∀ k ∈ e, k ∈ s.entered) (hs : Since e c s.opened) : t.length = b ∧ Since e c t := by
  induction h generalizing s r with
  | @here i rest o hthrow =>
    subst ho
    refine ⟨?_, hs⟩
    obtain ⟨⟨flow, s2⟩, hcheck, -⟩ := except_bind_eq_ok.1 hl
    obtain ⟨s1, hevent, -⟩ := Instr.checkScopes_eq_ok hcheck
    simp only [event, hthrow] at hevent
    split at hevent
    · assumption
    · cases hevent
  | @nested i rest l o t hgo hprotects hmem _ ih =>
    subst ho
    obtain ⟨context, s1, s2, hmoves, hopened, hall, -⟩ := list_cons_eq_ok hgo hl
    rw [hprotects, if_neg Bool.false_ne_true] at hall
    obtain ⟨E, r', hE, hrun⟩ :=
      exists_runAll_of_nestedAll (grows_lists i) hall (List.mem_map_of_mem hmem)
    exact ih (s := ⟨E, s1.opened⟩) hopened hrun (fun k hk => hE k (hmoves.entered (he k hk)))
      (hmoves.since he hs)
  | @later i rest o t hgo _ ih =>
    subst ho
    obtain ⟨context, s1, s2, hmoves, hopened, hall, hrest⟩ := list_cons_eq_ok hgo hl
    have hopened2 : s2.opened = s1.opened := opened_nestedAll hall
    refine ih (hopened2.trans hopened) hrest (fun k hk => ?_) ?_
    · exact nestedAll_entered (grows_lists i) hall k (hmoves.entered (he k hk))
    · rw [hopened2]
      exact hmoves.since he hs

/-- Every open scope has been entered. -/
def Known (s : Scopes) : Prop := ∀ k ∈ s.opened, k ∈ s.entered

theorem Moves.known (h : Moves s s') (hs : Known s) : Known s' := by
  intro k hk
  cases h with
  | enter =>
    rcases List.mem_cons.1 hk with rfl | hk
    · exact List.mem_cons_self
    · exact List.mem_cons_of_mem _ (hs k hk)
  | exit => exact hs k (List.mem_of_mem_tail hk)
  | still => exact hs k hk

/-- A list that runs to its end leaves no scope open that has not been entered. -/
theorem known_list (h : list l b s = .ok (.fallThrough, s')) (hs : Known s) : Known s' := by
  induction l generalizing s with
  | nil =>
    cases h
    exact hs
  | cons i rest ih =>
    cases hgo : i.opcode.departs with
    | true =>
      obtain ⟨⟨flow, s1⟩, hcheck, h⟩ := except_bind_eq_ok.1 h
      obtain ⟨rfl, -⟩ := checkScopes_of_departs hgo hcheck
      cases h
    | false =>
      obtain ⟨context, s1, s2, hmoves, -, hall, hrest⟩ := list_cons_eq_ok hgo h
      apply ih hrest
      intro k hk
      rw [opened_nestedAll hall] at hk
      exact nestedAll_entered (grows_lists i) hall k (hmoves.known hs k hk)

/-- At a throw in a chain as many scopes are open as at the chain, and those that were not open there
have been entered since. -/
theorem ThrowsInChain.since (h : ThrowsInChain l o c t) (ho : s.opened = o)
    (hl : list l b s = .ok r) (hs : Known s) : t.length = c.length ∧ Since c c t := by
  induction h generalizing s r b with
  | @here i rest l o t hgo hprotects hmem hthrows =>
    subst ho
    obtain ⟨context, s1, s2, hmoves, hopened, hall, -⟩ := list_cons_eq_ok hgo hl
    rw [hprotects, if_pos rfl] at hall
    obtain ⟨E, r', hE, hrun⟩ :=
      exists_runAll_of_nestedAll (grows_lists i) hall (List.mem_map_of_mem hmem)
    have hknown := hmoves.known hs
    rw [← hopened] at hthrows ⊢
    exact hthrows.since (s := ⟨E, s1.opened⟩) rfl hrun (fun k hk => hE k (hknown k hk))
      ⟨[], s1.opened, rfl, List.suffix_refl _, fun k hk => by cases hk⟩
  | @nested i rest l o c t hgo hmem _ ih =>
    subst ho
    obtain ⟨context, s1, s2, hmoves, hopened, hall, -⟩ := list_cons_eq_ok hgo hl
    obtain ⟨E, r', hE, hrun⟩ :=
      exists_runAll_of_nestedAll (grows_lists i) hall (List.mem_map_of_mem hmem)
    exact ih (s := ⟨E, s1.opened⟩) hopened hrun fun k hk => hE k (hmoves.known hs k hk)
  | @later i rest o c t hgo _ ih =>
    subst ho
    obtain ⟨context, s1, s2, hmoves, hopened, hall, hrest⟩ := list_cons_eq_ok hgo hl
    have hopened2 : s2.opened = s1.opened := opened_nestedAll hall
    refine ih (hopened2.trans hopened) hrest fun k hk => ?_
    rw [hopened2] at hk
    exact nestedAll_entered (grows_lists i) hall k (hmoves.known hs k hk)

/-! ### Blocks -/

/-- Checking blocks in the given order, with given starts and scopes that have been entered, the check
comes to a block with the scopes that it starts the block with. -/
inductive Comes (body : Body) :
    List Nat → FinMap Nat (List String) → List String → Nat → Scopes → Prop
  | here {b : Nat} {rest : List Nat} {starts : FinMap Nat (List String)} {E : List String} :
      Comes body (b :: rest) starts E b ⟨E, (starts.get? b).getD []⟩
  | departed {b b' : Nat} {rest : List Nat} {starts : FinMap Nat (List String)} {E : List String}
      {s s' : Scopes} (hlist : list (blockOf body b).instrs 0 ⟨E, (starts.get? b).getD []⟩ =
        .ok (.departed, s)) (hrest : Comes body rest starts s.entered b' s') :
      Comes body (b :: rest) starts E b' s'
  | onward {b b' : Nat} {rest : List Nat} {starts starts' : FinMap Nat (List String)}
      {E : List String} {s s' : Scopes}
      (hlist : list (blockOf body b).instrs 0 ⟨E, (starts.get? b).getD []⟩ = .ok (.fallThrough, s))
      (hstarts : handOver body s.opened (blockOf body b).succs starts = .ok starts')
      (hrest : Comes body rest starts' s.entered b' s') : Comes body (b :: rest) starts E b' s'

/-- The check of a body comes to a block with the scopes that it starts the block with. -/
def ComesTo (body : Body) (b : Nat) (s : Scopes) : Prop :=
  Comes body body.flow.order (body.entry?.elim .empty fun b => FinMap.empty.insert b []) [] b s

variable {body : Body} {order : List Nat} {starts starts' : FinMap Nat (List String)}
  {E : List String} {b' : Nat}

/-- What handing scopes over makes of the starts. -/
theorem get?_handOver {succs : List Nat} (h : handOver body o succs starts = .ok starts')
    {v : List String} (hv : starts'.get? b = some v) : starts.get? b = some v ∨ v = o := by
  induction succs generalizing starts with
  | nil =>
    cases h
    exact .inl hv
  | cons t rest ih =>
    unfold handOver at h
    split at h
    · split at h
      · exact ih h
      · cases h
    · obtain hold | ho := ih h
      · by_cases htb : t = b
        · subst htb
          rw [FinMap.get?_insert_self] at hold
          exact .inr (Option.some.inj hold).symm
        · rw [FinMap.get?_insert_ne _ htb] at hold
          exact .inl hold
      · exact .inr ho

/-- The check of blocks goes from the first one to the others. -/
theorem blocks_cons_eq_ok (h : blocks body (b :: order) starts E = .ok ()) :
    ∃ flow s, list (blockOf body b).instrs 0 ⟨E, (starts.get? b).getD []⟩ = .ok (flow, s) ∧
      match flow with
      | .departed => blocks body order starts s.entered = .ok ()
      | .fallThrough => ∃ starts',
          handOver body s.opened (blockOf body b).succs starts = .ok starts' ∧
            blocks body order starts' s.entered = .ok () := by
  unfold blocks at h
  obtain ⟨⟨flow, s⟩, hlist, h⟩ := except_bind_eq_ok.1 h
  refine ⟨flow, s, hlist, ?_⟩
  cases flow with
  | departed => exact h
  | fallThrough =>
    simp only at h
    split at h
    · cases h
    · obtain ⟨starts', hover, h⟩ := except_bind_eq_ok.1 h
      exact ⟨starts', hover, h⟩

/-- The check comes to every block of its order. -/
theorem exists_comes (h : blocks body order starts E = .ok ()) (hb : b ∈ order) :
    ∃ s, Comes body order starts E b s := by
  induction order generalizing starts E with
  | nil => cases hb
  | cons first order ih =>
    obtain ⟨flow, s, hlist, hrest⟩ := blocks_cons_eq_ok h
    rcases List.mem_cons.1 hb with rfl | hb
    · exact ⟨_, .here⟩
    cases flow with
    | departed =>
      obtain ⟨s', hs'⟩ := ih hrest hb
      exact ⟨s', .departed hlist hs'⟩
    | fallThrough =>
      obtain ⟨starts', hover, hrest⟩ := hrest
      obtain ⟨s', hs'⟩ := ih hrest hb
      exact ⟨s', .onward hlist hover hs'⟩

/-- Blocks are accepted from the scopes that the check comes to them with. -/
theorem Comes.accepted (h : Comes body order starts E b s)
    (hok : blocks body order starts E = .ok ())
    (hstarts : ∀ b v, starts.get? b = some v → ∀ k ∈ v, k ∈ E) :
    Known s ∧ ∃ r, list (blockOf body b).instrs 0 s = .ok r := by
  have hknown : ∀ {starts : FinMap Nat (List String)} {E : List String} {b : Nat},
      (∀ b v, starts.get? b = some v → ∀ k ∈ v, k ∈ E) →
      Known ⟨E, (starts.get? b).getD []⟩ := by
    intro starts E b hstarts k hk
    cases hv : starts.get? b with
    | none =>
      rw [hv] at hk
      cases hk
    | some v =>
      rw [hv] at hk
      exact hstarts b v hv k hk
  induction h with
  | here =>
    obtain ⟨flow, s, hlist, -⟩ := blocks_cons_eq_ok hok
    exact ⟨hknown hstarts, _, hlist⟩
  | departed hlist _ ih =>
    obtain ⟨flow, s, hlist', hrest⟩ := blocks_cons_eq_ok hok
    rw [hlist] at hlist'
    cases hlist'
    exact ih hrest fun b v hv k hk => grows_list _ _ _ _ _ hlist k (hstarts b v hv k hk)
  | @onward _ _ _ starts starts' _ s _ hlist hover _ ih =>
    obtain ⟨flow, s', hlist', hrest⟩ := blocks_cons_eq_ok hok
    rw [hlist] at hlist'
    cases hlist'
    obtain ⟨starts'', hover', hrest⟩ := hrest
    rw [hover] at hover'
    cases hover'
    refine ih hrest fun b v hv k hk => ?_
    obtain hold | rfl := get?_handOver hover hv
    · exact grows_list _ _ _ _ _ hlist k (hstarts b v hold k hk)
    · exact known_list hlist (hknown hstarts) k hk

end ScopeCheck

open ScopeCheck

/-- In an accepted operation, a throw in a chain with a protected block has as many scopes open as the
chain has. They are the outermost scopes of the chain and others that have been entered since, so they
are the scopes of the chain exactly if none of those is missing. -/
theorem scopes_at_throw_of_checkScopes (op : Operation) (hok : op.checkScopes = .ok ()) :
    (∀ b ∈ op.body.flow.order, ∃ s, ComesTo op.body b s) ∧
    ∀ b s c t, ComesTo op.body b s → ThrowsInChain (blockOf op.body b).instrs s.opened c t →
      ∃ gone fresh kept, c = gone ++ kept ∧ t = fresh ++ kept ∧ fresh.length = gone.length ∧
        (∀ k ∈ fresh, k ∉ c) ∧ (t = c ↔ gone = []) := by
  have hbody := (Operation.checkScopes_eq_ok_iff op).1 hok
  refine ⟨fun b hb => exists_comes hbody hb, fun b s c t hcomes hthrows => ?_⟩
  have hstarts : ∀ (b : Nat) (v : List String),
      (op.body.entry?.elim .empty fun b => FinMap.empty.insert b []).get? b = some v →
        ∀ k ∈ v, k ∈ ([] : List String) := by
    intro b v hv k hk
    cases hentry : op.body.entry? with
    | none =>
      rw [hentry] at hv
      cases hv
    | some entry =>
      rw [hentry] at hv
      exact FinMap.forall_insert (P := fun _ v => ∀ k ∈ v, k ∈ []) (by simp) (by rintro _ _ ⟨⟩) b v hv k hk
  obtain ⟨hknown, r, hlist⟩ := hcomes.accepted hbody hstarts
  obtain ⟨hlength, fresh, kept, rfl, ⟨gone, rfl⟩, hfresh⟩ := hthrows.since rfl hlist hknown
  have hsame : fresh.length = gone.length := by
    rw [List.length_append, List.length_append] at hlength
    omega
  refine ⟨gone, fresh, kept, rfl, rfl, hsame, hfresh, ?_⟩
  constructor
  · intro heq
    cases fresh with
    | nil => exact List.length_eq_zero_iff.1 hsame.symm
    | cons k fresh =>
      refine absurd ?_ (hfresh k List.mem_cons_self)
      rw [← heq]
      exact List.mem_cons_self
  · rintro rfl
    rw [List.length_eq_zero_iff.1 hsame]

/-- A protected block that leaves the scope around it and enters another before it throws. -/
def leaveAndThrow : Operation where
  name := "run"
  returnType := TypeName.void
  body := { index := ⟨[("entry", 0)]⟩, blocks := ⟨#[{
    label := "entry"
    instrs := [
      { opcode := .scopeEnter, operands := ["outer"] },
      { opcode := .loadLiteral, operands := ["1", TypeName.integer], result := some "x" },
      { opcode := .retain, operands := ["x"] },
      { opcode := .chain
        operands := ["TRY_CATCH_FINALLY", "t"]
        payload := .chain {
          kind := .tryCatchFinally
          scope := "t"
          cases := [{ kind := .handler TypeName.integer "e", condition := { primitive := "" }
                      body := {} }]
          tryBlock := some {
            scope := "t"
            exception := "caught"
            evaluation := [
              { opcode := .scopeExit, operands := ["outer"] },
              { opcode := .scopeEnter, operands := ["other"] },
              { opcode := .throw, operands := ["x"] }] } } },
      { opcode := .scopeExit, operands := ["outer"] },
      { opcode := .ret }] }]⟩ }

theorem order_leaveAndThrow : leaveAndThrow.body.flow.order = [0] := by cbv

theorem checkScopes_leaveAndThrow : leaveAndThrow.checkScopes = .ok () := by
  unfold Operation.checkScopes ScopeCheck.body
  rw [order_leaveAndThrow]
  decide +kernel

theorem comesTo_leaveAndThrow : ComesTo leaveAndThrow.body 0 ⟨[], []⟩ := by
  unfold ComesTo
  rw [order_leaveAndThrow]
  exact .here

theorem throwsInChain_leaveAndThrow :
    ThrowsInChain (blockOf leaveAndThrow.body 0).instrs [] ["outer"] ["other"] := by
  refine .later rfl (.later rfl (.later rfl (.here rfl rfl List.mem_cons_self ?_)))
  exact .later rfl (.later rfl (.here rfl))

/-- The scope of the chain is missing at the throw, and another is open in its place. -/
theorem scopes_at_throw_leaveAndThrow : leaveAndThrow.checkScopes = .ok () ∧
    ∃ gone fresh kept, ["outer"] = gone ++ kept ∧ ["other"] = fresh ++ kept ∧
      fresh.length = gone.length ∧ (∀ k ∈ fresh, k ∉ ["outer"]) ∧
      (["other"] = ["outer"] ↔ gone = []) :=
  ⟨checkScopes_leaveAndThrow,
    (scopes_at_throw_of_checkScopes leaveAndThrow checkScopes_leaveAndThrow).2 0 ⟨[], []⟩ ["outer"]
      ["other"] comesTo_leaveAndThrow throwsInChain_leaveAndThrow⟩

/-- Code is accepted that throws in a chain with other scopes open than the chain has. -/
theorem throw_in_other_scope : ¬ ∀ op : Operation, op.checkScopes = .ok () →
    ∀ b s c t, ComesTo op.body b s →
      ThrowsInChain (blockOf op.body b).instrs s.opened c t → t = c := by
  intro h
  have hsame := h leaveAndThrow checkScopes_leaveAndThrow 0 ⟨[], []⟩ ["outer"] ["other"]
    comesTo_leaveAndThrow throwsInChain_leaveAndThrow
  exact absurd hsame (by decide)

end ScopedIR
