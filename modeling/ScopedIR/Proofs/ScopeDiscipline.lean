import ScopedIR.Proofs.LoweredOperation
import ScopedIR.ScopeCheck

/-!
# Lowered code passes the scope check

Code that is laid out nests its scopes: a scope is entered once, since scopes are numbered in order,
and left where it was entered; a registration names an open scope; a return leaves every scope and a
throw those opened since the innermost try chain. So the check accepts the code of every module.

Main definition: `ScopeCheck.Accepts`, what the check makes of a list of instructions.

Main statements: `Layout.Emits.accepts`, by induction on the layout, and `checkScopes_of_lower`.
-/

namespace ScopedIR

open Instr Layout

namespace ScopeCheck

/-- How a list ends in which control departs or not. -/
def Flow.ofDeparts (d : Bool) : Flow := if d then .departed else .fallThrough

/-- With the scopes `opened` open, the check accepts the code `l`, whatever other scopes have been
entered before. It goes on with `opened'` open unless control departs. -/
def Accepts (boundary : Nat) (opened : List String) (d : Bool) (l : List Instr)
    (opened' : List String) : Prop :=
  ∀ E, (enters l).Nodup → (∀ k ∈ enters l, k ∉ E) →
    ∃ s', list l boundary ⟨E, opened⟩ = .ok (.ofDeparts d, s') ∧
      (∀ k ∈ s'.entered, k ∈ E ∨ k ∈ enters l) ∧ (d = false → s'.opened = opened')

/-! ### Lists -/

section

variable {b : Nat} {o o' o'' : List String} {d : Bool} {l r : List Instr}

theorem runAll_append {steps rest : List Step} {s s' : Scopes}
    (h : runAll steps b s = .ok (.fallThrough, s')) :
    runAll (steps ++ rest) b s = runAll rest b s' := by
  induction steps generalizing s with
  | nil =>
    cases h
    rfl
  | cons step steps ih =>
    obtain ⟨⟨flow, s1⟩, hstep, h⟩ := except_bind_eq_ok.1 h
    cases flow with
    | departed => cases h
    | fallThrough =>
      rw [List.cons_append]
      exact (congrArg (· >>= _) hstep).trans (ih h)

theorem list_singleton (i : Instr) (s : Scopes) : list [i] b s = i.checkScopes b s := by
  change (i.checkScopes b s >>= _) = _
  cases h : i.checkScopes b s with
  | error v => rfl
  | ok r =>
    obtain ⟨flow, s'⟩ := r
    cases flow <;> rfl

theorem Accepts.nil : Accepts b o false [] o :=
  fun E _ _ => ⟨⟨E, o⟩, rfl, fun _ hk => .inl hk, fun _ => rfl⟩

theorem Accepts.append (h : Accepts b o false l o') (h' : Accepts b o' d r o'') :
    Accepts b o d (l ++ r) o'' := by
  intro E hnd hE
  rw [enters_append] at hnd hE ⊢
  obtain ⟨hl, hr, hdisj⟩ := List.nodup_append.1 hnd
  obtain ⟨⟨E1, o1⟩, h1, hE1, ho1⟩ := h E hl fun k hk => hE k (List.mem_append_left _ hk)
  obtain rfl : o1 = o' := ho1 rfl
  have hfresh : ∀ k ∈ enters r, k ∉ E1 := by
    intro k hk hk'
    rcases hE1 k hk' with hk' | hk'
    · exact hE k (List.mem_append_right _ hk) hk'
    · exact hdisj k hk' k hk rfl
  obtain ⟨s2, h2, hE2, ho2⟩ := h' E1 hr hfresh
  refine ⟨s2, ?_, ?_, ho2⟩
  · unfold list
    rw [List.map_append]
    exact (runAll_append h1).trans h2
  · intro k hk
    rcases hE2 k hk with hk | hk
    · exact (hE1 k hk).imp_right (List.mem_append_left _)
    · exact .inr (List.mem_append_right _ hk)

/-! ### Single instructions -/

variable {location : Option Location} {opcode : Opcode} {operands : List String}
  {result : Option String}

theorem checkScopes_simple (s : Scopes) : (simple location opcode operands result).checkScopes b s
    = event (simple location opcode operands result) b s := by
  rw [checkScopes_eq]
  change (event (simple location opcode operands result) b s >>= _) = _
  cases h : event (simple location opcode operands result) b s with
  | error v => rfl
  | ok r =>
    obtain ⟨flow, s'⟩ := r
    cases flow <;> rfl

/-- An instruction that changes no scope. -/
theorem accepts_quiet (h : ∀ E, event (simple location opcode operands result) b ⟨E, o⟩ =
      .ok (.fallThrough, ⟨E, o⟩)) :
    Accepts b o false [simple location opcode operands result] o := by
  intro E _ _
  refine ⟨⟨E, o⟩, ?_, fun _ hk => .inl hk, fun _ => rfl⟩
  rw [list_singleton, checkScopes_simple, h]
  rfl

variable {k t x : String}

theorem accepts_register (hk : k ∈ o) :
    Accepts b o false [simple location .scopeRegister [t, k] none] o := by
  refine accepts_quiet fun E => ?_
  exact if_pos hk

theorem accepts_registering (hk : k ∈ o) : Accepts b o false (registering location t k) o :=
  .append (l := [_]) (accepts_quiet fun _ => rfl) (accepts_register hk)

theorem accepts_declaring {type : String} (hk : k ∈ o) :
    Accepts b o false (declaring location x type k) o :=
  .append (l := [_]) (accepts_quiet fun _ => rfl) (accepts_register hk)

theorem accepts_initialising {v : String} : Accepts b o false (initialising location x v) o :=
  .append (l := [_]) (accepts_quiet fun _ => rfl)
    (accepts_quiet fun _ => rfl)

theorem accepts_assigning {v : String} : Accepts b o false (assigning location x v) o :=
  .append (l := [_]) (accepts_quiet fun _ => rfl)
    (.append (l := [_]) (accepts_quiet fun _ => rfl)
      (accepts_quiet fun _ => rfl))

theorem accepts_entering : Accepts b o false [entering k] (k :: o) := by
  intro E _ hE
  have hk : k ∉ E := hE k (by simp [entering, enters_cons, ownEnters_simple])
  refine ⟨⟨k :: E, k :: o⟩, ?_, ?_, fun _ => rfl⟩
  · rw [list_singleton, entering, checkScopes_simple]
    exact if_neg hk
  · intro k' hk'
    rcases List.mem_cons.1 hk' with rfl | hk'
    · exact .inr (by simp [entering, enters_cons, ownEnters_simple])
    · exact .inl hk'

theorem accepts_exit : Accepts b (k :: o) false [simple location .scopeExit [k] none] o := by
  intro E _ _
  refine ⟨⟨E, o⟩, ?_, fun _ hk => .inl hk, fun _ => rfl⟩
  rw [list_singleton, checkScopes_simple]
  exact if_pos rfl

/-- Scopes that are left innermost first. -/
theorem accepts_leaving {ks : List String} : Accepts b (ks ++ o) false (leaving location ks) o := by
  induction ks with
  | nil => exact .nil
  | cons k ks ih => exact .append (l := [_]) accepts_exit ih

/-- Code in a scope of its own. -/
theorem Accepts.scoping (h : Accepts b (k :: o) d l (k :: o)) :
    Accepts b o d (scoping k d l) o := by
  have h' := accepts_entering.append h
  cases d with
  | true =>
    simp only [Layout.scoping, if_true, List.append_nil]
    intro E hnd hE
    obtain ⟨s', h1, h2, -⟩ := h' E hnd hE
    exact ⟨s', h1, h2, by simp⟩
  | false => exact h'.append accepts_exit

/-! ### Nested lists -/

/-- Nested lists that leave the scopes as they find them, unless they depart. -/
theorem nestedAll_eq_ok (context : String) {ls : List (List Instr)}
    (h : ∀ l ∈ ls, ∃ d, Accepts b o d l o) (E : List String) (hnd : (enters ls.flatten).Nodup)
    (hE : ∀ k ∈ enters ls.flatten, k ∉ E) :
    ∃ E', nestedAll context (ls.map (·.map Instr.checkScopes)) b ⟨E, o⟩ = .ok ⟨E', o⟩ ∧
      ∀ k ∈ E', k ∈ E ∨ k ∈ enters ls.flatten := by
  induction ls generalizing E with
  | nil => exact ⟨E, rfl, fun _ hk => .inl hk⟩
  | cons l rest ih =>
    obtain ⟨d, hl⟩ := h l List.mem_cons_self
    rw [List.flatten_cons, enters_append] at hnd hE ⊢
    obtain ⟨hnd1, hnd2, hdisj⟩ := List.nodup_append.1 hnd
    obtain ⟨⟨E1, o1⟩, h1, hE1, ho1⟩ := hl E hnd1 fun k hk => hE k (List.mem_append_left _ hk)
    have hone : nested context (l.map Instr.checkScopes) b ⟨E, o⟩ = .ok ⟨E1, o⟩ := by
      refine (congrArg (· >>= _) h1).trans ?_
      cases d with
      | true => rfl
      | false => exact if_pos (ho1 rfl)
    have hfresh : ∀ k ∈ enters rest.flatten, k ∉ E1 := by
      intro k hk hk'
      rcases hE1 k hk' with hk' | hk'
      · exact hE k (List.mem_append_right _ hk) hk'
      · exact hdisj k hk' k hk rfl
    obtain ⟨E2, h2, hE2⟩ :=
      ih (fun l' hl' => h l' (List.mem_cons_of_mem _ hl')) E1 hnd2 hfresh
    refine ⟨E2, (congrArg (· >>= _) hone).trans h2, ?_⟩
    intro k hk
    rcases hE2 k hk with hk | hk
    · exact (hE1 k hk).imp_right (List.mem_append_left _)
    · exact .inr (List.mem_append_right _ hk)

/-- A chain whose nested lists are accepted. -/
theorem accepts_chained {c : Chain Instr}
    (h : ∀ l ∈ c.lists, ∃ d, Accepts (if c.tryBlock.isSome then o.length else b) o d l o) :
    Accepts b o false [chained location c] o := by
  have henters : enters [chained location c] = enters c.lists.flatten := by
    simp [enters_cons]
  intro E hnd hE
  rw [henters] at hnd hE
  obtain ⟨E', h', hE'⟩ := nestedAll_eq_ok c.kind.name h E hnd hE
  refine ⟨⟨E', o⟩, ?_, ?_, fun _ => rfl⟩
  · rw [list_singleton, checkScopes_eq]
    have hp : (chained location c).payload.map Instr.checkScopes =
        .chain (c.map Instr.checkScopes) := rfl
    have htry : (c.map Instr.checkScopes).tryBlock.isSome = c.tryBlock.isSome := by
      simp [Chain.map]
    unfold instr
    rw [hp]
    change (nestedAll c.kind.name (c.map Instr.checkScopes).lists
      (if (c.map Instr.checkScopes).tryBlock.isSome then o.length else b) ⟨E, o⟩ >>= _) = _
    rw [htry, Chain.lists_map, h']
    rfl
  · intro k hk
    rw [henters]
    exact hE' k hk

theorem accepts_logicalBlock {block : LogicalBlock Instr}
    (h : ∀ l ∈ block.lists, ∃ d, Accepts b o d l o) :
    Accepts b o false [logicalBlock location t block] o := by
  have henters : enters [logicalBlock location t block] = enters block.lists.flatten := by
    simp [enters_cons, LogicalBlock.lists]
  intro E hnd hE
  rw [henters] at hnd hE
  obtain ⟨E', h', hE'⟩ := nestedAll_eq_ok "logical block" h E hnd hE
  refine ⟨⟨E', o⟩, ?_, ?_, fun _ => rfl⟩
  · rw [list_singleton, checkScopes_eq]
    have hevent : event (logicalBlock location t block) b ⟨E, o⟩ = .ok (.fallThrough, ⟨E, o⟩) := by
      unfold event logicalBlock
      cases block.op <;> rfl
    unfold instr
    rw [hevent]
    change (nestedAll "logical block" (block.map Instr.checkScopes).lists b ⟨E, o⟩ >>= _) = _
    have hlists : (block.map Instr.checkScopes).lists
        = block.lists.map (·.map Instr.checkScopes) := rfl
    rw [hlists, h']
    rfl
  · intro k hk
    rw [henters]
    exact hE' k hk

theorem accepts_calling {site : CallSite} (hc : opcode.isCall = true) :
    Accepts b o false [calling location opcode result site] o := by
  intro E _ _
  refine ⟨⟨E, o⟩, ?_, fun _ hk => .inl hk, fun _ => rfl⟩
  rw [list_singleton, checkScopes_eq]
  cases opcode <;> first | rfl | cases hc

end

end ScopeCheck

namespace Layout

open ScopeCheck

variable {π : Policy} {Γ Γ' : Context} {l : List Instr}

/-! ### Laid out code is accepted -/

variable {k : String} {b : Nat} {location : Option Location} {operands o : List String} {d : Bool}

theorem lists_question {t n x f v : String} {nullBody setBody : List Instr} :
    (question k t n x nullBody f setBody v).lists =
      [[simple none .isNull [x] (some n)], nullBody, [], setBody] := rfl

/-- The code of an expression registers to an open scope, and enters none. -/
theorem Calc.accepts {B : List String} (h : Calc π B k Γ l Γ') : Accepts b Γ.ids false l Γ.ids := by
  induction h with
  | nil => exact .nil
  | append h _ ih ih' =>
    rw [h.alike.ids] at ih'
    exact ih.append ih'
  | create _ hk hop =>
    refine .append (accepts_quiet fun E => ?_)
      (accepts_registering (Context.mem_ids_of_reach hk))
    rcases hop with rfl | rfl <;> rfl
  | load | loadField => exact accepts_quiet fun _ => rfl
  | call _ hk hc =>
    exact (accepts_calling hc).append (accepts_registering (Context.mem_ids_of_reach hk))
  | perform hc => exact accepts_calling hc
  | test => exact accepts_calling rfl
  | isSet _ _ _ _ _ _ _ ih ih' =>
    refine accepts_chained ?_
    intro l hl
    rw [lists_question] at hl
    simp only [List.mem_cons, List.not_mem_nil, or_false] at hl
    rcases hl with rfl | rfl | rfl | rfl
    · exact ⟨false, accepts_quiet fun _ => rfl⟩
    · exact ⟨false, ih⟩
    · exact ⟨false, .nil⟩
    · exact ⟨false, ih'⟩
  | logical _ h1 _ _ h2 _ _ ih1 ih2 ih3 =>
    rw [h2.alike.ids] at ih3
    rw [h1.alike.ids] at ih2 ih3
    refine accepts_logicalBlock ?_
    intro l hl
    simp only [LogicalBlock.lists, List.mem_cons, List.not_mem_nil, or_false] at hl
    rcases hl with rfl | rfl | rfl
    · exact ⟨false, ih1⟩
    · exact ⟨false, ih2⟩
    · exact ⟨false, ih3⟩

theorem Test.accepts {p : String} (h : Test π Γ l p) : Accepts b Γ.ids false l Γ.ids := by
  cases h with
  | intro _ _ h _ => exact Accepts.scoping h.accepts

/-- The scopes a throw leaves, and those that stay open for the handler. -/
theorem Context.ids_eq_inner_append :
    Γ.ids = Γ.inner ++ Γ.ids.drop (Γ.frames.length - Γ.boundary) :=
  (List.take_append_drop _ _).symm

theorem accepts_ret : Accepts b [] true [simple location .ret operands none] [] := by
  intro E _ _
  refine ⟨⟨E, []⟩, ?_, fun _ hk => .inl hk, by simp⟩
  rw [list_singleton, checkScopes_simple]
  rfl

theorem accepts_throw : Accepts o.length o true [simple location .throw operands none] o := by
  intro E _ _
  refine ⟨⟨E, o⟩, ?_, fun _ hk => .inl hk, by simp⟩
  rw [list_singleton, checkScopes_simple]
  exact if_pos rfl

theorem accepts_catching {x type exception : String} (hk : k ∈ o) :
    Accepts b o false [simple none .reference [x, type] none,
      simple none .store [x, exception] none, simple none .scopeRegister [x, k] none] o :=
  .append (l := [_]) (accepts_quiet fun _ => rfl)
    (.append (l := [_]) (accepts_quiet fun _ => rfl) (accepts_register hk))

theorem accepts_departing {o' o'' : List String} (h : Accepts b o true l o') :
    Accepts b o true l o'' := by
  intro E hnd hE
  obtain ⟨s', h1, h2, -⟩ := h E hnd hE
  exact ⟨s', h1, h2, by simp⟩

/-- What holds of all parts of a chain holds of its lists. -/
theorem forall_lists {c : Chain Instr} {p : List Instr → Prop} (hs : ∀ v ∈ c.subject, p v.setup)
    (hr : ∀ v ∈ c.returning, p v.setup) (ht : ∀ b ∈ c.tryBlock, p b.evaluation)
    (hc : ∀ e ∈ c.cases, p e.condition.evaluation ∧ p e.body.evaluation ∧ p e.updates)
    (hf : ∀ b ∈ c.fallback, p b.evaluation) (hl : ∀ b ∈ c.finallyBlock, p b.evaluation) :
    ∀ l ∈ c.lists, p l := by
  intro l h
  simp only [Chain.lists, List.mem_append, Option.mem_toList, Option.map_eq_some_iff,
    List.mem_flatMap, Case.lists, List.mem_cons, List.not_mem_nil, or_false] at h
  rcases h with ((((⟨v, hv, rfl⟩ | ⟨v, hv, rfl⟩) | ⟨b, hb, rfl⟩) | ⟨e, he, rfl | rfl | rfl⟩) |
    ⟨b, hb, rfl⟩) | ⟨b, hb, rfl⟩
  · exact hs v hv
  · exact hr v hv
  · exact ht b hb
  · exact (hc e he).1
  · exact (hc e he).2.1
  · exact (hc e he).2.2
  · exact hf b hb
  · exact hl b hb

/-- The check accepts laid out code, and finds the scopes open behind it that were open before. -/
theorem Emits.accepts (h : Emits π Γ d l Γ') (hb : Γ.boundary ≤ Γ.frames.length) :
    Accepts Γ.boundary Γ.ids d l Γ.ids := by
  induction h with
  | nil => exact .nil
  | append h _ ih ih' =>
    rw [h.alike.ids, h.alike.boundary, h.alike.length_frames] at ih'
    exact (ih hb).append (ih' hb)
  | forget _ _ ih => exact ih hb
  | compute _ h => exact h.accepts
  | declare _ hk => exact accepts_declaring (Context.mem_ids_of_reach hk)
  | @bind Γ _ _ _ _ _ _ _ _ _ hk _ h =>
    have hl := h.accepts (b := Γ.boundary)
    rw [Context.ids_own] at hl
    exact ((accepts_declaring (Context.mem_ids_of_reach hk)).append hl).append accepts_initialising
  | assign _ _ _ h | assignField _ _ _ _ h => exact h.accepts.append accepts_assigning
  | initField _ _ _ _ h => exact h.accepts.append accepts_initialising
  | assert _ h => exact h.accepts.append (accepts_quiet fun _ => rfl)
  | @ret Γ _ _ v _ _ location _ _ h =>
    have hleave : Accepts Γ.boundary (Γ.ids ++ []) false (leaving location Γ.ids) [] :=
      accepts_leaving
    rw [List.append_nil] at hleave
    have hret : Accepts Γ.boundary Γ.ids true ([simple location .retain [v] none]
        ++ leaving location Γ.ids ++ [simple location .ret [v] none]) [] :=
      (Accepts.append (accepts_quiet fun _ => rfl) hleave).append accepts_ret
    exact accepts_departing (h.accepts.append hret)
  | @retNone Γ location =>
    have hleave : Accepts Γ.boundary (Γ.ids ++ []) false (leaving location Γ.ids) [] :=
      accepts_leaving
    rw [List.append_nil] at hleave
    exact accepts_departing (hleave.append accepts_ret)
  | @throw Γ _ _ v _ _ location _ _ h =>
    generalize hrest : Γ.ids.drop (Γ.frames.length - Γ.boundary) = rest
    have hlen : rest.length = Γ.boundary := by
      rw [← hrest, List.length_drop, Context.length_ids]
      omega
    have hids : Γ.ids = Γ.inner ++ rest := by
      rw [← hrest]
      exact Context.ids_eq_inner_append
    have hleave : Accepts Γ.boundary (Γ.inner ++ rest) false (leaving location Γ.inner) rest :=
      accepts_leaving
    have hthrow : Accepts rest.length rest true [simple location .throw [v] none] rest :=
      accepts_throw
    rw [← hids] at hleave
    rw [hlen] at hthrow
    have hall : Accepts Γ.boundary Γ.ids true ([simple location .retain [v] none]
        ++ leaving location Γ.inner ++ [simple location .throw [v] none]) rest :=
      (Accepts.append (accepts_quiet fun _ => rfl) hleave).append hthrow
    exact accepts_departing (h.accepts.append hall)
  | scope _ _ ih => exact Accepts.scoping (ih (Nat.le_succ_of_le hb))
  | branch _ _ hp h1 h2 _ hT _ ho _ _ ih1 ih2 ihC ihF =>
    rw [h2.alike.ids, h2.alike.boundary, h2.alike.length_frames] at ihC ihF
    rw [h1.alike.ids, h1.alike.boundary, h1.alike.length_frames] at ih2 ihC ihF
    refine accepts_chained ?_
    rw [hp.tryBlock]
    refine forall_lists (fun v hv => ⟨false, ?_⟩) (fun v hv => ⟨false, ?_⟩) (by simp [hp.tryBlock])
      (fun e he => ⟨⟨false, ?_⟩, ⟨_, ihC e he hb⟩, false, ?_⟩) (fun b hb' => ⟨_, ihF b hb' hb⟩)
      (by simp [hp.finallyBlock])
    · simpa [setupOf, Option.mem_def.1 hv] using ih1 hb
    · simpa [setupOf, Option.mem_def.1 hv] using ih2 hb
    · rw [← h1.alike.ids, ← h2.alike.ids]
      exact (hT e he).accepts
    · rw [(ho e he).2.2]
      exact .nil
  | loop _ hp hs hr hc hf _ ht _ _ _ _ ih ih' =>
    refine accepts_chained ?_
    rw [hp.tryBlock]
    refine forall_lists (by simp [hs]) (by simp [hr]) (by simp [hp.tryBlock]) (fun e he => ?_)
      (by simp [hf]) (by simp [hp.finallyBlock])
    rw [hc] at he
    obtain rfl := List.mem_singleton.1 he
    exact ⟨⟨false, ht.accepts⟩, ⟨_, ih hb⟩, false, ih' hb⟩
  | @tryCatch Γ _ _ _ _ _ _ _ _ _ _ _ _ _ _ hs hr hf ht _ _ _ _ hbare hcode _ _ _ _ _ ih ihC
      ihF =>
    have hlen : Γ.ids.length = Γ.frames.length := Context.length_ids
    refine accepts_chained ?_
    rw [ht, Option.isSome_some, if_pos rfl, hlen]
    refine forall_lists (by simp [hs]) (by simp [hr]) (fun b hb' => ?_)
      (fun e he => ⟨⟨false, ?_⟩, ?_, false, ?_⟩) (by simp [hf])
      fun b hb' => ⟨false, ihF b hb' (Nat.le_refl _)⟩
    · rw [ht] at hb'
      cases hb'
      exact ⟨_, ih (Nat.le_refl _)⟩
    · rw [(hbare e he).1]
      exact .nil
    · rw [hcode e he]
      have hbody := ihC e he (by
        rw [Context.length_frames_own]
        exact Nat.le_succ _)
      rw [Context.ids_own, Context.ids_push] at hbody
      exact ⟨_, Accepts.scoping ((accepts_catching List.mem_cons_self).append hbody)⟩
    · rw [(hbare e he).2.1]
      exact .nil

/-! ### Operations and modules -/

theorem enters_operationCode : enters (operationCode k d l) = k :: enters l := by
  rw [operationCode, enters_append, enters_scoping]
  cases d <;> simp [enters_cons, ownEnters_simple]

/-- An operation ends with every scope left. -/
theorem accepts_operationCode (h : Accepts 0 [k] d l [k]) :
    Accepts 0 [] true (operationCode k d l) [] := by
  have hs : Accepts 0 [] d (scoping k d l) [] := Accepts.scoping h
  cases d with
  | true => simpa [operationCode] using hs
  | false => exact hs.append accepts_ret

theorem checkScopes_singleBlock {entry : String} (h : Accepts 0 [] true l [])
    (hnd : (enters l).Nodup) : ScopeCheck.body (singleBlock entry l) = .ok () := by
  obtain ⟨s', h1, -⟩ := h [] hnd (by simp)
  have horder : (singleBlock entry l).flow.order = [0] := by
    have hsuccs : (singleBlock entry l).succs 0 = [] := rfl
    have hstart : (singleBlock entry l).flow =
        FlowSummary.walk (singleBlock entry l).succs [0] [.visit 0] {} := rfl
    rw [hstart]
    simp [FlowSummary.walk, hsuccs]
  have hblock : (singleBlock entry l).blocks.get? 0 = some { label := entry, instrs := l } := rfl
  have hentry : Body.entry? (singleBlock entry l) = some 0 := rfl
  unfold ScopeCheck.body
  rw [horder, hentry]
  unfold ScopeCheck.blocks
  simp only [hblock, Option.getD_some, Option.elim_some, FinMap.get?_insert_self]
  rw [h1]
  rfl

theorem OperationLaid.checkScopes {op : Operation} (h : OperationLaid π op) :
    op.checkScopes = .ok () := by
  obtain ⟨entry, k, d, l, Γ, hbody, hcode, -, -, hnd⟩ := h
  have hl : Accepts 0 [k] d l [k] := hcode.accepts (Nat.zero_le _)
  unfold Operation.checkScopes
  rw [hbody, checkScopes_singleBlock (accepts_operationCode hl)]
  rw [enters_operationCode]
  exact hnd

end Layout

/-- The check of scopes accepts the code of every module that is lowered without a defect. -/
theorem checkScopes_of_lower (m : SourceModule) (types : TypeOracle) (debug : Bool) (u : CodeUnit)
    (h : m.lower types debug = .ok u) : u.checkScopes = .ok () := by
  rw [CodeUnit.checkScopes_eq_ok_iff]
  intro op hop
  exact (operationLaid_of_lower h op hop).checkScopes

/-- A function that throws in a protected block and returns from the catch clause. -/
def throwAndCatch : SourceModule :=
  { name := "sample"
    constructs := [.function
      { name := "run"
        returnType := "Void"
        body := [.tryCatch none [.throw none (.literal { type := "String" } "stop")]
          [⟨"Exception", "e", [.ret none none]⟩] none] }] }

theorem checkScopes_throwAndCatch :
    ∃ u, throwAndCatch.lower (fun _ _ => false) false = .ok u ∧ u.checkScopes = .ok () := by
  have hok : (throwAndCatch.lower (fun _ _ => false) false).toOption.isSome = true := by
    decide +kernel
  obtain ⟨u, hu⟩ := Option.isSome_iff_exists.1 hok
  have hu := toOption_eq_some hu
  exact ⟨u, hu, checkScopes_of_lower throwAndCatch (fun _ _ => false) false u hu⟩

end ScopedIR
