import ScopedIR.Proofs.BodyEdits
import ScopedIR.Proofs.FlowOrder
import ScopedIR.Proofs.GuardedRuns

/-!
# Checked code keeps its scopes

The check goes through every nested list once. A run goes through the lists of a chain once, many
times or not at all, and through some of them only in part. It still has the scopes open that the
check found open, because a nested list leaves the scopes as it finds them, or departs.

Main definitions:

* `Instr.isStructured`: an instruction that is no jump and no try chain;
* `Instr.Sound`: what the check finds is what a run does.

Main statements: `Instr.keeps`, by induction on nested instructions, and
`runClosed_eq_run_of_checkScopes`, about operations of one block.
-/

namespace ScopedIR

variable {σ : Type}

namespace ScopeCheck

open Exec

variable {cfg : Config σ} {rounds : Nat} {i : Instr} {p : Payload (Exec σ Control)} {s s' : Scopes}
  {flow : Flow} {m : Machine σ}

/-- Opcodes whose effect is settled by the instruction alone: all but jumps, handlers of blocks,
chains and logical blocks. -/
def isPlain : Opcode → Bool
  | .branch | .branchTrue | .branchFalse | .setupHandler | .chain | .logicalAnd | .logicalOr => false
  | _ => true

variable {b : Nat} {k context : String} {lists : List (List Step)}

/-- Only entering and leaving a scope moves the open scopes, and only a return or a throw departs. -/
theorem event_unmoved (henter : i.opcode ≠ .scopeEnter) (hexit : i.opcode ≠ .scopeExit)
    (he : event i b s = .ok (flow, s')) :
    s' = s ∧ flow = if i.opcode.departs then .departed else .fallThrough := by
  obtain ⟨opcode, operands, result, location, escape, payload⟩ := i
  have hcond : ∀ {c : Prop} [Decidable c] {v : ScopeViolation} {flow' : Flow},
      (if c then Except.ok (flow', s) else .error v) = .ok (flow, s') → s' = s ∧ flow = flow' := by
    intro c _ v flow' hif
    split at hif
    · cases hif
      exact ⟨rfl, rfl⟩
    · cases hif
  cases opcode with
  | scopeEnter => exact absurd rfl henter
  | scopeExit => exact absurd rfl hexit
  | scopeRegister | noScopeRegister | ret | throw | stackAlloc | stackAllocLiteral => exact hcond he
  | _ =>
    cases he
    exact ⟨rfl, rfl⟩

theorem event_enter (hop : i.opcode = .scopeEnter) (hk : i.operand? 0 = some k)
    (he : event i 0 s = .ok (flow, s')) : s'.opened = k :: s.opened ∧ flow = .fallThrough := by
  unfold event Instr.scope? at he
  simp only [hop, hk, Option.getD_some] at he
  split at he
  · cases he
  · cases he
    exact ⟨rfl, rfl⟩

/-- An exit is accepted of the innermost scope only. -/
theorem event_exit (hop : i.opcode = .scopeExit) (hk : i.operand? 0 = some k)
    (he : event i 0 s = .ok (flow, s')) : s.opened = k :: s'.opened ∧ flow = .fallThrough := by
  unfold event Instr.scope? at he
  simp only [hop, hk, Option.getD_some] at he
  split at he
  · cases he
  · next top outer hopened =>
    split at he
    · next htop =>
      cases he
      exact ⟨by rw [hopened, htop], rfl⟩
    · cases he

/-- A registration is accepted to an open scope only. -/
theorem event_register (hop : i.opcode = .scopeRegister) (hk : i.operand? 1 = some k)
    (he : event i 0 s = .ok (flow, s')) : k ∈ s.opened := by
  unfold event Instr.scope? at he
  simp only [hop, hk, Option.getD_some] at he
  split at he
  · assumption
  · cases he

/-- A departure is accepted with no scope open only. -/
theorem event_departs (hop : i.opcode.departs = true) (he : event i 0 s = .ok (flow, s')) :
    s.opened = [] := by
  obtain ⟨opcode, operands, result, location, escape, payload⟩ := i
  have hcond : ∀ {v : ScopeViolation},
      (if s.opened.length = 0 then Except.ok (Flow.departed, s) else .error v) = .ok (flow, s') →
        s.opened = [] := by
    intro v hif
    split at hif
    · next hzero => exact List.eq_nil_of_length_eq_zero hzero
    · cases hif
  cases opcode with
  | ret | throw => exact hcond he
  | _ => cases hop

/-- How code ends that the check leaves with the scopes `s`. -/
abbrev EndsAs (flow : Flow) (s : Scopes) : Control → Machine σ → Prop :=
  Ends (flow = .fallThrough) (fun _ => False) s.opened

section

variable (harc : cfg.memory = .arc) (hm : Has s.opened m) (he : event i 0 s = .ok (flow, s'))

include harc hm he

theorem leads_enter (hop : i.opcode = .scopeEnter) :
    Leads (Fault.Excused cfg) (perform exitScope cfg rounds i p) m (EndsAs flow s') := by
  unfold perform
  simp only [hop, counted, harc, operand]
  cases ho : i.operand? 0 with
  | none => exact fun h => by cases h
  | some k =>
    obtain ⟨hopened, rfl⟩ := event_enter hop ho he
    unfold EndsAs
    rw [hopened]
    exact ⟨hm.handlers, rfl, congrArg (k :: ·) hm.ids⟩

theorem leads_exit (hop : i.opcode = .scopeExit) :
    Leads (Fault.Excused cfg) (perform exitScope cfg rounds i p) m (EndsAs flow s') := by
  unfold perform
  simp only [hop, counted, harc, operand]
  cases ho : i.operand? 0 with
  | none => exact fun h => by cases h
  | some k =>
    obtain ⟨hopened, rfl⟩ := event_exit hop ho he
    show Leads _ (exitScope k >>= fun _ => pure Control.next) m _
    rw [leads_bind]
    apply Layout.leads_leave (hm.ids.trans hopened)
    exact fun m' hids hh => ⟨hh.trans hm.handlers, rfl, hids⟩

theorem leads_register (hop : i.opcode = .scopeRegister) :
    Leads (Fault.Excused cfg) (perform exitScope cfg rounds i p) m (EndsAs flow s') := by
  unfold perform
  simp only [hop, counted, harc, operand]
  cases hx : i.operand? 0 with
  | none => exact fun h => by cases h
  | some x =>
    cases hk : i.operand? 1 with
    | none => exact fun h => by cases h
    | some k =>
      have hopen := event_register hop hk he
      obtain ⟨rfl, rfl⟩ := event_unmoved (by simp [hop]) (by simp [hop]) he
      rw [← hm.ids] at hopen
      obtain ⟨scopes, hr, hids⟩ := Layout.openIds_registerIn (x := x) hopen
      show Leads _ (ofOption (.unknownScope k) (Machine.registerIn k x m.scopes) >>= fun scopes =>
        modify (fun m => { m with scopes }) >>= fun _ => pure Control.next) m _
      rw [hr]
      exact ⟨hm.handlers, by simp [hop, Opcode.departs], hids.trans hm.ids⟩

/-- What an accepted instruction leads to. -/
theorem leads_perform (hop : isPlain i.opcode = true) :
    Leads (Fault.Excused cfg) (perform exitScope cfg rounds i p) m (EndsAs flow s') := by
  by_cases henter : i.opcode = .scopeEnter
  · exact leads_enter harc hm he henter
  by_cases hexit : i.opcode = .scopeExit
  · exact leads_exit harc hm he hexit
  by_cases hregister : i.opcode = .scopeRegister
  · exact leads_register harc hm he hregister
  by_cases hd : i.opcode.departs = true
  · rw [event_departs hd he] at hm
    obtain hret | hthrow : i.opcode = .ret ∨ i.opcode = .throw := by
      cases hopcode : i.opcode <;> simp [hopcode, Opcode.departs] at hd ⊢
    · apply ((Confined.perform_ret hret).still m).mono
      intro c m' hc
      obtain ⟨⟨v, rfl⟩, hs, hh⟩ := hc
      exact ⟨hh.trans hm.handlers, hs.trans hm.scopes_eq_nil⟩
    · apply ((Confined.perform_throw hthrow).still m).mono
      intro c m' hc
      obtain ⟨⟨v, rfl⟩, hs, hh⟩ := hc
      exact ⟨hh.trans hm.handlers, trivial⟩
  -- every other instruction goes on with the same scopes, or is a call that throws
  obtain ⟨rfl, hflow⟩ := event_unmoved henter hexit he
  rw [if_neg hd] at hflow
  have hgoing : Still cfg Still.Going (perform exitScope cfg rounds i p) := by
    by_cases hc : i.opcode.isCall = true
    · exact Still.perform_call hc
    · have hq : Still.quiet i.opcode = true := by
        cases hopcode : i.opcode <;>
          simp [hopcode, isPlain, Still.quiet, Still.moves, Opcode.departs, Opcode.isCall,
            Opcode.group] at hop henter hexit hregister hd hc ⊢
      exact ((Confined.perform_quiet hq).mono fun _ => .inl).still
  apply (hgoing m).mono
  intro c m' hc
  obtain ⟨rfl | ⟨e, rfl⟩, hs, hh⟩ := hc
  · exact (hm.of_still hs hh).ends hflow
  · exact ⟨hh.trans hm.handlers, trivial⟩

end

/-- What checking nested lists makes of the open scopes: nothing. -/
theorem opened_nestedAll (h : nestedAll context lists b s = .ok s') : s'.opened = s.opened := by
  induction lists generalizing s with
  | nil =>
    cases h
    rfl
  | cons l rest ih =>
    obtain ⟨s1, hl, h⟩ := except_bind_eq_ok.1 h
    rw [ih h]
    obtain ⟨⟨flow, inner⟩, -, hl⟩ := except_bind_eq_ok.1 hl
    cases flow with
    | departed =>
      cases hl
      rfl
    | fallThrough =>
      simp only at hl
      split at hl
      · cases hl
        rfl
      · cases hl

/-- Each nested list is accepted by itself, with the scopes around it open. -/
theorem nestedAll_mem (h : nestedAll context lists b s = .ok s') {l : List Step} (hl : l ∈ lists) :
    ∃ E flow inner, runAll l b ⟨E, s.opened⟩ = .ok (flow, inner) ∧
      (flow = .fallThrough → inner.opened = s.opened) := by
  induction lists generalizing s with
  | nil => exact absurd hl List.not_mem_nil
  | cons first rest ih =>
    obtain ⟨s1, hfirst, h⟩ := except_bind_eq_ok.1 h
    have hone : nestedAll context [first] b s = .ok s1 :=
      except_bind_eq_ok.2 ⟨s1, hfirst, rfl⟩
    have hopened : s1.opened = s.opened := opened_nestedAll hone
    obtain rfl | hl := List.mem_cons.1 hl
    · obtain ⟨⟨flow, inner⟩, hrun, hfirst⟩ := except_bind_eq_ok.1 hfirst
      refine ⟨s.entered, flow, inner, hrun, ?_⟩
      intro hflow
      subst hflow
      simp only at hfirst
      split at hfirst
      · assumption
      · cases hfirst
    · rw [← hopened]
      exact ih h hl

end ScopeCheck

/-! ### Structured code -/

namespace Instr

open Exec ScopeCheck

/-- Whether an instruction holds a try chain. -/
def isTryChain (i : Instr) : Bool :=
  i.chain?.any fun c => c.kind = .tryCatchFinally || c.tryBlock.isSome

/-- Whether an instruction holds a chain with a protected block. -/
def protects (i : Instr) : Bool := i.chain?.any fun c => c.tryBlock.isSome

theorem protects_eq_false {i : Instr} (h : i.isTryChain = false) : i.protects = false := by
  unfold isTryChain at h
  unfold protects
  cases hc : i.chain? with
  | none => rfl
  | some c =>
    rw [hc] at h
    exact (Bool.or_eq_false_iff.1 h).2

/-- An instruction that is no branch, sets up no handler of a block and is no try chain. -/
def isStructured (i : Instr) : Bool :=
  !i.opcode.isBranch && i.opcode ≠ .setupHandler && !i.isTryChain

variable {cfg : Config σ} {rounds : Nat} {halt : Halt} {i : Instr} {s s' : Scopes} {flow : Flow}
  {E : Fault → Prop} {m : Machine σ} {post : Control → Machine σ → Prop}

/-- An instruction does with the guard what it does without, if it departs with no scope open only and
the same holds of everything nested in it. -/
theorem agrees_guarded (hlimit : E (.stepLimit cfg.maxSteps))
    (hjump : ∀ opcode, E (.jumpOutOfStructure opcode)) (inner : Bool)
    (hd : i.opcode.departs = true → m.scopes = [])
    (h : Agrees E (perform exitScope cfg rounds i (i.payload.map (stepped cfg rounds true)))
      (perform exitScope cfg rounds i (i.payload.map (guarded halt cfg rounds true)))
      (ticked m) post) :
    Agrees E (i.stepped cfg rounds inner) (i.guarded halt cfg rounds inner) m post := by
  have hend : ∀ c m', post c m' →
      Agrees E (if inner then stayInside i c else pure c) (if inner then stayInside i c else pure c)
        m' post := by
    intro c m' hc
    cases inner with
    | false => exact .pure hc
    | true =>
      cases c with
      | jump label => exact .of_leads (hjump _)
      | next | ret v | throw e => exact .pure hc
  have htick : Agrees E (tick cfg.maxSteps) (tick cfg.maxSteps) m fun _ m' => m' = ticked m :=
    .of_leads (leads_tick hlimit rfl)
  rw [stepped_eq]
  unfold guarded
  rw [guardedNested_eq]
  apply htick.bind
  rintro ⟨⟩ m' rfl
  apply Agrees.of_guard (guardDeparture_of_closed (m := ticked m) hd)
  exact h.bind hend

/-- What the check finds is what a run does, with the guard or without. -/
def Sound (cfg : Config σ) (rounds : Nat) (halt : Halt) (i : Instr) : Prop :=
  ∀ s flow s', i.checkScopes 0 s = .ok (flow, s') → ∀ inner,
    Keeps cfg s.opened (EndsAs flow s')
      (i.stepped cfg rounds inner) (i.guarded halt cfg rounds inner)

/-- An instruction whose effect is its own. -/
theorem Sound.of_plain (harc : cfg.memory = .arc) (hop : isPlain i.opcode = true)
    (he : event i 0 s = .ok (flow, s')) (inner : Bool) :
    Keeps cfg s.opened (EndsAs flow s')
      (i.stepped cfg rounds inner) (i.guarded halt cfg rounds inner) := by
  intro m hm
  have hperform : ∀ p p' : Payload (Exec σ Control),
      perform exitScope cfg rounds i p = perform exitScope cfg rounds i p' := by
    intro p p'
    unfold perform
    cases hopcode : i.opcode <;> simp [hopcode, isPlain] at hop ⊢
  apply agrees_guarded (fun h => by cases h) (fun _ h => by cases h)
  · intro hd
    rw [event_departs hd he] at hm
    exact hm.scopes_eq_nil
  · rw [hperform (i.payload.map (guarded halt cfg rounds true))
      (i.payload.map (stepped cfg rounds true))]
    exact .of_leads (leads_perform harc (hm.of_still rfl rfl) he hop)

/-- A list of instructions, each of which does what the check finds. -/
theorem keeps_list {l : List Instr} (h : ∀ i ∈ l, Sound cfg rounds halt i)
    (hl : ScopeCheck.list l 0 s = .ok (flow, s')) (inner : Bool) :
    Keeps cfg s.opened (EndsAs flow s')
      (Exec.runAll (l.map (stepped cfg rounds inner)))
      (Exec.runAll (l.map (guarded halt cfg rounds inner))) := by
  induction l generalizing s with
  | nil =>
    cases hl
    exact .pure fun _ hm => hm.ends rfl
  | cons i rest ih =>
    obtain ⟨⟨flow1, s1⟩, hi, hrest⟩ := except_bind_eq_ok.1 hl
    apply (h i List.mem_cons_self s flow1 s1 hi inner).bind
    intro c m hc
    cases c with
    | next =>
      obtain rfl : flow1 = .fallThrough := hc.2.1
      exact ih (fun j hj => h j (List.mem_cons_of_mem _ hj)) hrest m hc.has
    | jump label => exact hc.2.1.elim
    | ret v | throw e => exact .pure (hc.left (by simp) (by simp))

/-- Nested lists that are accepted leave the scopes as they find them, with the guard or without. -/
theorem nests_of_nestedAll {context : String} {lists : List (List Instr)}
    (h : ∀ l ∈ lists, ∀ i ∈ l, Sound cfg rounds halt i)
    (hl : nestedAll context (lists.map (·.map checkScopes)) 0 s = .ok s') :
    ∀ l ∈ lists,
      Keeps.Nests cfg s.opened (stepped cfg rounds true) (guarded halt cfg rounds true) l := by
  intro l hmem m hm
  obtain ⟨E, flow, inner, hrun, hopened⟩ := nestedAll_mem hl (List.mem_map_of_mem hmem)
  refine (keeps_list (h l hmem) hrun true m hm).mono fun c m' hc => hc.onward fun hflow hhas => ?_
  rw [hopened hflow] at hhas
  exact hhas.ends trivial

/-- The check of an instruction is that of its opcode and, unless this departs, of its nested lists.
Inside a chain with a protected block a throw unwinds to the chain. -/
theorem checkScopes_eq_ok {b : Nat} (h : i.checkScopes b s = .ok (flow, s')) :
    ∃ s1, event i b s = .ok (flow, s1) ∧ (flow = .departed → s' = s1) ∧
      (flow = .fallThrough → ∃ context,
        nestedAll context (i.lists.map (·.map checkScopes))
          (if i.protects then s1.opened.length else b) s1 = .ok s') := by
  rw [checkScopes_eq] at h
  obtain ⟨⟨flow1, s1⟩, hevent, h⟩ := except_bind_eq_ok.1 h
  cases flow1 with
  | departed =>
    cases h
    exact ⟨_, hevent, fun _ => rfl, fun hflow => by cases hflow⟩
  | fallThrough =>
    obtain ⟨opcode, operands, result, location, escape, payload⟩ := i
    cases payload with
    | plain | call site =>
      cases h
      exact ⟨_, hevent, fun hflow => (by cases hflow), fun _ => ⟨"", rfl⟩⟩
    | chain c =>
      have htry : (c.map checkScopes).tryBlock.isSome = c.tryBlock.isSome := by simp [Chain.map]
      simp only [Payload.map, htry] at h
      obtain ⟨s2, hnested, h⟩ := except_bind_eq_ok.1 h
      cases h
      refine ⟨s1, hevent, fun hflow => (by cases hflow), fun _ => ⟨c.kind.name, ?_⟩⟩
      show nestedAll c.kind.name (c.lists.map (·.map checkScopes))
        (if c.tryBlock.isSome then _ else _) s1 = _
      rw [← Chain.lists_map]
      exact hnested
    | logical b =>
      simp only [Payload.map] at h
      obtain ⟨s2, hnested, h⟩ := except_bind_eq_ok.1 h
      cases h
      exact ⟨s1, hevent, fun hflow => (by cases hflow), fun _ => ⟨"logical block", hnested⟩⟩

/-- Structured code does what the check finds. -/
theorem keeps (harc : cfg.memory = .arc) (i : Instr)
    (hs : ∀ j ∈ i.preorder, j.isStructured = true) : Sound cfg rounds halt i := by
  induction i using nested_induction with
  | h i ih =>
    rw [preorder_eq] at hs
    have hnested : ∀ l ∈ i.lists, ∀ j ∈ l, Sound cfg rounds halt j := by
      intro l hl j hj
      apply ih l hl j hj
      intro k hk
      exact hs k (List.mem_cons_of_mem _
        (List.mem_flatMap.2 ⟨l, hl, List.mem_flatMap.2 ⟨j, hj, hk⟩⟩))
    have hi : i.isStructured = true := hs i List.mem_cons_self
    simp only [isStructured, Bool.and_eq_true, Bool.not_eq_true', decide_eq_true_eq] at hi
    obtain ⟨⟨hbranch, hhandler⟩, htry⟩ := hi
    intro s flow s' hcheck inner
    obtain ⟨s1, hevent, -, hlists⟩ := checkScopes_eq_ok hcheck
    simp only [protects_eq_false htry, Bool.false_eq_true, if_false] at hlists
    by_cases hplain : isPlain i.opcode = true
    · -- the effect does not depend on what is nested, whatever the check found there
      intro m hm
      refine (Sound.of_plain harc hplain hevent inner m hm).mono fun c m' hc =>
        hc.onward fun hflow hhas => ?_
      obtain ⟨context, hall⟩ := hlists hflow
      rw [opened_nestedAll hall]
      exact hhas.ends hflow
    · have hop : i.opcode = .chain ∨ i.opcode = .logicalAnd ∨ i.opcode = .logicalOr := by
        cases hopcode : i.opcode <;>
          simp [hopcode, isPlain, Opcode.isBranch] at hplain hbranch hhandler ⊢
      have hstays : i.opcode ≠ .scopeEnter ∧ i.opcode ≠ .scopeExit ∧ i.opcode.departs = false := by
        obtain hop | hop | hop := hop <;> simp [hop, Opcode.departs]
      obtain ⟨rfl, hflow⟩ := event_unmoved hstays.1 hstays.2.1 hevent
      rw [hstays.2.2] at hflow
      subst hflow
      obtain ⟨context, hall⟩ := hlists rfl
      have hnests := nests_of_nestedAll hnested hall
      intro m hm
      apply agrees_guarded (fun h => by cases h) (fun _ h => by cases h)
      · intro hd
        rw [hstays.2.2] at hd
        cases hd
      · have hinside : ∀ c (m' : Machine σ), EndsInside s1.opened c m' →
            EndsAs .fallThrough s' c m' := by
          refine fun c m' hc => hc.onward fun _ hhas => ?_
          rw [opened_nestedAll hall]
          exact hhas.ends rfl
        have hmalformed : ∀ m' : Machine σ, Agrees (Fault.Excused cfg)
            (Exec.fail (.malformed i.text)) (Exec.fail (.malformed i.text)) m'
            (EndsAs .fallThrough s') :=
          fun m' => .of_leads fun h => by cases h
        have hticked : Has s1.opened (ticked m) := hm.of_still rfl rfl
        obtain ⟨opcode, operands, result, location, escape, payload⟩ := i
        obtain hop | hop | hop := hop <;> subst hop
        · cases payload with
          | chain c =>
            have hkind : c.kind ≠ .tryCatchFinally := by
              have : (c.kind = .tryCatchFinally || c.tryBlock.isSome) = false := htry
              simp only [Bool.or_eq_false_iff, decide_eq_false_iff_not] at this
              exact this.1
            exact (Keeps.runChain hkind hnests (ticked m) hticked).mono hinside
          | _ => exact hmalformed _
        all_goals cases payload with
          | logical b => exact (Keeps.runLogical hnests (ticked m) hticked).mono hinside
          | _ => exact hmalformed _

end Instr

/-! ### Bodies that are put together -/

namespace Body

/-- A body that is put together block by block and edge by edge, with any instructions. -/
inductive Built : Body → Prop
  | empty : Built .empty
  | addBlock {body body' : Body} {label : String} :
      Built body → body.addBlock label = .ok body' → Built body'
  | addEdge {body body' : Body} {source target : Nat} :
      Built body → body.addEdge source target = .ok body' → Built body'
  | setInstrs {body body' : Body} {b : Nat} {f : List Instr → List Instr} : Built body →
      body.edit b (fun block => { block with instrs := f block.instrs }) = .ok body' → Built body'

variable {body : Body}

/-- Every edge leads to a block of the body. -/
theorem Built.lt_size (h : Built body) : ∀ b, ∀ t ∈ body.succs b, t < body.size := by
  induction h with
  | empty => exact fun b t ht => absurd ht List.not_mem_nil
  | addBlock _ hadd ih =>
    obtain ⟨-, -, hlabels, hsuccs, -⟩ := addBlock_eq_ok hadd
    intro b t ht
    rw [hsuccs] at ht
    rw [← length_labels, hlabels, List.length_append, length_labels]
    exact Nat.lt_succ_of_lt (ih b t ht)
  | @addEdge body body' source target _ hadd ih =>
    obtain ⟨-, hlabels, hsuccs, -⟩ := addEdge_eq_ok hadd
    have hsize : body'.size = body.size := by rw [← length_labels, hlabels, length_labels]
    intro b t ht
    rw [hsuccs] at ht
    dsimp only at ht
    rw [hsize]
    split at ht
    · obtain ht | rfl := (mem_addOnce _ target t).1 ht
      · exact ih b t ht
      · obtain ⟨mid, hs, ht⟩ := except_bind_eq_ok.1 hadd
        exact Nat.lt_of_lt_of_eq (edit_eq_ok ht).1 (size_edit hs)
    · exact ih b t ht
  | setInstrs _ hedit ih =>
    intro c t ht
    rw [succs_eq_listed, listed_edit hedit fun _ => rfl, ← succs_eq_listed] at ht
    rw [size_edit hedit]
    exact ih c t ht

end Body

/-! ### Operations of one block -/

namespace Exec

open ScopeCheck

variable {cfg : Config σ} {body : Body} {m : Machine σ}

/-- However the blocks are left, the rest of the run does not go wrong about scopes. -/
theorem leads_ending (c : Control) (memory : MemoryModel) (m : Machine σ) :
    Leads (Fault.Excused cfg) (ending exitScope c >>= fun _ => get >>= fun m =>
      ofExcept (m.result memory c)) m fun _ _ => True := by
  have hresult : ∀ m' : Machine σ, Leads (Fault.Excused cfg)
      (get >>= fun m => ofExcept (m.result memory c)) m' fun _ _ => True := by
    intro m'
    rw [leads_bind, leads_get, leads_ofExcept]
    cases hr : m'.result memory c with
    | ok r => trivial
    | error f =>
      intro hf
      rw [Fault.isScope_of_isHeap (Layout.result_error hr)] at hf
      cases hf
  rw [leads_bind]
  cases c with
  | throw e =>
    have hopen : openIds m = openIds m ++ [] := (List.append_nil _).symm
    exact Layout.leads_unwind hopen fun m' _ _ => hresult m'
  | _ => exact hresult m

/-- No handler of a block is pending, so an exception leaves the operation. -/
theorem leads_leaveBlock_throw {E : Fault → Prop} {b : Nat} {e : Binding} (hh : m.handlers = []) :
    Leads E (leaveBlock body b (.throw e)) m fun r _ => r = .inr (.throw e) := by
  show Leads _ (get >>= fun m : Machine σ => _) m _
  rw [leads_bind, leads_get, hh]
  rfl

/-- The walk through the only block of a body, which control may go back to. -/
theorem agrees_runBlocks (rounds : Nat) (halt : Halt) (harc : cfg.memory = .arc) (hsize : body.size = 1)
    (hedges : ∀ t ∈ body.succs 0, t < body.size)
    (hs : ∀ i ∈ Instr.preorderAll body.instrs, i.isStructured = true)
    (hok : ScopeCheck.body body = .ok ()) (n : Nat) (hm : Has [] m) :
    Agrees (Fault.Excused cfg) (runBlocks (Instr.exec cfg rounds) body n 0)
      (runBlocksClosed halt (Instr.guarded halt cfg rounds false) body n 0) m fun _ _ => True := by
  obtain ⟨block, hblock⟩ : ∃ block, body.blocks.get? 0 = some block := by
    apply Option.ne_none_iff_exists'.1
    rw [Ne, Arena.get?_eq_none_iff]
    have : body.blocks.size = 1 := hsize
    omega
  have hzero : ∀ b ∈ body.flow.order, b = 0 := by
    intro b hb
    have := Body.lt_size_of_mem_order hb
    omega
  have hentry : body.entry? = some 0 := if_neg (by omega)
  obtain ⟨starts, hstart, hsettle⟩ := exists_starts hok (by
    intro l1 b l2 hl
    obtain rfl := hzero b (by simp [hl])
    exact .inl (by simp [hentry]))
  have hstart : starts.get? 0 = some [] := hstart 0 [] (by simp [hentry])
  obtain ⟨E, o, flow, s, ho, hlist, hflow⟩ := hsettle 0 (Body.entry_mem_order (by omega))
  obtain rfl : [] = o := Option.some.inj (hstart.symm.trans ho)
  rw [blockOf_eq hblock] at hlist
  -- control that reaches the end of the block has no scope open, also when it starts over
  have hclosed : flow = .fallThrough → s.opened = [] := by
    intro h
    cases hsuccs : body.succs 0 with
    | nil => exact (hflow h).1 hsuccs
    | cons t rest =>
      have ht : t ∈ body.succs 0 := by simp [hsuccs]
      have htarget := (hflow h).2 t ht
      obtain rfl : t = 0 := by
        have := hedges t ht
        omega
      exact (Option.some.inj (hstart.symm.trans htarget)).symm
  have hinside : ∀ next, body.fallThrough? 0 = some next → next = 0 := by
    intro next hnext
    unfold Body.fallThrough? at hnext
    split at hnext
    · next single hsuccs =>
      obtain rfl : single = next := Option.some.inj hnext
      have := hedges single (by simp [hsuccs])
      omega
    · rw [if_neg (by omega)] at hnext
      cases hnext
  have hmem := Body.mem_toList_of_get? hblock
  have hsound : ∀ i ∈ block.instrs, Instr.Sound cfg rounds halt i := by
    intro i hi
    apply Instr.keeps harc i
    intro j hj
    exact hs j (List.mem_flatMap.2 ⟨i, List.mem_flatMap.2 ⟨block, hmem, hi⟩, hj⟩)
  induction n generalizing m with
  | zero => exact .of_leads trivial
  | succ n ih =>
    unfold runBlocks runBlocksClosed
    rw [hblock]
    simp only [runBlock_eq, bind_assoc]
    apply (Instr.keeps_list hsound hlist false m hm).bind
    intro c m1 hc
    have hend : c = .next → m1.scopes = [] := by
      intro hnext
      subst hnext
      have hhas := hc.has
      rw [hclosed hc.2.1] at hhas
      exact hhas.scopes_eq_nil
    apply Agrees.of_guard (guardEnd_of_closed hend)
    cases c with
    | next =>
      have hhas := hc.has
      rw [hclosed hc.2.1] at hhas
      cases hfall : body.fallThrough? 0 with
      | none =>
        simp only [leaveBlock, hfall, pure_bind]
        exact .pure trivial
      | some next =>
        obtain rfl := hinside next hfall
        simp only [leaveBlock, hfall, pure_bind]
        apply Agrees.bind (P := fun _ m' => Has [] m')
        · exact .of_leads (hhas.of_still rfl rfl)
        · exact fun _ m' hm' => ih hm'
    | jump label => exact hc.2.1.elim
    | ret v => exact .pure trivial
    | throw e =>
      apply (Agrees.of_leads (leads_leaveBlock_throw hc.1)).bind
      rintro _ m' rfl
      exact .pure trivial

end Exec

/-- A run that goes through the blocks as the machine does is the run of the machine, and does not go
wrong about scopes. -/
theorem Operation.runBy_eq_run {cfg : Config σ} (op : Operation) {args : List Value} {calls : σ}
    {walk : Halt → Exec σ Control}
    (h : ∀ halt, Exec.Agrees (Fault.Excused cfg)
      (Exec.runBlocks (Instr.exec cfg (op.enoughRounds cfg.maxSteps)) op.body
        (op.enoughRounds cfg.maxSteps) 0) (walk halt) (Machine.start op args calls)
      fun _ _ => True) :
    (∀ f, (op.run cfg args calls).1 = .error (.fault f) → f.Excused cfg) ∧
      ∀ halt, op.runBy (walk halt) cfg args calls = op.run cfg args calls := by
  have hall := fun halt => (h halt).bind fun c m _ =>
    .of_leads (Exec.leads_ending c cfg.memory m)
  rw [run_eq_runBy]
  constructor
  · exact (Exec.Leads.answer (hall .diverged).2).1
  · intro halt
    unfold runBy Exec.answer
    rw [(hall halt).1]

theorem Exec.Has.start (op : Operation) (args : List Value) (calls : σ) :
    Exec.Has [] (Machine.start op args calls) := by
  obtain ⟨hscopes, hhandlers⟩ := Machine.start_nothingOpen op args calls
  exact ⟨by simp [Exec.openIds, hscopes], hhandlers⟩

/-- In an operation of one block that is structured throughout and passes the check, no run goes wrong
about scopes, whatever its handler of calls answers, unless the handler itself fails so. No scope is
open when a return or a throw executes, nor when control falls off the end of the block: a run that
halts there is the same run, whatever it would halt with. -/
theorem runClosed_eq_run_of_checkScopes (op : Operation) (hsize : op.body.size = 1)
    (hbuilt : op.body.Built) (hs : ∀ i ∈ op.preorder, i.isStructured = true)
    (hok : op.checkScopes = .ok ()) (cfg : Config σ) (harc : cfg.memory = .arc) (args : List Value)
    (calls : σ) :
    (∀ f, (op.run cfg args calls).1 = .error (.fault f) → f.Excused cfg) ∧
      ∀ halt, op.runClosed halt cfg args calls = op.run cfg args calls := by
  have hbody := (Operation.checkScopes_eq_ok_iff _).1 hok
  have hstart : Exec.Has [] (Machine.start op args calls) := .start op args calls
  exact op.runBy_eq_run fun halt => Exec.agrees_runBlocks (op.enoughRounds cfg.maxSteps) halt harc
    hsize (hbuilt.lt_size 0) hs hbody (op.enoughRounds cfg.maxSteps) hstart

/-- A loop that enters a scope in every round, and returns from inside it out of two scopes. -/
def returnFromLoop : Operation :=
  { name := "run"
    returnType := TypeName.void
    body := { index := ⟨[("entry", 0)]⟩, blocks := ⟨#[{
      label := "entry"
      instrs := [
        { opcode := .scopeEnter, operands := ["outer"] },
        { opcode := .reference, operands := ["x", TypeName.string] },
        { opcode := .chain
          payload := .chain
            { kind := .doWhileLoop
              scope := "loop"
              cases := [
                { kind := .expression
                  condition :=
                    { evaluation := [{ opcode := .isNull, operands := ["x"], result := some "again" }]
                      primitive := "again" }
                  body :=
                    { evaluation := [
                        { opcode := .scopeEnter, operands := ["inner"] },
                        { opcode := .isNull, operands := ["x"], result := some "unset" },
                        { opcode := .chain
                          payload := .chain
                            { kind := .ifElse
                              scope := "test"
                              cases := [
                                { kind := .expression
                                  condition := { primitive := "unset" }
                                  body :=
                                    { evaluation := [
                                        { opcode := .scopeExit, operands := ["inner"] },
                                        { opcode := .scopeExit, operands := ["outer"] },
                                        { opcode := .ret }] } }] } },
                        { opcode := .scopeExit, operands := ["inner"] }] } }] } },
        { opcode := .scopeExit, operands := ["outer"] }] }]⟩ } }

theorem runClosed_eq_run_returnFromLoop :
    returnFromLoop.checkScopes = .ok () ∧
      (returnFromLoop.run thrower [] ()).1.toOption.isSome = true ∧
      ∀ halt, returnFromLoop.runClosed halt thrower [] () = returnFromLoop.run thrower [] () := by
  have horder : returnFromLoop.body.flow.order = [0] := by
    have hstart : returnFromLoop.body.flow =
        FlowSummary.walk returnFromLoop.body.succs [0] [.visit 0] {} := rfl
    have hsuccs : returnFromLoop.body.succs 0 = [] := rfl
    rw [hstart]
    simp [FlowSummary.walk, hsuccs]
  have hok : returnFromLoop.checkScopes = .ok () := by
    unfold Operation.checkScopes ScopeCheck.body
    rw [horder]
    decide +kernel
  have hs : ∀ i ∈ returnFromLoop.preorder, i.isStructured = true := by decide +kernel
  have hbuilt : returnFromLoop.body.Built :=
    .setInstrs (b := 0) (f := fun _ => returnFromLoop.body.instrs)
      (@Body.Built.addBlock _ _ "entry" .empty rfl) rfl
  refine ⟨hok, by decide +kernel, ?_⟩
  exact (runClosed_eq_run_of_checkScopes returnFromLoop rfl hbuilt hs hok thrower rfl [] ()).2

end ScopedIR
