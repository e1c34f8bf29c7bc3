import ScopedIR.Proofs.CheckedRuns

/-!
# Checked blocks

The check hands the scopes open at the end of a block to its successors. A branch leaves a block
earlier, so this says something about the scopes at the branch only if none is entered or left behind
it; and a block that departs hands nothing over, also when a branch in it is taken. Code in which a
branch is the last thing a block does about scopes, and in which blocks that depart have no successors,
keeps the scopes that the check finds, along every path through the graph.

Without these two conditions the check accepts code that goes wrong about scopes:
`unknownScope_enterBehindBranch` is an example.

Main definitions:

* `Body.FollowsEdges`: control passes along edges;
* `Block.branchesLast`, `Block.departsAlone`: the two conditions on blocks.

Main statement: `runGuarded_eq_run_of_checkScopes`, by induction on the blocks that a run goes through.
-/

namespace ScopedIR

variable {σ : Type}

/-- An instruction that is no chain, no logical block and sets up no handler of a block. -/
def Instr.isFlat (i : Instr) : Bool :=
  i.chain?.isNone && i.logical?.isNone && (ScopeCheck.isPlain i.opcode || i.opcode.isBranch)

/-- The targets of the branches in a block are successors of it. -/
def Body.JumpsAlong (body : Body) (block : Block) : Prop :=
  ∀ i ∈ block.instrs, i.opcode.isBranch = true →
    ∀ label ∈ i.targetLabel?, ∀ t ∈ body.find? label, t ∈ block.succs

instance (body : Body) (block : Block) : Decidable (body.JumpsAlong block) :=
  inferInstanceAs (Decidable (∀ i ∈ block.instrs, i.opcode.isBranch = true →
    ∀ label ∈ i.targetLabel?, ∀ t ∈ body.find? label, t ∈ block.succs))

/-- Where control may reach the end of the block at a position, the block that it falls through to is a
successor. -/
def Body.FallsAlong (body : Body) (b : Nat) (block : Block) : Prop :=
  (∀ i ∈ block.instrs, i.opcode ≠ .branch ∧ i.opcode.departs = false) →
    ∀ next ∈ body.fallThrough? b, next ∈ block.succs

instance (body : Body) (b : Nat) (block : Block) : Decidable (body.FallsAlong b block) :=
  inferInstanceAs (Decidable
    ((∀ i ∈ block.instrs, i.opcode ≠ .branch ∧ i.opcode.departs = false) →
      ∀ next ∈ body.fallThrough? b, next ∈ block.succs))

/-- Control passes from block to block along edges. -/
def Body.FollowsEdges (body : Body) : Prop :=
  ∀ b < body.size, ∀ block ∈ body.blocks.get? b, body.JumpsAlong block ∧ body.FallsAlong b block

instance (body : Body) : Decidable body.FollowsEdges :=
  inferInstanceAs (Decidable (∀ b < body.size, ∀ block ∈ body.blocks.get? b,
    body.JumpsAlong block ∧ body.FallsAlong b block))

/-- Behind a branch no scope is entered or left. -/
def Instr.settledAtBranches : List Instr → Bool
  | [] => true
  | i :: rest =>
    (!i.opcode.isBranch || rest.all fun j => j.opcode ≠ .scopeEnter && j.opcode ≠ .scopeExit) &&
      settledAtBranches rest

/-- A block that enters and leaves no scope behind a branch. -/
def Block.branchesLast (block : Block) : Bool := Instr.settledAtBranches block.instrs

/-- A block that returns or throws has no successors. -/
def Block.departsAlone (block : Block) : Bool :=
  block.succs.isEmpty || block.instrs.all fun i => !i.opcode.departs

namespace ScopeCheck

variable {i : Instr} {l : List Instr} {b : Nat} {s s' : Scopes} {flow : Flow}

/-! ### Flat code -/

theorem checkScopes_of_isFlat (hi : i.isFlat = true) : i.checkScopes b s = event i b s := by
  rw [Instr.checkScopes_eq]
  obtain ⟨opcode, operands, result, location, escape, payload⟩ := i
  cases payload with
  | plain | call =>
    unfold instr
    generalize event _ b s = e
    obtain v | ⟨_ | _, s'⟩ := e <;> rfl
  | chain c => simp [Instr.isFlat, Instr.chain?] at hi
  | logical block => simp [Instr.isFlat, Instr.logical?] at hi

/-- Code that enters and leaves no scope has the same scopes open at its end. -/
theorem opened_of_unmoved (hflat : ∀ i ∈ l, i.isFlat = true)
    (hmove : ∀ i ∈ l, i.opcode ≠ .scopeEnter ∧ i.opcode ≠ .scopeExit)
    (h : list l b s = .ok (flow, s')) : s'.opened = s.opened := by
  induction l generalizing s with
  | nil =>
    cases h
    rfl
  | cons i rest ih =>
    obtain ⟨⟨flow1, s1⟩, hi, h⟩ := except_bind_eq_ok.1 h
    rw [checkScopes_of_isFlat (hflat i List.mem_cons_self)] at hi
    obtain ⟨henter, hexit⟩ := hmove i List.mem_cons_self
    obtain ⟨rfl, -⟩ := event_unmoved henter hexit hi
    cases flow1 with
    | departed =>
      cases h
      rfl
    | fallThrough =>
      exact ih (fun j hj => hflat j (List.mem_cons_of_mem _ hj))
        (fun j hj => hmove j (List.mem_cons_of_mem _ hj)) h

/-- What the check of an instruction departs on. -/
theorem event_flow (h : event i 0 s = .ok (flow, s')) :
    flow = if i.opcode.departs then .departed else .fallThrough := by
  by_cases henter : i.opcode = .scopeEnter
  · unfold event at h
    simp only [henter] at h
    split at h
    · cases h
    · cases h
      rw [henter]
      rfl
  · by_cases hexit : i.opcode = .scopeExit
    · unfold event at h
      simp only [hexit] at h
      split at h
      · cases h
      · split at h
        · cases h
          rw [hexit]
          rfl
        · cases h
    · exact (event_unmoved henter hexit h).2

/-- Flat code is checked to its end exactly when it has no return and no throw. -/
theorem flow_eq_fallThrough_iff (hflat : ∀ i ∈ l, i.isFlat = true)
    (h : list l 0 s = .ok (flow, s')) :
    flow = .fallThrough ↔ ∀ i ∈ l, i.opcode.departs = false := by
  induction l generalizing s with
  | nil =>
    cases h
    simp
  | cons i rest ih =>
    obtain ⟨⟨flow1, s1⟩, hi, h⟩ := except_bind_eq_ok.1 h
    rw [checkScopes_of_isFlat (hflat i List.mem_cons_self)] at hi
    have hflow := event_flow hi
    rw [List.forall_mem_cons]
    cases hd : i.opcode.departs with
    | true =>
      rw [hd] at hflow
      subst hflow
      cases h
      simp
    | false =>
      rw [hd] at hflow
      subst hflow
      simp [ih (fun j hj => hflat j (List.mem_cons_of_mem _ hj)) h]

theorem passes_of_isFlat (hflat : ∀ i ∈ l, i.isFlat = true)
    (hd : ∀ i ∈ l, i.opcode.departs = false) : Passes l := by
  intro s s' h
  have hflow := (flow_eq_fallThrough_iff hflat h).2 hd
  cases hflow

end ScopeCheck

namespace Exec

open ScopeCheck

variable {cfg : Config σ} {rounds : Nat} {halt : Halt} {i : Instr} {p : Payload (Exec σ Control)}

/-- The labels that code may branch to. -/
def Branches (l : List Instr) (label : String) : Prop :=
  ∃ i ∈ l, i.opcode.isBranch = true ∧ i.targetLabel? = some label

/-- Flat code that is accepted reaches its end, and every branch it takes, with the scopes that the
check finds at its end. -/
theorem keeps_flat (harc : cfg.memory = .arc) {l : List Instr} (hflat : ∀ i ∈ l, i.isFlat = true)
    (hsettled : Instr.settledAtBranches l = true) {s s' : Scopes} {flow : Flow}
    (hl : ScopeCheck.list l 0 s = .ok (flow, s')) :
    Keeps cfg s.opened
      (Ends (flow = .fallThrough ∧ ∀ i ∈ l, i.opcode ≠ .branch) (Branches l) s'.opened)
      (Exec.runAll (l.map (Instr.exec cfg rounds)))
      (Exec.runAll (l.map (Instr.guarded halt cfg rounds false))) := by
  induction l generalizing s with
  | nil =>
    cases hl
    exact .pure fun _ hm => hm.ends ⟨rfl, by simp⟩
  | cons i rest ih =>
    obtain ⟨hi, hrest⟩ := List.forall_mem_cons.1 hflat
    unfold Instr.settledAtBranches at hsettled
    rw [Bool.and_eq_true] at hsettled
    obtain ⟨hbehind, hsettled⟩ := hsettled
    obtain ⟨⟨flow1, s1⟩, hevent, hl⟩ := except_bind_eq_ok.1 hl
    rw [checkScopes_of_isFlat hi] at hevent
    -- what the rest ends with, the whole ends with
    have htail : ∀ m', i.opcode ≠ .branch → Has s1.opened m' → flow1 = .fallThrough →
        Agrees (Fault.Excused cfg) (Exec.runAll (rest.map (Instr.exec cfg rounds)))
          (Exec.runAll (rest.map (Instr.guarded halt cfg rounds false))) m'
          (Ends (flow = .fallThrough ∧ ∀ j ∈ i :: rest, j.opcode ≠ .branch) (Branches (i :: rest))
            s'.opened) := by
      intro m' hne hm' hflow
      subst hflow
      apply (ih hrest hsettled hl m' hm').mono
      intro c m'' hc
      cases c with
      | next => exact ⟨hc.1, ⟨hc.2.1.1, List.forall_mem_cons.2 ⟨hne, hc.2.1.2⟩⟩, hc.2.2⟩
      | jump label =>
        obtain ⟨hh, ⟨j, hj, hjump⟩, hids⟩ := hc
        exact ⟨hh, ⟨j, List.mem_cons_of_mem _ hj, hjump⟩, hids⟩
      | ret v | throw e => exact hc
    cases hb : i.opcode.isBranch with
    | true =>
      have hmove : i.opcode ≠ .scopeEnter ∧ i.opcode ≠ .scopeExit ∧ i.opcode.departs = false := by
        cases hop : i.opcode <;> simp [hop, Opcode.isBranch, Opcode.departs] at hb ⊢
      obtain ⟨rfl, hflow⟩ := event_unmoved hmove.1 hmove.2.1 hevent
      rw [hmove.2.2] at hflow
      subst hflow
      have hopened : s'.opened = s1.opened := by
        apply opened_of_unmoved hrest _ hl
        simpa [hb] using hbehind
      intro m hm
      have hperform : Still cfg _ (perform exitScope cfg rounds i
          (i.payload.map (Instr.stepped cfg rounds true))) :=
        (Confined.perform_branch hb).still
      have hsame : ∀ p p' : Payload (Exec σ Control),
          perform exitScope cfg rounds i p = perform exitScope cfg rounds i p' := by
        intro p p'
        unfold perform
        cases hop : i.opcode <;> simp [hop, Opcode.isBranch] at hb ⊢
      have hagrees : Agrees (Fault.Excused cfg) (i.exec cfg rounds)
          (i.guarded halt cfg rounds false) m fun c m' =>
            ((c = .next ∧ i.opcode ≠ .branch) ∨
              ∃ label, c = .jump label ∧ i.targetLabel? = some label) ∧ Has s1.opened m' := by
        apply Instr.agrees_guarded (fun h => by cases h) (fun _ h => by cases h) false
        · intro hd
          rw [hmove.2.2] at hd
          cases hd
        · rw [hsame (i.payload.map (Instr.guarded halt cfg rounds true))
            (i.payload.map (Instr.stepped cfg rounds true))]
          exact Keeps.still hperform (ticked m) (hm.of_still rfl rfl)
      apply hagrees.bind
      intro c m' hc
      obtain ⟨⟨rfl, hne⟩ | ⟨label, rfl, hlabel⟩, hm'⟩ := hc
      · exact htail m' hne hm' rfl
      · apply Agrees.pure
        refine ⟨hm'.handlers, ⟨i, List.mem_cons_self, hb, hlabel⟩, ?_⟩
        rw [hopened]
        exact hm'.ids
    | false =>
      have hplain : isPlain i.opcode = true := by
        simp only [Instr.isFlat, Bool.and_eq_true, Bool.or_eq_true, hb] at hi
        simpa using hi.2
      have hne : i.opcode ≠ .branch := by
        intro hop
        rw [hop] at hb
        cases hb
      apply (Instr.Sound.of_plain harc hplain hevent false).bind
      intro c m' hc
      cases c with
      | next => exact htail m' hne hc.has hc.2.1
      | jump label => exact hc.2.1.elim
      | ret v | throw e => exact .pure (hc.left (by simp) (by simp))

/-! ### The walk from block to block -/

/-- Where the starts agree along the edges, a run that reaches a block with the scopes it starts with
reaches every further block so. -/
theorem agrees_walk (rounds : Nat) (halt : Halt) (harc : cfg.memory = .arc) {body : Body}
    (hflat : ∀ i ∈ body.instrs, i.isFlat = true) (hedges : body.FollowsEdges)
    (hbranch : ∀ block ∈ body.toList, block.branchesLast = true)
    (hdepart : ∀ block ∈ body.toList, block.departsAlone = true)
    {starts : FinMap Nat (List String)} (hsettle : ∀ b ∈ body.flow.order, Settles body starts b)
    (n b : Nat) {m : Machine σ} {o : List String} (hm : Has o m)
    (hb : b < body.size → b ∈ body.flow.order ∧ starts.get? b = some o) :
    Agrees (Fault.Excused cfg) (runBlocks (Instr.exec cfg rounds) body n b)
      (runBlocks (Instr.guarded halt cfg rounds false) body n b) m fun _ _ => True := by
  induction n generalizing b m o with
  | zero => exact .of_leads trivial
  | succ n ih =>
    unfold runBlocks
    cases hblock : body.blocks.get? b with
    | none => exact .pure trivial
    | some block =>
      have hsize : b < body.size := by
        by_contra hge
        rw [(Arena.get?_eq_none_iff _ _).2 (Nat.le_of_not_lt hge)] at hblock
        cases hblock
      obtain ⟨horder, hstart⟩ := hb hsize
      have hmem := Body.mem_toList_of_get? hblock
      have hblockOf := blockOf_eq hblock
      have hsuccs : body.succs b = block.succs := by
        rw [← succs_blockOf, hblockOf]
      obtain ⟨E, o', flow, s, ho', hlist, hflow⟩ := hsettle b horder
      obtain rfl : o = o' := Option.some.inj (hstart.symm.trans ho')
      rw [hblockOf] at hlist
      rw [hsuccs] at hflow
      have hflatBlock : ∀ i ∈ block.instrs, i.isFlat = true := fun i hi =>
        hflat i (List.mem_flatMap.2 ⟨block, hmem, hi⟩)
      -- a successor starts with the scopes at the end of the block
      have honward : ∀ t ∈ block.succs, flow = .fallThrough ∧
          (t < body.size → t ∈ body.flow.order ∧ starts.get? t = some s.opened) := by
        intro t ht
        have hfall : flow = .fallThrough := by
          apply (flow_eq_fallThrough_iff hflatBlock hlist).2
          have halone := hdepart block hmem
          unfold Block.departsAlone at halone
          rw [List.isEmpty_eq_false_iff.2 (List.ne_nil_of_mem ht)] at halone
          simpa using halone
        refine ⟨hfall, fun htsize => ⟨?_, (hflow hfall).2 t ht⟩⟩
        exact Body.mem_order_of_succ horder (by rw [hsuccs]; exact ht) htsize
      have hgo : ∀ t ∈ block.succs, ∀ m' : Machine σ, Has s.opened m' →
          Agrees (Fault.Excused cfg)
            (modify (fun m => { m with previous := some block.label }) >>= fun _ =>
              runBlocks (Instr.exec cfg rounds) body n t)
            (modify (fun m => { m with previous := some block.label }) >>= fun _ =>
              runBlocks (Instr.guarded halt cfg rounds false) body n t) m' fun _ _ => True := by
        intro t ht m' hm'
        apply Agrees.bind (P := fun _ m'' => Has s.opened m'')
        · exact .of_leads (hm'.of_still rfl rfl)
        · exact fun _ m'' hm'' => ih t hm'' (honward t ht).2
      simp only [runBlock_eq, bind_assoc]
      apply (keeps_flat harc hflatBlock (hbranch block hmem) hlist m hm).bind
      intro c m1 hc
      cases c with
      | next =>
        cases hfall : body.fallThrough? b with
        | none =>
          simp only [leaveBlock, hfall, pure_bind]
          exact .pure trivial
        | some next =>
          simp only [leaveBlock, hfall, pure_bind]
          apply hgo next _ m1 hc.has
          apply (hedges b hsize block hblock).2 _ next hfall
          intro i hi
          exact ⟨hc.2.1.2 i hi, (flow_eq_fallThrough_iff hflatBlock hlist).1 hc.2.1.1 i hi⟩
      | jump label =>
        obtain ⟨hh, ⟨i, hi, hib, hlabel⟩, hids⟩ := hc
        simp only [leaveBlock, Exec.blockAt]
        cases hfind : body.find? label with
        | none => exact .of_leads fun h => by cases h
        | some t =>
          simp only [ofOption, pure_bind]
          exact hgo t ((hedges b hsize block hblock).1 i hi hib label hlabel t hfind) m1 ⟨hids, hh⟩
      | ret v => exact .pure trivial
      | throw e =>
        apply (Agrees.of_leads (leads_leaveBlock_throw hc.1)).bind
        rintro _ m' rfl
        exact .pure trivial

end Exec

/-- In an operation without chains, logical blocks and handlers of blocks, where control passes along
edges, branches come after the scope events of their block and blocks that depart have no successors, a
body that passes the check keeps its scopes: no run goes wrong about scopes, whatever its handler of
calls answers, unless the handler itself fails so, and no scope is open when a return or a throw
executes. -/
theorem runGuarded_eq_run_of_checkScopes (op : Operation)
    (hflat : ∀ i ∈ op.body.instrs, i.isFlat = true) (hedges : op.body.FollowsEdges)
    (hbranch : ∀ block ∈ op.body.toList, block.branchesLast = true)
    (hdepart : ∀ block ∈ op.body.toList, block.departsAlone = true)
    (hok : op.checkScopes = .ok ()) (cfg : Config σ) (harc : cfg.memory = .arc) (args : List Value)
    (calls : σ) :
    (∀ f, (op.run cfg args calls).1 = .error (.fault f) → f.Excused cfg) ∧
      ∀ halt, op.runGuarded halt cfg args calls = op.run cfg args calls := by
  have hpass : ∀ b, op.body.succs b ≠ [] → ScopeCheck.Passes (ScopeCheck.blockOf op.body b).instrs := by
    intro b hb
    unfold Body.succs at hb
    cases hblock : op.body.blocks.get? b with
    | none =>
      rw [hblock] at hb
      exact absurd rfl hb
    | some block =>
      have hmem := Body.mem_toList_of_get? hblock
      rw [hblock] at hb
      rw [ScopeCheck.blockOf_eq hblock]
      have halone := hdepart block hmem
      unfold Block.departsAlone at halone
      rw [List.isEmpty_eq_false_iff.2 hb] at halone
      apply ScopeCheck.passes_of_isFlat
      · exact fun i hi => hflat i (List.mem_flatMap.2 ⟨block, hmem, hi⟩)
      · simpa using halone
  obtain ⟨starts, hentry, hsettle⟩ :=
    ScopeCheck.exists_starts_of_passes ((Operation.checkScopes_eq_ok_iff _).1 hok) hpass
  have hstart : Exec.Has [] (Machine.start op args calls) := .start op args calls
  exact op.runBy_eq_run fun halt => Exec.agrees_walk (op.enoughRounds cfg.maxSteps) halt harc hflat
    hedges hbranch hdepart hsettle (op.enoughRounds cfg.maxSteps) 0 hstart
      fun hsize => ⟨Body.entry_mem_order hsize, hentry hsize⟩

/-- A loop inside a scope that is entered before it and left behind it. -/
def loopInScope : Operation :=
  { name := "run"
    returnType := TypeName.void
    body := { index := ⟨[("end", 3), ("body", 2), ("head", 1), ("entry", 0)]⟩, blocks := ⟨#[
      { label := "entry"
        instrs := [
          { opcode := .reference, operands := ["x", TypeName.string] },
          { opcode := .scopeEnter, operands := ["s"] }]
        succs := [1] },
      { label := "head"
        preds := [0, 2]
        instrs := [
          { opcode := .isNull, operands := ["x"], result := some "unset" },
          { opcode := .branchTrue, operands := ["unset", "end"] }]
        succs := [2, 3] },
      { label := "body"
        preds := [1]
        instrs := [{ opcode := .branch, operands := ["head"] }]
        succs := [1] },
      { label := "end"
        preds := [1]
        instrs := [{ opcode := .scopeExit, operands := ["s"] }, { opcode := .ret }] }]⟩ } }

theorem runGuarded_eq_run_loopInScope :
    loopInScope.checkScopes = .ok () ∧ (loopInScope.run thrower [] ()).1.toOption.isSome = true ∧
      ∀ halt, loopInScope.runGuarded halt thrower [] () = loopInScope.run thrower [] () := by
  have horder : loopInScope.body.flow.order = [0, 1, 3, 2] := by
    have hstart : loopInScope.body.flow =
        FlowSummary.walk loopInScope.body.succs [0, 1, 2, 3] [.visit 0] {} := rfl
    have hsuccs : loopInScope.body.succs 0 = [1] ∧ loopInScope.body.succs 1 = [2, 3] ∧
        loopInScope.body.succs 2 = [1] ∧ loopInScope.body.succs 3 = [] := ⟨rfl, rfl, rfl, rfl⟩
    rw [hstart]
    simp [FlowSummary.walk, hsuccs]
  have hok : loopInScope.checkScopes = .ok () := by
    unfold Operation.checkScopes ScopeCheck.body
    rw [horder]
    decide +kernel
  refine ⟨hok, by decide +kernel, ?_⟩
  exact (runGuarded_eq_run_of_checkScopes loopInScope (by decide +kernel) (by decide +kernel)
    (by decide +kernel) (by decide +kernel) hok thrower rfl [] ()).2

/-- Control reaches a block with a scope open, or from a branch in front of that scope. -/
def enterBehindBranch : Operation :=
  { name := "run"
    returnType := TypeName.void
    body := { index := ⟨[("join", 1), ("entry", 0)]⟩, blocks := ⟨#[
      { label := "entry"
        instrs := [
          { opcode := .reference, operands := ["x", TypeName.string] },
          { opcode := .isNull, operands := ["x"], result := some "unset" },
          { opcode := .branchTrue, operands := ["unset", "join"] },
          { opcode := .scopeEnter, operands := ["s"] }]
        succs := [1] },
      { label := "join"
        preds := [0]
        instrs := [{ opcode := .scopeExit, operands := ["s"] }, { opcode := .ret }] }]⟩ } }

theorem unknownScope_enterBehindBranch :
    (∀ i ∈ enterBehindBranch.body.instrs, i.isFlat = true) ∧ enterBehindBranch.body.FollowsEdges ∧
      enterBehindBranch.checkScopes = .ok () ∧
      (enterBehindBranch.run thrower [] ()).1 = .error (.fault (.unknownScope "s")) := by
  have horder : enterBehindBranch.body.flow.order = [0, 1] := by
    have hstart : enterBehindBranch.body.flow =
        FlowSummary.walk enterBehindBranch.body.succs [0, 1] [.visit 0] {} := rfl
    have hsuccs0 : enterBehindBranch.body.succs 0 = [1] := rfl
    have hsuccs1 : enterBehindBranch.body.succs 1 = [] := rfl
    rw [hstart]
    simp [FlowSummary.walk, hsuccs0, hsuccs1]
  refine ⟨by decide +kernel, by decide +kernel, ?_, by decide +kernel⟩
  unfold Operation.checkScopes ScopeCheck.body
  rw [horder]
  decide +kernel

end ScopedIR
