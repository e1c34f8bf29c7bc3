import Mathlib.Data.Fintype.Pigeonhole
import ScopedIR.Proofs.GuardedRuns
import ScopedIR.Proofs.PacedActions

/-!
# What the step limit bounds

A run that answers has counted no more steps than its limit. A loop that executes an instruction in
every round, and a walk that does not go round through empty blocks, therefore come to an end. A walk
through a circle of empty blocks counts nothing and goes round forever, and so does a loop without
instructions whose condition holds.

Main definitions:

* `Body.walksEnd`: no walk through empty blocks goes round;
* `Operation.progresses`: neither a walk nor a loop goes round without counting.

Main statements:

* `Body.passing_of_size`: a walk through more empty blocks than there are never ends;
* `Exec.endAlike_runBlocks`: with a walk through all blocks before each step, more rounds make no
  difference;
* `steps_le_or_round_forever`: a run answers within its limit, faults or goes round forever, and it
  does not if the operation progresses;
* `rounds_forever_emptyCircle`: an operation that goes round forever.
-/

namespace ScopedIR

variable {σ α β : Type}

/-! ### Walks through empty blocks -/

namespace Body

variable {body : Body}

/-- The block that control goes on to from an empty one. -/
def passedOn? (body : Body) (b : Nat) : Option Nat :=
  match body.blocks.get? b with
  | some block => if block.instrs = [] then body.fallThrough? b else none
  | none => none

/-- Where a walk through empty blocks is after `k` of them, unless it ends before. -/
def passing (body : Body) : Nat → Nat → Option Nat
  | 0, b => some b
  | k + 1, b => (body.passedOn? b).bind (body.passing k)

/-- No walk goes through more empty blocks than there are. -/
def walksEnd (body : Body) : Bool :=
  (List.range body.size).all fun b => (body.passing (body.size + 1) b).isNone

theorem passing_add (j k b : Nat) :
    body.passing (j + k) b = (body.passing j b).bind (body.passing k) := by
  induction j generalizing b with
  | zero => rw [Nat.zero_add]; rfl
  | succ j ih =>
    rw [Nat.add_right_comm, passing, passing]
    cases body.passedOn? b with
    | none => rfl
    | some c => exact ih c

variable {b : Nat}

theorem passing_ne_none_of_le {j k : Nat} (hjk : j ≤ k) (h : body.passing k b ≠ none) :
    body.passing j b ≠ none := by
  intro hj
  obtain ⟨r, rfl⟩ := Nat.exists_eq_add_of_le hjk
  rw [passing_add, hj] at h
  exact h rfl

/-- A walk that comes to a block for the second time never ends. -/
theorem passing_of_circle {i j c : Nat} (hij : i < j) (hi : body.passing i b = some c)
    (hj : body.passing j b = some c) (k : Nat) : body.passing k b ≠ none := by
  induction k using Nat.strong_induction_on with
  | _ k ih =>
    by_cases hk : k ≤ j
    · exact passing_ne_none_of_le hk (by rw [hj]; simp)
    · obtain ⟨r, rfl⟩ := Nat.exists_eq_add_of_le (Nat.le_of_not_le hk)
      have hshort := ih (i + r) (by omega)
      rw [passing_add, hi] at hshort
      rw [passing_add, hj]
      exact hshort

theorem lt_size_of_passedOn {c : Nat} (h : body.passedOn? b = some c) : b < body.size := by
  unfold passedOn? at h
  split at h
  · next block hb =>
    unfold Arena.get? at hb
    exact (Array.getElem?_eq_some_iff.1 hb).1
  · cases h

/-- A walk through more empty blocks than there are never ends. -/
theorem passing_of_size (h : body.passing (body.size + 1) b ≠ none) (k : Nat) :
    body.passing k b ≠ none := by
  have hsome : ∀ i : Fin (body.size + 1), ∃ c, body.passing i b = some c ∧ c < body.size := by
    intro i
    have hnext := passing_ne_none_of_le (show (i : Nat) + 1 ≤ body.size + 1 by omega) h
    cases hi : body.passing i b with
    | none => exact absurd hi (passing_ne_none_of_le (by omega) h)
    | some c =>
      refine ⟨c, rfl, ?_⟩
      rw [passing_add, hi] at hnext
      change (body.passedOn? c).bind (body.passing 0) ≠ none at hnext
      cases hc : body.passedOn? c with
      | none => rw [hc] at hnext; exact absurd rfl hnext
      | some d => exact lt_size_of_passedOn hc
  choose visit hvisit hlt using hsome
  obtain ⟨i, j, hne, hsame⟩ := Fintype.exists_ne_map_eq_of_card_lt
    (fun i => (⟨visit i, hlt i⟩ : Fin body.size)) (by simp)
  have hvisits : visit i = visit j := congrArg Fin.val hsame
  rcases Nat.lt_or_gt_of_ne (fun h => hne (Fin.ext h)) with hij | hij
  · exact passing_of_circle hij (hvisit i) (by rw [hvisits]; exact hvisit j) k
  · exact passing_of_circle hij (hvisit j) (by rw [← hvisits]; exact hvisit i) k

theorem passing_of_walksEnd (h : body.walksEnd = true) (b : Nat) :
    body.passing (body.size + 1) b = none := by
  by_cases hb : b < body.size
  · exact Option.isNone_iff_eq_none.1 (List.all_eq_true.1 h b (List.mem_range.2 hb))
  · rw [passing]
    cases hc : body.passedOn? b with
    | none => rfl
    | some c => exact absurd (lt_size_of_passedOn hc) hb

/-- A walk that ends does so after as many blocks as there are at most. -/
theorem exists_end_of_passing {n : Nat} (h : body.passing (n + 1) b = none) :
    ∃ k c, k ≤ n ∧ body.passing k b = some c ∧ body.passedOn? c = none := by
  induction n generalizing b with
  | zero =>
    refine ⟨0, b, Nat.le_refl 0, rfl, ?_⟩
    cases hb : body.passedOn? b with
    | none => rfl
    | some c => rw [passing, hb] at h; cases h
  | succ n ih =>
    cases hb : body.passedOn? b with
    | none => exact ⟨0, b, Nat.zero_le _, rfl, hb⟩
    | some c =>
      rw [passing, hb] at h
      obtain ⟨k, d, hk, hd, hend⟩ := ih h
      refine ⟨k + 1, d, by omega, ?_, hend⟩
      rw [passing, hb]
      exact hd

end Body

/-! ### Running blocks -/

namespace Exec

variable {ends : Prop} {limit : Nat} {body : Body} {st st' : Instr → Exec σ Control}

/-- The two runs give the same answer within the limit, or halt alike with the handler in the same
state. -/
def EndAlike (ends : Prop) (limit : Nat) :
    EStateM.Result Halt (Machine σ) α → EStateM.Result Halt (Machine σ) α → Prop
  | .ok x m, r => r = .ok x m ∧ m.steps ≤ limit
  | .error halt m, r => ∃ m', r = .error halt m' ∧ m'.calls = m.calls ∧ (ends → halt ≠ .diverged)

theorem EndAlike.bind {a b : Exec σ α} {f : α → Exec σ β} {m : Machine σ}
    (h : EndAlike ends limit (a m) (b m)) (hf : ∀ x, StepFree (f x)) :
    EndAlike ends limit ((a >>= f) m) ((b >>= f) m) := by
  show EndAlike ends limit (EStateM.bind a f m) (EStateM.bind b f m)
  unfold EStateM.bind
  cases ha : a m with
  | error halt m1 =>
    rw [ha] at h
    obtain ⟨m2, hb, hcalls, hends⟩ := h
    rw [hb]
    exact ⟨m2, rfl, hcalls, hends⟩
  | ok x m1 =>
    rw [ha] at h
    obtain ⟨hb, hlimit⟩ := h
    rw [hb]
    have hsteps := hf x m1
    show EndAlike ends limit (f x m1) (f x m1)
    cases hx : f x m1 with
    | error halt m2 =>
      rw [hx] at hsteps
      exact ⟨m2, rfl, rfl, fun _ => hsteps⟩
    | ok y m2 =>
      rw [hx] at hsteps
      exact ⟨rfl, Nat.le_trans (Nat.le_of_eq hsteps) hlimit⟩

theorem stepFree_leaveBlock (b : Nat) (c : Control) : StepFree (σ := σ) (leaveBlock body b c) := by
  have hjump : ∀ label, Confined (σ := σ) (· ≠ .diverged) SameSteps (fun _ => True)
      (leaveBlock body b (.jump label)) :=
    fun _ => (Confined.ofOption nofun).bind fun _ _ => .pure trivial
  apply Confined.stepFree (P := fun _ => True)
  cases c with
  | next =>
    rw [leaveBlock]
    cases body.fallThrough? b <;> exact .pure trivial
  | jump label => exact hjump label
  | throw e =>
    refine .get_bind fun m => ?_
    split
    · refine .bind (.modified fun _ => rfl) fun _ _ => ?_
      exact (Confined.assign _ _).bind fun _ _ => hjump _
    · exact .pure trivial
  | ret v => exact .pure trivial

variable {b : Nat} {m : Machine σ}

/-- Passing through an empty block does nothing but to note it as the previous one. -/
theorem runBlocks_of_passedOn {c : Nat} (h : body.passedOn? b = some c) (m : Machine σ) :
    ∃ previous, ∀ (st : Instr → Exec σ Control) (n : Nat),
      runBlocks st body (n + 1) b m = runBlocks st body n c { m with previous } := by
  unfold Body.passedOn? at h
  split at h
  · next block hb =>
    split at h
    · next hempty =>
      refine ⟨some block.label, fun st n => ?_⟩
      rw [runBlocks, hb]
      show (runBlock st body b block >>= _) m = _
      rw [runBlock_eq, hempty]
      show (leaveBlock body b .next >>= _) m = _
      rw [leaveBlock, h]
      rfl
    · cases h
  · cases h

theorem runBlocks_of_passing {k c : Nat} (h : body.passing k b = some c) (m : Machine σ) :
    ∃ previous, ∀ (st : Instr → Exec σ Control) (n : Nat),
      runBlocks st body (n + k) b m = runBlocks st body n c { m with previous } := by
  induction k generalizing b m with
  | zero =>
    cases h
    exact ⟨m.previous, fun _ _ => rfl⟩
  | succ k ih =>
    cases hb : body.passedOn? b with
    | none => rw [Body.passing, hb] at h; cases h
    | some d =>
      rw [Body.passing, hb] at h
      obtain ⟨first, hfirst⟩ := runBlocks_of_passedOn hb m
      obtain ⟨last, hlast⟩ := ih h { m with previous := first }
      exact ⟨last, fun st n => (hfirst st (n + k)).trans (hlast st n)⟩

/-- A walk through empty blocks that never ends goes round forever. -/
theorem runBlocks_forever (h : ∀ k, body.passing k b ≠ none) (st : Instr → Exec σ Control)
    (n : Nat) (m : Machine σ) :
    ∃ previous, runBlocks st body n b m = .error .diverged { m with previous } := by
  obtain ⟨c, hc⟩ := Option.ne_none_iff_exists'.1 (h n)
  obtain ⟨previous, hrun⟩ := runBlocks_of_passing hc m
  refine ⟨previous, ?_⟩
  rw [← Nat.zero_add n, hrun st 0]
  rfl

/-- A block in which a walk through empty blocks ends is the last one, or it counts a step. -/
theorem matches_runBlock {block : Block} (hb : body.blocks.get? b = some block)
    (hend : body.passedOn? b = none)
    (hst : ∀ i ∈ block.instrs, Paced ends limit (fun _ => 1) (st i) (st' i))
    (hm : m.steps ≤ limit) :
    Matches ends (runBlock st body b block) (runBlock st' body b block) m fun r m' =>
      m'.steps ≤ limit ∧ ∀ next, r = .inl next → m.steps < m'.steps := by
  rw [runBlock_eq, runBlock_eq]
  by_cases hempty : block.instrs = []
  · rw [Body.passedOn?, hb] at hend
    simp only [hempty, if_true] at hend
    rw [hempty]
    show Matches ends (leaveBlock body b .next) (leaveBlock body b .next) m _
    rw [leaveBlock, hend]
    exact ⟨rfl, hm, fun next h => by cases h⟩
  · have hrun := (Paced.runAll_of_ne_nil hempty hst).before fun c =>
      Paced.of_stepFree (stepFree_leaveBlock b c : Exec.StepFree (leaveBlock body b c))
    exact (hrun m hm).mono fun r m' hr => ⟨hr.2, fun _ _ => hr.1⟩

/-- With rounds enough for a walk through all blocks before each step that is left, more rounds make no
difference. -/
theorem endAlike_runBlocks (hst : ∀ i ∈ body.instrs, Paced ends limit (fun _ => 1) (st i) (st' i))
    (hends : ends → body.walksEnd = true) (left n n' b : Nat) (m : Machine σ) (hm : m.steps ≤ limit)
    (hleft : limit < left + m.steps) (hn : left * (body.size + 1) ≤ n)
    (hn' : left * (body.size + 1) ≤ n') :
    EndAlike ends limit (runBlocks st body n b m) (runBlocks st' body n' b m) := by
  induction left generalizing n n' b m with
  | zero => omega
  | succ left ih =>
    by_cases hforever : ∀ k, body.passing k b ≠ none
    · obtain ⟨p, hp⟩ := runBlocks_forever hforever st n m
      obtain ⟨p', hp'⟩ := runBlocks_forever hforever st' n' m
      rw [hp, hp']
      refine ⟨_, rfl, rfl, fun he => ?_⟩
      exact absurd (Body.passing_of_walksEnd (hends he) b) (hforever _)
    · have hnone : body.passing (body.size + 1) b = none := by
        by_contra h
        exact hforever (Body.passing_of_size h)
      obtain ⟨k, c, hk, hc, hend⟩ := Body.exists_end_of_passing hnone
      obtain ⟨previous, hpass⟩ := runBlocks_of_passing hc m
      rw [Nat.succ_mul] at hn hn'
      obtain ⟨r, rfl⟩ : ∃ r, n = r + 1 + k := ⟨n - 1 - k, by omega⟩
      obtain ⟨r', rfl⟩ : ∃ r', n' = r' + 1 + k := ⟨n' - 1 - k, by omega⟩
      rw [hpass st, hpass st']
      rw [runBlocks, runBlocks]
      cases hb : body.blocks.get? c with
      | none => exact ⟨rfl, hm⟩
      | some block =>
        have hblock : ∀ i ∈ block.instrs, Paced ends limit (fun _ => 1) (st i) (st' i) := by
          intro i hi
          have hslot : body.blocks.slots[c]? = some block := hb
          have hmem : block ∈ body.toList := Array.mem_toList_iff.2 (Array.mem_of_getElem? hslot)
          exact hst i (List.mem_flatMap.2 ⟨block, hmem, hi⟩)
        obtain ⟨hsame, hrun⟩ := matches_runBlock hb hend hblock (m := { m with previous }) hm
        show EndAlike ends limit (EStateM.bind (runBlock st body c block) _ { m with previous })
          (EStateM.bind (runBlock st' body c block) _ { m with previous })
        unfold EStateM.bind
        rw [hsame]
        cases hr : runBlock st body c block { m with previous } with
        | error halt m1 =>
          rw [hr] at hrun
          exact ⟨m1, rfl, rfl, hrun⟩
        | ok next m1 =>
          rw [hr] at hrun
          obtain ⟨hlimit, hcount⟩ := hrun
          cases next with
          | inr control => exact ⟨rfl, hlimit⟩
          | inl next =>
            have := hcount next rfl
            exact ih r r' next { m1 with previous := some block.label } hlimit
              (by show limit < left + m1.steps; change m.steps < m1.steps at this; omega)
              (by omega) (by omega)

theorem confined_ending (c : Control) :
    Confined (σ := σ) (· ≠ .diverged) SameSteps (fun _ => True) (ending exitScope c) := by
  cases c with
  | throw _ => exact .unwind .leave_steps 0
  | _ => exact .pure trivial

/-- What a run answers counts the steps of its last state. -/
theorem steps_of_result {memory : MemoryModel} {c : Control} {r : RunResult}
    (h : m.result memory c = .ok r) : r.steps = m.steps := by
  unfold Machine.result at h
  dsimp only at h
  obtain ⟨returned, -, h⟩ := except_bind_eq_ok.1 h
  obtain ⟨thrown, -, h⟩ := except_bind_eq_ok.1 h
  cases h
  rfl

end Exec

/-! ### Operations -/

/-- Neither a loop nor a walk through blocks goes round without counting steps. -/
def Operation.progresses (op : Operation) : Bool :=
  op.preorder.all (·.loopsProgress) && op.body.walksEnd

theorem Machine.steps_start (op : Operation) (args : List Value) (calls : σ) :
    (Machine.start op args calls).steps = 0 := by
  have hfold : ∀ f : Machine σ → TypedName × Value → Machine σ, (∀ m e, (f m e).steps = m.steps) →
      ∀ (l : List _) m, (l.foldl f m).steps = m.steps := by
    intro f hf l
    induction l with
    | nil => exact fun _ => rfl
    | cons e rest ih => exact fun m => (ih _).trans (hf m e)
  refine hfold _ ?_ _ _
  exact fun _ _ => rfl

namespace Exec

variable {ends : Prop} {cfg : Config σ} {op : Operation} {n n' : Nat}

variable {m : Machine σ}

theorem endAlike_runOperation (hn : op.enoughRounds cfg.maxSteps ≤ n)
    (hn' : op.enoughRounds cfg.maxSteps ≤ n') (hends : ends → op.progresses = true)
    (hm : m.steps ≤ cfg.maxSteps) :
    EndAlike ends cfg.maxSteps (runOperation cfg n op m) (runOperation cfg n' op m) := by
  have hlimit : cfg.maxSteps < op.enoughRounds cfg.maxSteps := by
    unfold Operation.enoughRounds
    exact Nat.lt_of_lt_of_le (Nat.lt_succ_self _) (Nat.le_mul_of_pos_right _ (Nat.succ_pos _))
  have hblocks : EndAlike ends cfg.maxSteps (runBlocks (Instr.exec cfg n) op.body n 0 m)
      (runBlocks (Instr.exec cfg n') op.body n' 0 m) := by
    refine endAlike_runBlocks (fun i hi => ?_) (fun he => (Bool.and_eq_true_iff.1 (hends he)).2)
      (cfg.maxSteps + 1) n n' 0 m hm (by omega) hn hn'
    refine Paced.exec (by omega) (by omega) i fun he j hj => ?_
    exact List.all_eq_true.1 (Bool.and_eq_true_iff.1 (hends he)).1 j (List.mem_flatMap.2 ⟨i, hi, hj⟩)
  unfold runOperation
  rw [runSteps_eq, runSteps_eq]
  refine hblocks.bind fun control => Confined.stepFree (P := fun _ => True) ?_
  exact (confined_ending control).bind fun _ _ => .get_bind fun _ => .ofExcept fun _ _ => by rintro ⟨⟩

theorem steps_of_runOperation {m' : Machine σ} {r : RunResult}
    (h : runOperation cfg n op m = .ok r m') : r.steps = m'.steps := by
  unfold runOperation at h
  rw [runSteps_eq] at h
  obtain ⟨control, m1, -, h⟩ := bind_eq_ok.1 h
  obtain ⟨_, m2, -, h⟩ := bind_eq_ok.1 h
  change ofExcept (m2.result cfg.memory control) m2 = .ok r m' at h
  cases hr : m2.result cfg.memory control with
  | error f => rw [hr] at h; cases h
  | ok r' =>
    rw [hr] at h
    cases h
    exact steps_of_result hr

end Exec

/-- A run that answers has counted no more steps than its limit. Whatever a run with rounds enough
comes to is what it comes to with more: it faults, answers or goes round forever. If the operation
progresses it does not go round forever. -/
theorem steps_le_or_round_forever (op : Operation) (cfg : Config σ) (args : List Value) (calls : σ) :
    (∀ r calls', op.run cfg args calls = (.ok r, calls') → r.steps ≤ cfg.maxSteps) ∧
    (∀ rounds, op.enoughRounds cfg.maxSteps ≤ rounds →
      op.runWithin cfg rounds args calls = op.run cfg args calls) ∧
    (op.progresses = true → (op.run cfg args calls).1 ≠ .error .diverged) := by
  have hstart : (Machine.start op args calls).steps ≤ cfg.maxSteps := by
    rw [Machine.steps_start]
    exact Nat.zero_le _
  have halike : ∀ (ends : Prop), (ends → op.progresses = true) → ∀ n, op.enoughRounds cfg.maxSteps ≤ n →
      Exec.EndAlike ends cfg.maxSteps
        (Exec.runOperation cfg (op.enoughRounds cfg.maxSteps) op (Machine.start op args calls))
        (Exec.runOperation cfg n op (Machine.start op args calls)) :=
    fun ends hends n hn => Exec.endAlike_runOperation (Nat.le_refl _) hn hends hstart
  unfold Operation.run Operation.runWithin Exec.answer
  generalize hrun : Exec.runOperation cfg (op.enoughRounds cfg.maxSteps) op
    (Machine.start op args calls) = result at halike
  refine ⟨?_, ?_, ?_⟩
  · intro r calls' h
    cases result with
    | error halt m => cases h
    | ok r' m =>
      cases h
      rw [Exec.steps_of_runOperation hrun]
      exact (halike False nofun _ (Nat.le_refl _)).2
  · intro rounds hrounds
    have hmore := halike False nofun rounds hrounds
    cases result with
    | ok r m => rw [hmore.1]
    | error halt m =>
      obtain ⟨m', hm', hcalls, -⟩ := hmore
      rw [hm']
      exact congrArg (Prod.mk (Except.error halt)) hcalls
  · intro hop h
    have hend := halike True (fun _ => hop) _ (Nat.le_refl _)
    cases result with
    | ok r m => cases h
    | error halt m =>
      obtain ⟨_, -, -, hne⟩ := hend
      cases h
      exact hne trivial rfl

/-- A block that repeats itself and has a loop in it, both of which execute instructions. -/
def busyCircle : Operation :=
  { name := "run"
    returnType := TypeName.void
    body := { index := ⟨[("entry", 0)]⟩, blocks := ⟨#[{
      label := "entry"
      instrs := [
        { opcode := .reference, operands := ["x", TypeName.string] },
        { opcode := .chain
          payload := .chain
            { kind := .whileLoop
              scope := "loop"
              cases := [
                { kind := .expression
                  condition :=
                    { evaluation := [{ opcode := .isNull, operands := ["x"], result := some "unset" }]
                      primitive := "unset" }
                  body := {} }] } }]
      succs := [0]
      preds := [0] }]⟩ } }

/-- The loop is left when the limit is reached. -/
theorem steps_le_or_round_forever_busyCircle :
    busyCircle.progresses = true ∧
      (busyCircle.run { maxSteps := 100, handler := fun _ receiver _ calls =>
        (.ok { outcome := .void, receiver }, calls) } [] ()).1 ≠ .error .diverged :=
  ⟨by decide +kernel, (steps_le_or_round_forever busyCircle _ [] ()).2.2 (by decide +kernel)⟩

/-- An empty block that repeats itself. -/
def emptyCircle : Operation :=
  { name := "run"
    returnType := TypeName.void
    body :=
      { blocks := ⟨#[{ label := "entry", succs := [0], preds := [0] }]⟩
        index := ⟨[("entry", 0)]⟩ } }

/-- The empty block goes round forever and counts no step, whatever the limit is. -/
theorem rounds_forever_emptyCircle :
    (Body.empty.addBlock "entry" >>= fun body => body.addEdge 0 0) = .ok emptyCircle.body ∧
      ∀ (cfg : Config Unit) (rounds : Nat),
        emptyCircle.runWithin cfg rounds [] () = (.error .diverged, ()) := by
  refine ⟨rfl, fun cfg rounds => ?_⟩
  have hpassing : ∀ k, emptyCircle.body.passing k 0 ≠ none :=
    Body.passing_of_circle (i := 0) (j := 1) (c := 0) (by decide) rfl rfl
  obtain ⟨previous, hrun⟩ := Exec.runBlocks_forever hpassing (Instr.exec cfg rounds) rounds
    (Machine.start emptyCircle [] ())
  have hoperation : Exec.runOperation cfg rounds emptyCircle (Machine.start emptyCircle [] ()) =
      .error .diverged { Machine.start emptyCircle [] () with previous } := by
    unfold Exec.runOperation
    rw [Exec.runSteps_eq]
    show EStateM.bind _ _ _ = _
    unfold EStateM.bind
    rw [hrun]
  unfold Operation.runWithin Exec.answer
  rw [hoperation]

end ScopedIR
