import ScopedIR.Proofs.OpenScopes

/-!
# Runs that look at the open scopes

That no scope is open at some moments of a run is said by a second run, which looks at the open
scopes at these moments and halts if there is one. When the two runs are the same, whatever the second
one would halt with, no scope was open.

The rules follow the way actions are put together. The nested lists of a chain are run once, many
times or not at all; lists that leave the scopes as they find them may be run in any of these ways.

Main definitions:

* `Instr.guarded`: an instruction that must not depart with a scope open;
* `Operation.runGuarded`: a run in which no departure may find a scope open;
* `Operation.runClosed`: a run in which neither a departure nor the end of a block may find a scope
  open;
* `Exec.Agrees`: two actions do the same, and what the first one leads to;
* `Exec.Keeps`: two actions do the same wherever given scopes are open.

Main statements: `Exec.Keeps.runChain` and `Exec.Keeps.runLogical`.
-/

namespace ScopedIR

variable {σ α β : Type}

/-! ### The second run -/

namespace Exec

/-- Halt when a scope is open. -/
def requireClosed (halt : Halt) : Exec σ Unit := do
  if (← get).scopes.isEmpty then return () else throw halt

/-- A return or a throw must not find a scope open. -/
def guardDeparture (halt : Halt) (i : Instr) : Exec σ Unit :=
  if i.opcode.departs then requireClosed halt else return ()

/-- Control must not fall off the end of a block with a scope open. -/
def guardEnd (halt : Halt) : Control → Exec σ Control
  | .next => do
    requireClosed halt
    return .next
  | left => return left

variable {halt : Halt} {m : Machine σ}

theorem requireClosed_of_closed (h : m.scopes = []) : requireClosed halt m = .ok () m := by
  show (if m.scopes.isEmpty then (pure () : Exec σ Unit) else throw halt) m = .ok () m
  rw [h]
  rfl

theorem guardDeparture_of_closed {i : Instr} (h : i.opcode.departs = true → m.scopes = []) :
    guardDeparture halt i m = .ok () m := by
  unfold guardDeparture
  by_cases hd : i.opcode.departs = true
  · rw [if_pos hd]
    exact requireClosed_of_closed (h hd)
  · rw [if_neg hd]
    rfl

theorem guardEnd_of_closed {c : Control} (h : c = .next → m.scopes = []) :
    guardEnd halt c m = .ok c m := by
  cases c with
  | next =>
    show (requireClosed halt >>= fun _ => pure Control.next) m = .ok .next m
    exact bind_eq_ok.2 ⟨(), m, requireClosed_of_closed (h rfl), rfl⟩
  | _ => rfl

end Exec

namespace Instr

/-- An instruction of a nested list that must not depart with a scope open. -/
def guardedNested (halt : Halt) (cfg : Config σ) (rounds : Nat) : Instr → Exec σ Control :=
  fold fun i payload => do
    Exec.tick cfg.maxSteps
    Exec.guardDeparture halt i
    Exec.stayInside i (← Exec.perform Exec.exitScope cfg rounds i payload)

/-- An instruction of a block or, where `inner` is set, of a nested list, that must not depart with a
scope open. -/
def guarded (halt : Halt) (cfg : Config σ) (rounds : Nat) (inner : Bool) (i : Instr) :
    Exec σ Control := do
  Exec.tick cfg.maxSteps
  Exec.guardDeparture halt i
  let control ← Exec.perform Exec.exitScope cfg rounds i
    (i.payload.map (guardedNested halt cfg rounds))
  if inner then Exec.stayInside i control else return control

theorem guardedNested_eq (halt : Halt) (cfg : Config σ) (rounds : Nat) :
    guardedNested halt cfg rounds = guarded halt cfg rounds true := by
  funext i
  rw [guardedNested, fold_eq]
  rfl

theorem stepped_eq (cfg : Config σ) (rounds : Nat) (inner : Bool) (i : Instr) :
    i.stepped cfg rounds inner = (do
      Exec.tick cfg.maxSteps
      let control ← Exec.perform Exec.exitScope cfg rounds i
        (i.payload.map (stepped cfg rounds true))
      if inner then Exec.stayInside i control else return control) := by
  cases inner with
  | true =>
    show i.nested cfg rounds = _
    rw [nested, fold_eq]
    rfl
  | false =>
    show i.exec cfg rounds = _
    unfold exec
    simp only [Bool.false_eq_true, if_false, bind_pure]
    rfl

end Instr

namespace Exec

/-- What is done when the instructions of a block are through. -/
def leaveBlock (body : Body) (b : Nat) : Control → Exec σ (Nat ⊕ Control)
  | .next =>
    match body.fallThrough? b with
    | some next => return .inl next
    | none => return .inr (.ret none)
  | .jump label => do return .inl (← blockAt body label)
  | .throw exception => do
    match (← get).handlers with
    | label :: outer =>
      modify fun m => { m with handlers := outer }
      assign "_exception" exception
      return .inl (← blockAt body label)
    | [] => return .inr (.throw exception)
  | .ret value => return .inr (.ret value)

theorem runBlock_eq (step : Instr → Exec σ Control) (body : Body) (b : Nat) (block : Block) :
    runBlock step body b block = runAll (block.instrs.map step) >>= leaveBlock body b := by
  unfold runBlock
  congr 1

/-- Run blocks from a given one on, where no block may end with a scope open. -/
def runBlocksClosed (halt : Halt) (step : Instr → Exec σ Control) (body : Body) :
    Nat → Nat → Exec σ Control
  | 0, _ => throw .diverged
  | n + 1, b =>
    match body.blocks.get? b with
    | none => return .ret none
    | some block => do
      let control ← runAll (block.instrs.map step)
      match ← leaveBlock body b (← guardEnd halt control) with
      | .inl next =>
        modify fun m => { m with previous := some block.label }
        runBlocksClosed halt step body n next
      | .inr control => return control

end Exec

namespace Operation

/-- Run an operation whose blocks are gone through by `walk`. -/
def runBy (walk : Exec σ Control) (cfg : Config σ) (op : Operation) (args : List Value) (calls : σ) :
    Except Halt RunResult × σ :=
  Exec.answer
    (walk >>= fun control => Exec.ending Exec.exitScope control >>= fun _ =>
      get >>= fun m => Exec.ofExcept (m.result cfg.memory control))
    (Machine.start op args calls)

theorem run_eq_runBy (cfg : Config σ) (op : Operation) (args : List Value) (calls : σ) :
    op.run cfg args calls = op.runBy (Exec.runBlocks
      (Instr.exec cfg (op.enoughRounds cfg.maxSteps)) op.body (op.enoughRounds cfg.maxSteps) 0) cfg
        args calls := by
  unfold Operation.run runWithin Exec.runOperation runBy
  rw [Exec.runSteps_eq]

/-- Run an operation in which no return or throw may find a scope open; else the run halts as `halt`
says. -/
def runGuarded (halt : Halt) (cfg : Config σ) (op : Operation) (args : List Value) (calls : σ) :
    Except Halt RunResult × σ :=
  let rounds := op.enoughRounds cfg.maxSteps
  op.runBy (Exec.runBlocks (Instr.guarded halt cfg rounds false) op.body rounds 0) cfg args calls

/-- Run an operation in which neither a return or throw nor the end of a block may find a scope open;
else the run halts as `halt` says. -/
def runClosed (halt : Halt) (cfg : Config σ) (op : Operation) (args : List Value) (calls : σ) :
    Except Halt RunResult × σ :=
  let rounds := op.enoughRounds cfg.maxSteps
  op.runBy (Exec.runBlocksClosed halt (Instr.guarded halt cfg rounds false) op.body rounds 0) cfg
    args calls

end Operation

/-! ### Two actions that do the same -/

namespace Exec

/-- From `m` on the second action does what the first one does, and this leads to `post`. -/
def Agrees (faults : Fault → Prop) (a b : Exec σ α) (m : Machine σ) (post : α → Machine σ → Prop) :
    Prop :=
  b m = a m ∧ Leads faults a m post

section

variable {E : Fault → Prop} {a b : Exec σ α} {m : Machine σ} {P Q : α → Machine σ → Prop}

theorem Agrees.of_leads (h : Leads E a m P) : Agrees E a a m P := ⟨rfl, h⟩

theorem Agrees.pure {x : α} (h : P x m) : Agrees E (Pure.pure x) (Pure.pure x) m P := ⟨rfl, h⟩

theorem Agrees.mono (h : Agrees E a b m P) (hp : ∀ x m', P x m' → Q x m') : Agrees E a b m Q :=
  ⟨h.1, h.2.mono hp⟩

theorem Agrees.bind {f g : α → Exec σ β} {R : β → Machine σ → Prop} (h : Agrees E a b m P)
    (hf : ∀ x m', P x m' → Agrees E (f x) (g x) m' R) : Agrees E (a >>= f) (b >>= g) m R := by
  obtain ⟨hsame, hleads⟩ := h
  constructor
  · show EStateM.bind b g m = EStateM.bind a f m
    unfold EStateM.bind
    rw [hsame]
    unfold Leads at hleads
    cases ha : a m with
    | ok x m' =>
      rw [ha] at hleads
      exact (hf x m' hleads).1
    | error halt m' => rfl
  · rw [leads_bind]
    exact hleads.mono fun x m' hx => (hf x m' hx).2

/-- The second action first looks at the state, which is as it has to be. -/
theorem Agrees.of_guard {guard : Exec σ β} {x : β} {g : β → Exec σ α} (hg : guard m = .ok x m)
    (h : Agrees E a (g x) m P) : Agrees E a (guard >>= g) m P := by
  refine ⟨?_, h.2⟩
  rw [← h.1]
  show EStateM.bind guard g m = g x m
  unfold EStateM.bind
  rw [hg]

end

/-! ### Open scopes -/

/-- The open scopes are `o`, and no handler of a block is pending. -/
structure Has (o : List String) (m : Machine σ) : Prop where
  ids : openIds m = o
  handlers : m.handlers = []

/-- How code ends: it runs to its end, where `next` holds, or jumps to a label that `jumps` allows,
with the scopes `o` open; it returns with none open; or an exception is on its way. -/
def Ends (next : Prop) (jumps : String → Prop) (o : List String) (c : Control) (m : Machine σ) :
    Prop :=
  m.handlers = [] ∧
    match c with
    | .next => next ∧ openIds m = o
    | .jump label => jumps label ∧ openIds m = o
    | .ret _ => m.scopes = []
    | .throw _ => True

/-- How a nested list ends that leaves the scopes as it found them. -/
abbrev EndsInside (o : List String) : Control → Machine σ → Prop := Ends True (fun _ => False) o

variable {o o' : List String} {m m' : Machine σ}

theorem Has.of_still (h : Has o m) (hs : m'.scopes = m.scopes) (hh : m'.handlers = m.handlers) :
    Has o m' :=
  ⟨by unfold openIds; rw [hs]; exact h.ids, hh.trans h.handlers⟩

theorem Has.scopes_eq_nil (h : Has [] m) : m.scopes = [] := List.map_eq_nil_iff.1 h.ids

variable {jumps : String → Prop} {next : Prop}

theorem Has.ends (h : Has o m) (hn : next) : Ends next jumps o .next m := ⟨h.handlers, hn, h.ids⟩

theorem Ends.has (h : Ends next jumps o .next m) : Has o m :=
  ⟨h.2.2, h.1⟩

/-- How code is left by a return or by an exception is no matter of its end. -/
theorem Ends.left {next' : Prop} {jumps' : String → Prop} {c : Control} (hc : c ≠ .next)
    (hj : ∀ label, c ≠ .jump label) (h : Ends next jumps o c m) : Ends next' jumps' o' c m := by
  cases c with
  | next => exact absurd rfl hc
  | jump label => exact absurd rfl (hj label)
  | ret v | throw e => exact h

/-- Code that does not jump ends in another way if its end does. -/
theorem Ends.onward {next' : Prop} {jumps' : String → Prop} {c : Control}
    (h : Ends next (fun _ => False) o c m) (hend : next → Has o m → Ends next' jumps' o' .next m) :
    Ends next' jumps' o' c m := by
  cases c with
  | next => exact hend h.2.1 h.has
  | jump label => exact h.2.1.elim
  | ret v | throw e => exact h

/-- From wherever the scopes `o` are open, two actions do the same, and end as `post` says. -/
def Keeps (cfg : Config σ) (o : List String) (post : α → Machine σ → Prop) (a b : Exec σ α) : Prop :=
  ∀ m, Has o m → Agrees (Fault.Excused cfg) a b m post

/-! ### Chains and logical blocks -/

namespace Keeps

variable {cfg : Config σ} {rounds : Nat} {P : α → Machine σ → Prop} {Q : β → Machine σ → Prop}

theorem pure {x : α} (h : ∀ m, Has o m → P x m) : Keeps cfg o P (Pure.pure x) (Pure.pure x) :=
  fun m hm => .pure (h m hm)

theorem fail {f : Fault} (hf : f.isScope = false) :
    Keeps cfg o P (Exec.fail f) (Exec.fail f) := by
  intro m _
  apply Agrees.of_leads
  rw [leads_fail]
  intro hs
  rw [hf] at hs
  cases hs

theorem bind {a b : Exec σ α} {f g : α → Exec σ β} (h : Keeps cfg o P a b)
    (hf : ∀ x m', P x m' → Agrees (Fault.Excused cfg) (f x) (g x) m' Q) :
    Keeps cfg o Q (a >>= f) (b >>= g) :=
  fun m hm => (h m hm).bind hf

/-- An action that leaves the scopes alone. -/
theorem still {S : α → Prop} {a : Exec σ α} (h : Still cfg S a) :
    Keeps cfg o (fun x m => S x ∧ Has o m) a a := by
  intro m hm
  apply Agrees.of_leads
  exact (h m).mono fun x m' hx => ⟨hx.1, hm.of_still hx.2.1 hx.2.2⟩

theorem still_next {a : Exec σ Control} (h : Still cfg (· = .next) a) :
    Keeps cfg o (EndsInside o) a a := by
  intro m hm
  apply (still h m hm).mono
  intro c m' hc
  obtain ⟨rfl, hc⟩ := hc
  exact hc.ends trivial

variable {a a' b b' : Exec σ Control}

theorem andThen (h : Keeps cfg o (EndsInside o) a b) (h' : Keeps cfg o (EndsInside o) a' b') :
    Keeps cfg o (EndsInside o) (andThen a a') (Exec.andThen b b') := by
  apply h.bind
  intro c m hc
  cases c with
  | next => exact h' m hc.has
  | jump label => exact hc.2.1.elim
  | ret v | throw e => exact .pure hc

/-- How the choice among the cases of a chain ends. -/
def Chooses (o : List String) : Choice → Machine σ → Prop
  | .left c, m => c ≠ .next ∧ EndsInside o c m
  | .taken _, m | .refused, m => Has o m

theorem choose {k k' : Exec σ Choice} (h : Keeps cfg o (EndsInside o) a b)
    (hk : Keeps cfg o (Chooses o) k k') : Keeps cfg o (Chooses o) (choose a k) (Exec.choose b k') := by
  apply h.bind
  intro c m hc
  cases c with
  | next => exact hk m hc.has
  | jump label => exact hc.2.1.elim
  | ret v | throw e => exact .pure ⟨by simp, hc⟩

variable {f g : Instr → Exec σ Control}

/-- The list is run alike by both actions, and leaves the scopes as it finds them. -/
def Nests (cfg : Config σ) (o : List String) (f g : Instr → Exec σ Control) (l : List Instr) : Prop :=
  Keeps cfg o (EndsInside o) (runAll (l.map f)) (runAll (l.map g))

theorem tryCases {cases : List (Case Instr)}
    (h : ∀ e ∈ cases, ∀ l ∈ e.lists, Nests cfg o f g l) :
    Keeps cfg o (Chooses o) (tryCases (cases.map (·.map f))) (Exec.tryCases (cases.map (·.map g))) := by
  induction cases with
  | nil => exact .pure fun _ hm => hm
  | cons e rest ih =>
    have he : ∀ l ∈ e.lists, Nests cfg o f g l := h e List.mem_cons_self
    apply choose (he _ (by simp [Case.lists]))
    apply (still (Confined.primitive _).still).bind
    intro holds m hm
    cases holds with
    | true =>
      apply choose (andThen (he _ (by simp [Case.lists])) (he _ (by simp [Case.lists]))) _ m hm.2
      exact .pure fun _ hm => hm
    | false => exact ih (fun e he => h e (List.mem_cons_of_mem _ he)) m hm.2

variable {c : Chain Instr}

theorem select (h : ∀ l ∈ c.lists, Nests cfg o f g l) :
    Keeps cfg o (Chooses o) (select (c.map f)) (Exec.select (c.map g)) := by
  apply (tryCases fun e he l hl => h l (Chain.mem_lists_of_case he hl)).bind
  intro choice m hm
  cases choice with
  | left _ | taken _ => exact .pure hm
  | refused =>
    cases hb : c.fallback with
    | none =>
      simp only [Chain.map, hb, Option.map_none]
      exact .pure hm
    | some b =>
      simp only [Chain.map, hb, Option.map_some]
      apply choose (h b.evaluation (by simp [Chain.lists, hb])) _ m hm
      exact .pure fun _ hm => hm

/-- How a test of a loop ends: the loop goes on, or it is over. -/
def Tests (o : List String) : Option Control → Machine σ → Prop
  | none, m => Has o m
  | some c, m => EndsInside o c m

theorem repeatUntil {r r' : Exec σ (Option Control)} (h : Keeps cfg o (Tests o) r r') (k : Nat) :
    Keeps cfg o (EndsInside o) (repeatUntil r k) (Exec.repeatUntil r' k) := by
  induction k with
  | zero => exact fun m _ => .of_leads trivial
  | succ k ih =>
    apply h.bind
    intro x m hm
    cases x with
    | none => exact ih m hm
    | some c => exact .pure hm

theorem loop {e : Case Instr} (bodyFirst : Bool) (h : ∀ l ∈ e.lists, Nests cfg o f g l) :
    Keeps cfg o (EndsInside o) (loop rounds bodyFirst (e.map f))
      (Exec.loop rounds bodyFirst (e.map g)) := by
  have htest : Keeps cfg o (Tests o) (loopTest (e.map f)) (loopTest (e.map g)) := by
    apply (h e.condition.evaluation (by simp [Case.lists])).bind
    intro c m hc
    cases c with
    | next =>
      apply (still (Confined.primitive _).still).bind _ m hc.has
      intro holds m' hm'
      cases holds with
      | true => exact .pure hm'.2
      | false =>
        have hover : EndsInside o .next m' := hm'.2.ends trivial
        exact .pure hover
    | jump label => exact hc.2.1.elim
    | ret v | throw x => exact .pure hc
  have hround : Keeps cfg o (Tests o) (loopRound (e.map f)) (loopRound (e.map g)) := by
    apply (andThen (h e.body.evaluation (by simp [Case.lists]))
      (h e.updates (by simp [Case.lists]))).bind
    intro c m hc
    cases c with
    | next => exact htest m hc.has
    | jump label => exact hc.2.1.elim
    | ret v | throw x => exact .pure hc
  cases bodyFirst with
  | true => exact hround.repeatUntil rounds
  | false =>
    apply htest.bind
    intro r m hm
    cases r with
    | some c => exact .pure hm
    | none => exact hround.repeatUntil rounds m hm

/-- A chain that is no try chain runs its nested lists in some order, each as often as it may be. -/
theorem runChain {i : Instr} (hk : c.kind ≠ .tryCatchFinally)
    (h : ∀ l ∈ c.lists, Nests cfg o f g l) :
    Keeps cfg o (EndsInside o) (runChain exitScope rounds i (c.map f))
      (Exec.runChain exitScope rounds i (c.map g)) := by
  have hsetup : ∀ v : Option (ChainVariable Instr), (∀ x ∈ v, x.setup ∈ c.lists) →
      Keeps cfg o (EndsInside o) (runSetup (v.map (·.map f))) (runSetup (v.map (·.map g))) := by
    intro v hv
    cases v with
    | none => exact .pure fun _ hm => hm.ends trivial
    | some x => exact h _ (hv x rfl)
  have hsubject := hsetup c.subject fun x hx => by simp [Chain.lists, Option.mem_def.1 hx]
  have hreturning := hsetup c.returning fun x hx => by simp [Chain.lists, Option.mem_def.1 hx]
  unfold Exec.runChain
  show Keeps cfg o _ (if c.kind = .tryCatchFinally then _ else _)
    (if c.kind = .tryCatchFinally then _ else _)
  rw [if_neg hk, if_neg hk]
  apply hsubject.andThen
  apply hreturning.andThen
  show Keeps cfg o _ (if c.kind.isLoop then _ else _) (if c.kind.isLoop then _ else _)
  split
  · cases hc : c.cases with
    | nil =>
      simp only [Chain.map, hc, List.map_nil]
      exact .fail rfl
    | cons e rest =>
      simp only [Chain.map, hc, List.map_cons]
      exact loop _ fun l hl => h l (Chain.mem_lists_of_case (by simp [hc]) hl)
  · apply (select h).bind
    have hfinish : ∀ result, Keeps cfg o (EndsInside o)
        (finishChain i (c.map f).returning result) (finishChain i (c.map g).returning result) := by
      -- the end of a chain does not look at the setup of its variable
      have hsame : ∀ result, finishChain (σ := σ) i (c.map f).returning result =
          finishChain i (c.map g).returning result := by
        intro result
        show finishChain i (c.returning.map (·.map f)) result =
          finishChain i (c.returning.map (·.map g)) result
        cases c.returning <;> rfl
      intro result
      rw [hsame]
      exact still_next (Confined.finishChain i _ result).still
    intro choice m hm
    cases choice with
    | left ctl => exact .pure hm.2
    | taken result => exact hfinish result m hm
    | refused => exact hfinish none m hm

theorem runLogical {b : LogicalBlock Instr} {i : Instr} (h : ∀ l ∈ b.lists, Nests cfg o f g l) :
    Keeps cfg o (EndsInside o) (runLogical i (b.map f)) (Exec.runLogical i (b.map g)) := by
  apply andThen (h b.leftEvaluation (by simp [LogicalBlock.lists]))
  apply (still (Confined.primitive _).still).bind
  intro holds m hm
  show Agrees _ (if decides b.op holds then _ else _) (if decides b.op holds then _ else _) m _
  split
  · exact still_next (Confined.yieldName i _).still m hm.2
  · apply andThen (h b.rightEvaluation (by simp [LogicalBlock.lists])) _ m hm.2
    apply andThen (h b.computation (by simp [LogicalBlock.lists]))
    exact still_next (Confined.yieldName i _).still

end Keeps

end Exec

end ScopedIR
