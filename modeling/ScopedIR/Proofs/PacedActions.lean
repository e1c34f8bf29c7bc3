import ScopedIR.Proofs.ConfinedActions

/-!
# Actions and the steps they count

Every instruction that executes counts as a step. Two runs that differ only in how often loops may be
repeated do the same as long as both numbers exceed the steps that are allowed: a loop that executes an
instruction in every round runs out of steps first. A loop without instructions counts nothing; while
its condition holds it goes round forever, under either number.

Main definitions:

* `Exec.Matches`, `Exec.Paced`: two actions do the same, and how many steps an answer costs at least;
* `Exec.StepFree`: an action that counts nothing;
* `Instr.loopsProgress`: a loop does not go round without counting.

Main statements:

* `Exec.Paced.repeatUntil`: where a round counts, rounds beyond the limit are never needed;
* `Exec.Paced.exec`: every instruction counts as a step, and rounds beyond the limit make no difference
  to it.
-/

namespace ScopedIR

variable {σ α β : Type}

namespace Exec

/-! ### Paced actions -/

/-- From `m` on `b` does what `a` does, which answers as `post` says or halts; where `ends` holds it
does not go round forever. -/
def Matches (ends : Prop) (a b : Exec σ α) (m : Machine σ) (post : α → Machine σ → Prop) : Prop :=
  b m = a m ∧
    match a m with
    | .ok x m' => post x m'
    | .error halt _ => ends → halt ≠ .diverged

/-- From every state within the limit `b` does what `a` does, and an answer `x` comes `cost x` steps
later at least and within the limit. -/
def Paced (ends : Prop) (limit : Nat) (cost : α → Nat) (a b : Exec σ α) : Prop :=
  ∀ m, m.steps ≤ limit →
    Matches ends a b m fun x m' => m.steps + cost x ≤ m'.steps ∧ m'.steps ≤ limit

namespace Matches

variable {ends : Prop} {a b : Exec σ α} {m : Machine σ} {P Q : α → Machine σ → Prop}

theorem mono (h : Matches ends a b m P) (hp : ∀ x m', P x m' → Q x m') : Matches ends a b m Q := by
  obtain ⟨hsame, hm⟩ := h
  refine ⟨hsame, ?_⟩
  cases ha : a m with
  | ok x m' => rw [ha] at hm; exact hp x m' hm
  | error halt m' => rw [ha] at hm; exact hm

theorem bind {f g : α → Exec σ β} {R : β → Machine σ → Prop} (h : Matches ends a b m P)
    (hf : ∀ x m', P x m' → Matches ends (f x) (g x) m' R) :
    Matches ends (a >>= f) (b >>= g) m R := by
  obtain ⟨hsame, hm⟩ := h
  show EStateM.bind b g m = EStateM.bind a f m ∧ match EStateM.bind a f m with
    | .ok y m'' => R y m''
    | .error halt _ => ends → halt ≠ .diverged
  unfold EStateM.bind
  rw [hsame]
  cases ha : a m with
  | ok x m' => rw [ha] at hm; exact hf x m' hm
  | error halt m' => rw [ha] at hm; exact ⟨rfl, hm⟩

end Matches

/-- An action that counts nothing and does not go round forever. -/
def StepFree (a : Exec σ α) : Prop :=
  ∀ m, match a m with
    | .ok _ m' => m'.steps = m.steps
    | .error halt _ => halt ≠ .diverged

/-- As many steps were counted before. -/
def SameSteps (m m' : Machine σ) : Prop := m'.steps = m.steps

instance : Bounds (· ≠ .diverged) (SameSteps (σ := σ)) where
  refl _ := rfl
  trans h h' := h'.trans h
  fault _ := nofun

instance : Loose (SameSteps (σ := σ)) := ⟨fun _ _ => rfl, fun _ _ => rfl, fun _ _ => rfl⟩

namespace Confined

theorem stepFree {P : α → Prop} {a : Exec σ α} (h : Confined (· ≠ .diverged) SameSteps P a) :
    StepFree a := by
  intro m
  have hm := h m
  cases ha : a m with
  | ok x m' =>
    rw [ha] at hm
    exact hm.2
  | error halt m' =>
    rw [ha] at hm
    exact hm

theorem leave_steps (scope : String) :
    Confined (· ≠ .diverged) SameSteps (fun _ => True) (Exec.exitScope (σ := σ) scope) :=
  exitScope (fun _ => nofun) (fun _ _ => rfl) (fun _ _ => rfl) scope

/-- What is not a chain and not a logical block counts nothing by itself. -/
theorem perform_steps {cfg : Config σ} {rounds : Nat} {i : Instr} (hi : i.opcode ≠ .chain)
    (hand : i.opcode ≠ .logicalAnd) (hor : i.opcode ≠ .logicalOr) (p : Payload (Exec σ Control)) :
    Confined (· ≠ .diverged) SameSteps (fun _ => True)
      (Exec.perform Exec.exitScope cfg rounds i p) := by
  obtain ⟨opcode, operands, result, location, escape, payload⟩ := i
  cases opcode with
  | chain => exact absurd rfl hi
  | logicalAnd => exact absurd rfl hand
  | logicalOr => exact absurd rfl hor
  | call | callVirtual | callStatic | callDispatcher =>
    exact (perform_call (fun _ _ => nofun) rfl).mono fun _ _ => trivial
  | branch | branchTrue | branchFalse => exact (perform_branch rfl).mono fun _ _ => trivial
  | ret => exact (perform_ret rfl).mono fun _ _ => trivial
  | throw => exact (perform_throw rfl).mono fun _ _ => trivial
  | setupHandler =>
    exact (required _).bind fun _ _ => .bind (.modified fun _ => rfl) fun _ _ => .pure trivial
  | scopeEnter | scopeExit | scopeRegister =>
    exact (perform_memory (fun _ => nofun) (fun _ _ => rfl) leave_steps (fun _ _ => rfl)
      (fun _ _ => rfl) (fun _ _ _ => rfl) rfl).mono fun _ _ => trivial
  | _ => exact (perform_quiet rfl).mono fun _ _ => trivial

end Confined

namespace Paced

variable {ends : Prop} {limit : Nat} {cost : α → Nat} {a b : Exec σ α}

theorem of_stepFree (h : StepFree a) : Paced ends limit (fun _ => 0) a a := by
  intro m hm
  have hsteps := h m
  refine ⟨rfl, ?_⟩
  cases ha : a m with
  | ok x m' =>
    rw [ha] at hsteps
    exact ⟨Nat.le_of_eq hsteps.symm, Nat.le_trans (Nat.le_of_eq hsteps) hm⟩
  | error halt m' =>
    rw [ha] at hsteps
    exact fun _ => hsteps

theorem of_confined {P : α → Prop} (h : Confined (· ≠ .diverged) SameSteps P a) :
    Paced ends limit (fun _ => 0) a a := of_stepFree h.stepFree

theorem mono (h : Paced ends limit cost a b) {cost' : α → Nat} (hle : ∀ x, cost' x ≤ cost x) :
    Paced ends limit cost' a b := by
  intro m hm
  refine (h m hm).mono fun x m' hx => ⟨?_, hx.2⟩
  have := hle x
  omega

/-- One action after another: the costs add up. -/
theorem bind (h : Paced ends limit cost a b) {f g : α → Exec σ β} (rest : α → β → Nat)
    {total : β → Nat} (hf : ∀ x, Paced ends limit (rest x) (f x) (g x))
    (htotal : ∀ x y, total y ≤ cost x + rest x y) :
    Paced ends limit total (a >>= f) (b >>= g) := by
  intro m hm
  refine (h m hm).bind fun x m' hx => (hf x m' hx.2).mono fun y m'' hy => ⟨?_, hy.2⟩
  have := htotal x y
  omega

theorem pure {x : α} (hx : cost x = 0) :
    Paced (σ := σ) ends limit cost (Pure.pure x) (Pure.pure x) :=
  fun m hm => ⟨rfl, Nat.le_of_eq (congrArg (m.steps + ·) hx), hm⟩

theorem fail {f : Fault} : Paced (σ := σ) ends limit cost (Exec.fail f) (Exec.fail f) :=
  fun _ _ => ⟨rfl, fun _ => nofun⟩

variable {g : α → Exec σ β} {rest : β → Nat} {k n n' : Nat} {a' b' : Exec σ Control}
  {l : List Instr} {i : Instr}

/-- What comes after an action that counts nothing. -/
theorem after {f : α → Exec σ β} (h : Paced ends limit (fun _ => 0) a b)
    (hf : ∀ x, Paced ends limit rest (f x) (g x)) : Paced ends limit rest (a >>= f) (b >>= g) :=
  h.bind _ hf fun _ _ => by omega

/-- What comes after an action keeps its cost, if it does not count itself. -/
theorem before {f : α → Exec σ β} (h : Paced ends limit (fun _ => k) a b)
    (hf : ∀ x, Paced ends limit (fun _ => 0) (f x) (g x)) :
    Paced ends limit (fun _ => k) (a >>= f) (b >>= g) :=
  h.bind _ hf fun _ _ => Nat.le_refl _

/-- Both actions read the state. -/
theorem get_bind {f g : Machine σ → Exec σ β} (h : ∀ m, Paced ends limit rest (f m) (g m)) :
    Paced ends limit rest (get >>= f) (get >>= g) := fun m hm => h m m hm

theorem tick : Paced (σ := σ) ends limit (fun _ => 1) (tick limit) (Exec.tick limit) := by
  intro m hm
  refine ⟨rfl, ?_⟩
  have htick : Exec.tick limit m = (if limit < m.steps + 1 then Exec.fail (.stepLimit limit)
      else Pure.pure () : Exec σ Unit) (ticked m) := rfl
  rw [htick]
  by_cases hl : limit < m.steps + 1
  · rw [if_pos hl]
    exact fun _ => nofun
  · rw [if_neg hl]
    exact ⟨Nat.le_refl _, Nat.not_lt.1 hl⟩

/-! ### Sequences -/

/-- The cost of going on; leaving costs nothing. -/
def onward (k : Nat) : Control → Nat
  | .next => k
  | _ => 0

theorem onward_of_ne {c : Control} (h : c ≠ .next) : onward k c = 0 := by
  cases c with
  | next => exact absurd rfl h
  | _ => rfl

theorem onward_le (k : Nat) (c : Control) : onward k c ≤ k := by
  cases c with
  | next => exact Nat.le_refl k
  | _ => exact Nat.zero_le k

theorem andThen {a b : Exec σ Control} {cost cost' total : Control → Nat}
    (h : Paced ends limit cost a b) (h' : Paced ends limit cost' a' b')
    (hnext : ∀ c, total c ≤ cost .next + cost' c) (hleft : ∀ c, c ≠ .next → total c ≤ cost c) :
    Paced ends limit total (andThen a a') (Exec.andThen b b') := by
  unfold Exec.andThen
  refine h.bind (fun c d => match c with
    | .next => cost' d
    | c => total d - cost c) (fun c => ?_) fun c d => ?_
  · cases c with
    | next => exact h'
    | jump l | ret v | throw e => exact .pure (Nat.sub_eq_zero_of_le (hleft _ (by simp)))
  · cases c with
    | next => exact hnext d
    | _ => dsimp only; omega

theorem andThen_onward {a b : Exec σ Control} {k' : Nat} (h : Paced ends limit (onward k) a b)
    (h' : Paced ends limit (onward k') a' b') :
    Paced ends limit (onward (k + k')) (Exec.andThen a a') (Exec.andThen b b') := by
  refine h.andThen h' (fun c => ?_) fun c hc => ?_
  · cases c with
    | next => exact Nat.le_refl _
    | _ => exact Nat.zero_le _
  · rw [onward_of_ne hc]
    exact Nat.zero_le _

variable {f f' : Instr → Exec σ Control}

/-- A list that is run to its end costs a step for each instruction. -/
theorem runAll (h : ∀ i ∈ l, Paced ends limit (fun _ => 1) (f i) (f' i)) :
    Paced ends limit (onward l.length) (runAll (l.map f)) (Exec.runAll (l.map f')) := by
  induction l with
  | nil => exact .pure rfl
  | cons i rest ih =>
    have hrest := ih fun j hj => h j (List.mem_cons_of_mem i hj)
    rw [List.length_cons, Nat.add_comm]
    exact ((h i List.mem_cons_self).mono (onward_le 1)).andThen_onward hrest

/-- However it is left, a list that is not empty costs a step. -/
theorem runAll_of_ne_nil (hl : l ≠ []) (h : ∀ i ∈ l, Paced ends limit (fun _ => 1) (f i) (f' i)) :
    Paced ends limit (fun _ => 1) (Exec.runAll (l.map f)) (Exec.runAll (l.map f')) := by
  cases l with
  | nil => exact absurd rfl hl
  | cons i rest =>
    have hrest := runAll fun j hj => h j (List.mem_cons_of_mem i hj)
    exact (h i List.mem_cons_self).andThen hrest (fun _ => Nat.le_add_right 1 _) fun _ _ => Nat.le_refl 1

/-! ### Loops -/

/-- Where every round that goes on counts a step, rounds beyond the limit are never needed. -/
theorem repeatUntil {a b : Exec σ (Option Control)} {cost : Option Control → Nat}
    (h : Paced ends limit cost a b) (hcost : 0 < cost none) (hn : limit < n) (hn' : limit < n') :
    Paced ends limit (fun _ => 0) (repeatUntil a n) (Exec.repeatUntil b n') := by
  -- the rounds left exceed the steps left, and both decrease
  have hrounds : ∀ n n' m, m.steps ≤ limit → limit < n + m.steps → limit < n' + m.steps →
      Matches ends (Exec.repeatUntil a n) (Exec.repeatUntil b n') m fun _ m' =>
        m.steps ≤ m'.steps ∧ m'.steps ≤ limit := by
    intro n
    induction n with
    | zero => intro n' m hm hn; omega
    | succ n ih =>
      intro n' m hm hn hn'
      cases n' with
      | zero => omega
      | succ n' =>
        refine (h m hm).bind fun r m' hr => ?_
        obtain ⟨hle, hlimit⟩ := hr
        cases r with
        | some c => exact ⟨rfl, by omega, hlimit⟩
        | none =>
          refine (ih n' m' hlimit (by omega) (by omega)).mono fun _ m'' hm'' => ?_
          exact ⟨by omega, hm''.2⟩
  exact fun m hm => hrounds n n' m hm (by omega) (by omega)

theorem repeatUntil_forever {a : Exec σ (Option Control)} {m : Machine σ} (h : a m = .ok none m)
    (n : Nat) : Exec.repeatUntil a n m = .error .diverged m := by
  induction n with
  | zero => rfl
  | succ n ih =>
    show EStateM.bind a _ m = _
    unfold EStateM.bind
    rw [h]
    exact ih

/-- A round that changes nothing goes on forever or not at all. -/
theorem repeatUntil_of_idle {a b : Exec σ (Option Control)}
    (h : Paced ends limit (fun _ => 0) a b) (hidle : ∀ m m', a m = .ok none m' → m' = m)
    (hends : ¬ ends) (hn : 0 < n) (hn' : 0 < n') :
    Paced ends limit (fun _ => 0) (Exec.repeatUntil a n) (Exec.repeatUntil b n') := by
  intro m hm
  obtain ⟨k, rfl⟩ : ∃ k, n = k + 1 := ⟨n - 1, by omega⟩
  obtain ⟨k', rfl⟩ : ∃ k', n' = k' + 1 := ⟨n' - 1, by omega⟩
  by_cases hforever : a m = .ok none m
  · have hb : b m = .ok none m := (h m hm).1.trans hforever
    refine ⟨by rw [repeatUntil_forever hforever, repeatUntil_forever hb], ?_⟩
    rw [repeatUntil_forever hforever]
    exact fun he => absurd he hends
  · refine Matches.bind (P := fun r m' => r ≠ none ∧ m.steps + 0 ≤ m'.steps ∧ m'.steps ≤ limit) ?_
      fun r m' hr => ?_
    · obtain ⟨hsame, hround⟩ := h m hm
      refine ⟨hsame, ?_⟩
      cases ha : a m with
      | error halt m' => rw [ha] at hround; exact hround
      | ok r m' =>
        rw [ha] at hround
        refine ⟨?_, hround⟩
        rintro rfl
        rw [hidle m m' ha] at ha
        exact hforever ha
    · cases r with
      | none => exact absurd rfl hr.1
      | some c => exact ⟨rfl, hr.2⟩

variable {e : Case Instr}

/-- The test of a loop costs what its condition costs, if the loop goes on. -/
theorem loopTest (h : ∀ l ∈ e.lists, ∀ i ∈ l, Paced ends limit (fun _ => 1) (f i) (f' i)) :
    Paced ends limit (fun r => if r = none then e.condition.evaluation.length else 0)
      (Exec.loopTest (e.map f)) (Exec.loopTest (e.map f')) := by
  refine (runAll (h e.condition.evaluation (by simp [Case.lists]))).bind
    (fun c r => if c = .next then 0 else if r = none then e.condition.evaluation.length else 0)
    (fun c => ?_) fun c r => ?_
  · cases c with
    | next =>
      refine (of_confined (.primitive _)).after fun holds => ?_
      cases holds <;> exact .pure rfl
    | _ => exact .pure rfl
  · cases c with
    | next => dsimp only [onward]; split <;> simp
    | _ => simp [onward]

/-- A round of a loop that goes on costs a step for each of its instructions. -/
theorem loopRound (h : ∀ l ∈ e.lists, ∀ i ∈ l, Paced ends limit (fun _ => 1) (f i) (f' i)) :
    Paced ends limit (fun r => if r = none then e.lists.flatten.length else 0)
      (Exec.loopRound (e.map f)) (Exec.loopRound (e.map f')) := by
  have hbody := (runAll (h e.body.evaluation (by simp [Case.lists]))).andThen_onward
    (runAll (h e.updates (by simp [Case.lists])))
  refine hbody.bind
    (fun c r => if c = .next then (if r = none then e.condition.evaluation.length else 0)
      else if r = none then e.lists.flatten.length else 0)
    (fun c => ?_) fun c r => ?_
  · cases c with
    | next => exact loopTest h
    | _ => exact .pure rfl
  · cases c with
    | next =>
      dsimp only [onward]
      split
      · simp only [if_true, Case.lists, List.flatten_cons, List.flatten_nil, List.append_nil,
          List.length_append]
        omega
      · exact Nat.zero_le _
    | _ => simp [onward]

/-- A loop without instructions changes nothing while it goes on. -/
theorem loopRound_idle (hempty : e.lists.flatten = []) (m m' : Machine σ)
    (h : Exec.loopRound (e.map f) m = .ok none m') : m' = m := by
  simp only [Case.lists, List.flatten_cons, List.flatten_nil, List.append_nil,
    List.append_eq_nil_iff] at hempty
  obtain ⟨hcondition, hbody, hupdates⟩ := hempty
  have hround : Exec.loopRound (e.map f) =
      (Exec.primitive e.condition.primitive >>= fun holds =>
        if holds then Pure.pure none else Pure.pure (some .next) : Exec σ (Option Control)) := by
    simp only [Exec.loopRound, Exec.loopBody, Exec.loopTest, Case.map, CaseCondition.map, CaseBody.map,
      hcondition, hbody, hupdates, List.map_nil, Exec.runAll, Exec.andThen, pure_bind]
  rw [hround] at h
  obtain ⟨holds, m1, hholds, hrest⟩ := bind_eq_ok.1 h
  obtain ⟨b, m2, hlookup, hb⟩ := bind_eq_ok.1 hholds
  have hm2 : m2 = m := by
    change Exec.ofExcept (m.lookup e.condition.primitive) m = .ok b m2 at hlookup
    cases hl : m.lookup e.condition.primitive with
    | error f => rw [hl] at hlookup; cases hlookup
    | ok b' => rw [hl] at hlookup; cases hlookup; rfl
  have hm1 : m1 = m2 := by
    cases b with
    | primitive v => cases hb; rfl
    | null | object => cases hb
  cases holds with
  | true => cases hrest; rw [hm1, hm2]
  | false => cases hrest

/-- Where `ends` holds, the loop must have instructions. -/
theorem loop (hn : limit < n) (hn' : limit < n') (bodyFirst : Bool)
    (hends : ends → e.lists.flatten ≠ [])
    (h : ∀ l ∈ e.lists, ∀ i ∈ l, Paced ends limit (fun _ => 1) (f i) (f' i)) :
    Paced ends limit (fun _ => 0) (Exec.loop n bodyFirst (e.map f))
      (Exec.loop n' bodyFirst (e.map f')) := by
  have hrounds : Paced ends limit (fun _ => 0) (Exec.repeatUntil (Exec.loopRound (e.map f)) n)
      (Exec.repeatUntil (Exec.loopRound (e.map f')) n') := by
    by_cases hempty : e.lists.flatten = []
    · exact ((loopRound h).mono fun _ => Nat.zero_le _).repeatUntil_of_idle (loopRound_idle hempty)
        (fun he => hends he hempty) (by omega) (by omega)
    · exact (loopRound h).repeatUntil (by rw [if_pos rfl]; exact List.length_pos_iff.2 hempty) hn hn'
  cases bodyFirst with
  | true => exact hrounds
  | false =>
    refine ((loopTest h).mono fun _ => Nat.zero_le _).after fun r => ?_
    cases r with
    | some c => exact .pure rfl
    | none => exact hrounds

/-! ### Chains and logical blocks -/

/-- A nested list, when its cost does not matter. -/
theorem list (h : ∀ i ∈ l, Paced ends limit (fun _ => 1) (f i) (f' i)) :
    Paced ends limit (fun _ => 0) (Exec.runAll (l.map f)) (Exec.runAll (l.map f')) :=
  (runAll h).mono fun _ => Nat.zero_le _

/-- When costs do not matter, a chain does what its nested lists do. -/
theorem congruence :
    Congruence Eq (fun _ => True) (Paced (σ := σ) ends limit fun _ => 0) where
  pure _ := .pure rfl
  fail _ := .fail
  bind h hf := h.after hf
  read h := .get_bind fun m => h m m rfl
  lookup x := of_confined (.lookup x)
  assign x b _ := of_confined (.assign x b)
  typeOf _ := .get_bind fun _ => of_confined (.ofExcept fun _ _ => nofun)

end Paced

end Exec

/-! ### Instructions -/

/-- If the instruction is a loop, a round of it executes an instruction at least. -/
def Instr.loopsProgress (i : Instr) : Bool :=
  match i.chain? with
  | some c => !c.kind.isLoop || c.cases.head?.all fun e => !e.lists.flatten.isEmpty
  | none => true

namespace Exec.Paced

variable {ends : Prop} {cfg : Config σ} {n n' : Nat}

theorem perform (hn : cfg.maxSteps < n) (hn' : cfg.maxSteps < n') {i : Instr}
    {f f' : Instr → Exec σ Control} (hends : ends → i.loopsProgress = true)
    (h : ∀ l ∈ i.lists, ∀ j ∈ l, Paced ends cfg.maxSteps (fun _ => 1) (f j) (f' j)) :
    Paced ends cfg.maxSteps (fun _ => 0) (Exec.perform Exec.exitScope cfg n i (i.payload.map f))
      (Exec.perform Exec.exitScope cfg n' i (i.payload.map f')) := by
  by_cases hplain : i.opcode ≠ .chain ∧ i.opcode ≠ .logicalAnd ∧ i.opcode ≠ .logicalOr
  · obtain ⟨hchain, hand, hor⟩ := hplain
    have hsame : Exec.perform Exec.exitScope cfg n' i (i.payload.map f') =
        Exec.perform Exec.exitScope cfg n i (i.payload.map f) := by
      obtain ⟨opcode, operands, result, location, escape, payload⟩ := i
      cases opcode with
      | chain => exact absurd rfl hchain
      | logicalAnd => exact absurd rfl hand
      | logicalOr => exact absurd rfl hor
      | _ => rfl
    rw [hsame]
    exact of_confined (.perform_steps hchain hand hor _)
  · obtain ⟨opcode, operands, result, location, escape, payload⟩ := i
    cases opcode with
    | chain =>
      cases payload with
      | chain c =>
        have hlists : ∀ l ∈ c.lists, Paced ends cfg.maxSteps (fun _ => 0) (Exec.runAll (l.map f))
          (Exec.runAll (l.map f')) := fun l hl => list (h l hl)
        refine congruence.runChain (fun m n hmn => hmn ▸ of_confined (.unwind .leave_steps _)) hlists
          hlists (fun _ _ => trivial) (fun _ _ => trivial) (fun _ _ => trivial)
          fun hkind e he bodyFirst => loop hn hn' bodyFirst (fun hends' => ?_) fun l hl =>
            h l (Chain.mem_lists_of_case (List.mem_of_mem_head? he) hl)
        have hprogress := hends hends'
        simp only [Instr.loopsProgress, Instr.chain?, hkind, Option.mem_def.1 he, Bool.not_true,
          Bool.false_or, Option.all_some, Bool.not_eq_true', List.isEmpty_eq_false_iff] at hprogress
        exact hprogress
      | _ => exact .fail
    | logicalAnd | logicalOr =>
      cases payload with
      | logical b => exact congruence.runLogical (fun _ _ => trivial) fun l hl => list (h l hl)
      | _ => exact .fail
    | _ => exact absurd (by simp) hplain

theorem stayInside (i : Instr) (c : Control) :
    Paced (σ := σ) ends cfg.maxSteps (fun _ => 0) (Exec.stayInside i c) (Exec.stayInside i c) := by
  cases c with
  | jump _ => exact .fail
  | _ => exact .pure rfl

theorem exec_of_nested (hn : cfg.maxSteps < n) (hn' : cfg.maxSteps < n') {i : Instr}
    (hends : ends → i.loopsProgress = true) (h : ∀ l ∈ i.lists, ∀ j ∈ l,
      Paced ends cfg.maxSteps (fun _ => 1) (j.nested cfg n) (j.nested cfg n')) :
    Paced ends cfg.maxSteps (fun _ => 1) (i.exec cfg n) (i.exec cfg n') :=
  tick.before fun _ => perform hn hn' hends h

theorem nested (hn : cfg.maxSteps < n) (hn' : cfg.maxSteps < n') (i : Instr)
    (hends : ends → ∀ j ∈ i.preorder, j.loopsProgress = true) :
    Paced ends cfg.maxSteps (fun _ => 1) (i.nested cfg n) (i.nested cfg n') := by
  induction i using Instr.nested_induction with
  | h i ih =>
    rw [Instr.nested_eq, Instr.nested_eq]
    refine (exec_of_nested hn hn' (fun he => hends he i i.mem_preorder_self) ?_).before
      (stayInside i)
    exact fun l hl j hj => ih l hl j hj fun he k hk =>
      hends he k (Instr.mem_preorder_of_nested hl hj hk)

/-- Every instruction counts as a step, and rounds beyond the limit make no difference to it. -/
theorem exec (hn : cfg.maxSteps < n) (hn' : cfg.maxSteps < n') (i : Instr)
    (hends : ends → ∀ j ∈ i.preorder, j.loopsProgress = true) :
    Paced ends cfg.maxSteps (fun _ => 1) (i.exec cfg n) (i.exec cfg n') :=
  exec_of_nested hn hn' (fun he => hends he i i.mem_preorder_self) fun _ hl j hj =>
    nested hn hn' j fun he k hk =>
      hends he k (Instr.mem_preorder_of_nested hl hj hk)

end Exec.Paced

end ScopedIR
