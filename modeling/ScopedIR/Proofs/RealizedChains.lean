import ScopedIR.Proofs.Realization

/-!
# Chains beside an evaluation

What chains and logical blocks do in a run without counting, from what their nested lists do. A choice
among cases goes beside an evaluation that tests conditions in turn; a loop beside one that repeats; a
try chain beside one that handles exceptions.

Main definition: `Chooses`.

Main statements: `Does.chain`, `Does.logicalBlock`, `Does.whileLoop`, `Does.doWhile` and
`Does.tryChain`.
-/

namespace ScopedIR

variable {σ α β : Type} {handler : CallHandler σ} {old : Nat} {e : Case Instr}
  {location : Option Location} {T : Evaluation σ Bool} {M m m1 m2 : Machine σ}

open Exec Instr

/-! ### Choices -/

/-- Try cases in order, and then the default. -/
def selecting (handler : CallHandler σ) (cases : List (Case Instr))
    (fallback : Option (CaseBody Instr)) (limit rounds : Nat) : Exec σ Choice := do
  match ← tryCases (cases.map (·.map (nested (collecting handler limit) rounds))) with
  | .refused =>
    match fallback with
    | some body => choose (runNested handler body.evaluation limit rounds) (return .taken body.result)
    | none => return .refused
  | choice => return choice

/-- How the end of a body ends the choice of its case. -/
def ended (result : Option String) : Control → Choice
  | .next => .taken result
  | left => .left left

/-- The choice among cases comes to what the evaluation comes to. -/
def Chooses (handler : CallHandler σ) (old : Nat) (cases : List (Case Instr))
    (fallback : Option (CaseBody Instr)) (A : Evaluation σ β) (M m : Machine σ)
    (post : β → Choice → Vars → Prop) : Prop :=
  ∀ r M', A.run M = .ok r M' → ∃ choice m', Arrives (selecting handler cases fallback) m choice m' ∧
    Tracks M' m' ∧ Keeps old m.vars m'.vars ∧
    match r with
    | .ok b => post b choice m'.vars
    | .error e => choice = .left (.throw e)

theorem selecting_cons (handler : CallHandler σ) (e : Case Instr) (rest : List (Case Instr))
    (fallback : Option (CaseBody Instr)) (limit rounds : Nat) :
    selecting handler (e :: rest) fallback limit rounds =
      choose (runNested handler e.condition.evaluation limit rounds) (do
        if ← Exec.primitive e.condition.primitive then
          choose
            (andThen (runNested handler e.body.evaluation limit rounds)
              (runNested handler e.updates limit rounds))
            (return .taken e.body.result)
        else selecting handler rest fallback limit rounds) := by
  unfold selecting
  simp only [List.map_cons, tryCases, choose, bind_assoc]
  congr 1
  funext c
  cases c with
  | next =>
    simp only [bind_assoc]
    congr 1
    funext holds
    cases holds with
    | false => rfl
    | true =>
      simp only [if_true, bind_assoc]
      congr 1
      funext c'
      cases c' <;> rfl
  | _ => rfl

namespace Arrives

variable {a : Nat → Nat → Exec σ Control} {k : Nat → Nat → Exec σ Choice}

theorem primitive {x : String} {p : Bool} (h : m.vars.get? x = some (.primitive p)) :
    Arrives (fun _ _ => Exec.primitive x) m p m :=
  of_eq fun _ _ => Completes.primitive_ok (Layout.lookup_eq_ok h)

theorem choose {choice : Choice} (h : Arrives a m .next m1) (h' : Arrives k m1 choice m2) :
    Arrives (fun limit rounds => Exec.choose (a limit rounds) (k limit rounds)) m choice m2 :=
  h.bind h'

variable {c : Control}

theorem choose_left (h : Arrives a m c m1) (hc : c ≠ .next) :
    Arrives (fun limit rounds => Exec.choose (a limit rounds) (k limit rounds)) m (.left c) m1 := by
  apply h.bind
  apply of_eq
  intro limit rounds
  cases c with
  | next => exact absurd rfl hc
  | _ => rfl

/-- The end of a body. -/
theorem choose_ended {result : Option String} (h : Arrives a m c m1) :
    Arrives (fun limit rounds => Exec.choose (a limit rounds) (Pure.pure (.taken result))) m
      (ended result c) m1 := by
  cases c with
  | next => exact h.choose (.of_eq fun _ _ => rfl)
  | _ => exact h.choose_left (by simp)

end Arrives

namespace Chooses

variable {rest : List (Case Instr)} {fallback : Option (CaseBody Instr)} {B R : Evaluation σ β}
  {post : β → Choice → Vars → Prop}

/-- The first case is taken if its condition holds. -/
theorem cons (hupdates : e.updates = [])
    (htest : Does handler old e.condition.evaluation T M m
      (Onward fun p vars => vars.get? e.condition.primitive = some (.primitive p)))
    (hbody : ∀ M1 m1, Tracks M1 m1 → Keeps old m.vars m1.vars →
      Does handler old e.body.evaluation B M1 m1 fun b c vars => post b (ended e.body.result c) vars)
    (hrest : ∀ M1 m1, Tracks M1 m1 → Keeps old m.vars m1.vars →
      Chooses handler old rest fallback R M1 m1 post) :
    Chooses handler old (e :: rest) fallback (T >>= fun p => if p then B else R) M m post := by
  intro r M' hr
  have hselect : selecting handler (e :: rest) fallback = _ :=
    funext fun limit => funext fun rounds => selecting_cons handler e rest fallback limit rounds
  rw [hselect]
  rcases Evaluation.bind_eq_ok hr with ⟨p, M1, hT, hB⟩ | ⟨ex, hT, rfl⟩
  · obtain ⟨c1, m1, hc1, ht1, hk1, rfl, hp⟩ := htest _ _ hT
    have hprimitive := Arrives.primitive hp
    cases p with
    | false =>
      obtain ⟨choice, m2, hchoice, ht2, hk2, hpost⟩ := hrest M1 m1 ht1 hk1 r M' hB
      exact ⟨choice, m2, Arrives.choose hc1 (hprimitive.bind hchoice), ht2, hk1.trans hk2, hpost⟩
    | true =>
      obtain ⟨c2, m2, hc2, ht2, hk2, hpost⟩ := hbody M1 m1 ht1 hk1 r M' hB
      have hall : Arrives (fun limit rounds =>
          andThen (runNested handler e.body.evaluation limit rounds)
            (runNested handler e.updates limit rounds)) m1 c2 m2 := by
        by_cases hnext : c2 = .next
        · subst hnext
          rw [hupdates]
          exact Arrives.andThen hc2 (Completes.nil m2)
        · exact Arrives.andThen_left hc2 hnext
      refine ⟨ended e.body.result c2, m2, Arrives.choose hc1 (hprimitive.bind hall.choose_ended), ht2,
        hk1.trans hk2, ?_⟩
      cases r with
      | ok b => exact hpost
      | error ex =>
        cases hpost
        rfl
  · obtain ⟨c1, m1, hc1, ht1, hk1, rfl⟩ := htest _ _ hT
    exact ⟨_, m1, Arrives.choose_left hc1 (by simp), ht1, hk1, rfl⟩

/-- The default is taken when no case is left. -/
theorem default {body : CaseBody Instr}
    (hbody : Does handler old body.evaluation B M m fun b c vars => post b (ended body.result c) vars) :
    Chooses handler old [] (some body) B M m post := by
  intro r M' hr
  obtain ⟨c, m1, hc, ht, hk, hpost⟩ := hbody r M' hr
  refine ⟨ended body.result c, m1, Arrives.choose_ended hc, ht, hk, ?_⟩
  cases r with
  | ok b => exact hpost
  | error ex =>
    cases hpost
    rfl

/-- Nothing is done when no case is left and there is no default. -/
theorem refused {b : β} (ht : Tracks M m) (hpost : post b .refused m.vars) :
    Chooses handler old [] none (pure b) M m post := by
  intro r M' hr
  obtain ⟨rfl, rfl⟩ := Evaluation.pure_eq_ok hr
  exact ⟨.refused, m, .of_eq fun _ _ => rfl, ht, .refl _ _, hpost⟩

end Chooses

/-- What sets up the variables of a chain. -/
def Chain.setups (c : Chain Instr) : List Instr :=
  ((c.subject.map (·.setup)).getD []) ++ ((c.returning.map (·.setup)).getD [])

/-- The end of a chain after the choice among its cases. -/
def finishing (i : Instr) (returning : Option (ChainVariable (Exec σ Control))) :
    Choice → Exec σ Control
  | .left control => return control
  | .taken result => finishChain i returning result
  | .refused => finishChain i returning none

theorem runSetup_map (handler : CallHandler σ) (v : Option (ChainVariable Instr)) (limit rounds : Nat) :
    runSetup (v.map (·.map (nested (collecting handler limit) rounds))) =
      runNested handler ((v.map (·.setup)).getD []) limit rounds := by
  cases v <;> rfl

theorem andThen_assoc (a b c : Exec σ Control) :
    andThen (andThen a b) c = andThen a (andThen b c) := by
  simp only [Exec.andThen, bind_assoc]
  congr 1
  funext control
  cases control <;> simp

/-- A chain that is neither a loop nor a try chain sets up its variables, makes a choice and ends. -/
theorem runChain_eq (handler : CallHandler σ) (i : Instr) {c : Chain Instr}
    (htry : c.kind ≠ .tryCatchFinally) (hloop : c.kind.isLoop = false) (limit rounds : Nat) :
    runChain exitScope rounds i (c.map (nested (collecting handler limit) rounds)) =
      andThen (runNested handler c.setups limit rounds)
        (selecting handler c.cases c.fallback limit rounds >>=
          finishing i (c.returning.map (·.map (nested (collecting handler limit) rounds)))) := by
  have hselect : select (c.map (nested (collecting handler limit) rounds)) =
      selecting handler c.cases c.fallback limit rounds := by
    unfold select selecting Chain.map
    congr 1
    funext choice
    cases choice with
    | refused => cases c.fallback <;> rfl
    | _ => rfl
  have hend : (select (c.map (nested (collecting handler limit) rounds)) >>= fun choice =>
      match choice with
      | .left control => pure control
      | .taken result => finishChain i (c.map (nested (collecting handler limit) rounds)).returning result
      | .refused => finishChain i (c.map (nested (collecting handler limit) rounds)).returning none) =
      selecting handler c.cases c.fallback limit rounds >>=
        finishing i (c.returning.map (·.map (nested (collecting handler limit) rounds))) := by
    rw [hselect]
    congr 1
  have hkind : (c.map (nested (collecting handler limit) rounds)).kind = c.kind := rfl
  unfold runChain
  rw [hkind, if_neg htry, hloop]
  unfold Chain.setups
  rw [Completes.runNested_append, andThen_assoc, ← hend, ← runSetup_map, ← runSetup_map]
  rfl

/-- A chain that runs an action. -/
theorem Completes.chained {c : Chain Instr} {ctl : Control} {a : Nat → Nat → Exec σ Control}
    {m' : Machine σ} (ha : ∀ limit rounds, runChain exitScope rounds (Instr.chained location c)
      (c.map (nested (collecting handler limit) rounds)) = a limit rounds)
    (hctl : ∀ label, ctl ≠ .jump label) (h : Arrives a (ticked m) ctl m') :
    Completes handler [Instr.chained location c] m ctl m' := by
  apply single hctl
  show Arrives (fun limit rounds => runChain exitScope rounds (Instr.chained location c)
    (c.map (nested (collecting handler limit) rounds))) (ticked m) ctl m'
  simp only [ha]
  exact h

namespace Does

variable {c : Chain Instr} {A : Evaluation σ α} {B : α → Evaluation σ β} {P : α → Vars → Prop}
  {post : β → Choice → Vars → Prop} {post2 : β → Control → Vars → Prop}

/-- A chain that is neither a loop nor a try chain. -/
theorem chain (htry : c.kind ≠ .tryCatchFinally) (hloop : c.kind.isLoop = false)
    (hsetup : Does handler old c.setups A M (ticked m) (Onward P))
    (hchoice : ∀ b M1 m1, Tracks M1 m1 → Keeps old m.vars m1.vars → P b m1.vars →
      Chooses handler old c.cases c.fallback (B b) M1 m1 post)
    (hfinish : ∀ v choice M2 m2, Tracks M2 m2 → Keeps old m.vars m2.vars → post v choice m2.vars →
      ∃ ctl m3, (∀ f : Instr → Exec σ Control, finishing (chained location c)
        (c.returning.map (·.map f)) choice m2 = .ok ctl m3) ∧ (∀ label, ctl ≠ .jump label) ∧
        Tracks M2 m3 ∧ Keeps old m2.vars m3.vars ∧ post2 v ctl m3.vars) :
    Does handler old [chained location c] (A >>= B) M m post2 := by
  intro r M' hr
  have hchain := runChain_eq handler (chained location c) htry hloop
  rcases Evaluation.bind_eq_ok hr with ⟨b, M1, hA, hB⟩ | ⟨e, hA, rfl⟩
  · obtain ⟨c1, m1, hc1, ht1, hk1, rfl, hP⟩ := hsetup _ _ hA
    obtain ⟨choice, m2, hchosen, ht2, hk2, hpost⟩ := hchoice b M1 m1 ht1 hk1 hP r M' hB
    cases r with
    | ok v =>
      obtain ⟨ctl, m3, hfin, hctl, ht3, hk3, hpost2⟩ :=
        hfinish v choice M' m2 ht2 (hk1.trans hk2) hpost
      refine ⟨ctl, m3, .chained hchain hctl (Arrives.andThen hc1 (hchosen.bind ?_)), ht3,
        (hk1.trans hk2).trans hk3, hpost2⟩
      exact .of_eq fun _ _ => hfin _
    | error e =>
      cases hpost
      refine ⟨.throw e, m2, .chained hchain (by simp) (Arrives.andThen hc1 (hchosen.bind ?_)), ht2,
        hk1.trans hk2, rfl⟩
      exact .of_eq fun _ _ => rfl
  · obtain ⟨c1, m1, hc1, ht1, hk1, rfl⟩ := hsetup _ _ hA
    exact ⟨.throw e, m1, .chained hchain (by simp) (Arrives.andThen_left hc1 (by simp)), ht1, hk1, rfl⟩

/-- The value of the case that was taken becomes the result of a chain. -/
theorem chain_value {t : String} (htry : c.kind ≠ .tryCatchFinally) (hloop : c.kind.isLoop = false)
    (hsubject : c.subject = none) (hreturning : c.returning = none) (hresult : c.result = some t)
    (ht : FreshTemp old t) {V : Evaluation σ Binding} (htracks : Tracks M m)
    (h : ∀ M1 m1, Tracks M1 m1 → Keeps old m.vars m1.vars →
      Chooses handler old c.cases c.fallback V M1 m1 fun v choice vars =>
        ∃ x, choice = .taken (some x) ∧ vars.get? x = some v) :
    Does handler old [chained location c] V M m (Onward fun v vars => vars.get? t = some v) := by
  have hsetups : c.setups = [] := by
    unfold Chain.setups
    rw [hsubject, hreturning]
    rfl
  have hV : V = (Pure.pure () : Evaluation σ Unit) >>= fun _ => V := (pure_bind () fun _ => V).symm
  rw [hV]
  refine chain (P := fun _ _ => True) htry hloop ?_ (fun _ M1 m1 ht1 hk1 _ => h M1 m1 ht1 hk1) ?_
  · rw [hsetups]
    exact Does.pure htracks.tick trivial
  · rintro v choice M2 m2 ht2 - ⟨x, rfl, hx⟩
    refine ⟨.next, { m2 with vars := m2.vars.insert t v }, ?_, by simp, ht2.temp ht.isTemp,
      .insert ht.fresh, rfl, FinMap.get?_insert_self _ _ _⟩
    intro f
    rw [hreturning]
    show (Exec.lookup x >>= fun v => bindResult c.result v >>= fun _ => Pure.pure Control.next) m2 = _
    rw [Exec.bind_ok (Completes.lookup_ok (Layout.lookup_eq_ok hx)), hresult]
    rfl

/-- A logical block evaluates its right side only if the left side does not decide. -/
theorem logicalBlock {b : LogicalBlock Instr} {t : String} (ht : FreshTemp old t)
    {L : Evaluation σ (Binding × Bool)} {R : Binding → Evaluation σ Binding}
    (hleft : Does handler old b.leftEvaluation L M (ticked m)
      (Onward fun q vars => vars.get? b.left = some q.1 ∧ vars.get? b.condition = some (.primitive q.2)))
    (hright : ∀ v M1 m1, Tracks M1 m1 → Keeps old m.vars m1.vars → m1.vars.get? b.left = some v →
      Does handler old (b.rightEvaluation ++ b.computation) (R v) M1 m1
        (Onward fun w vars => vars.get? b.result = some w)) :
    Does handler old [Instr.logicalBlock location t b]
      (L >>= fun q => if decides b.op q.2 then Pure.pure q.1 else R q.1) M m
      (Onward fun v vars => vars.get? t = some v) := by
  -- what a run of the block comes to, from its parts
  have hperform : ∀ {ctl : Control} {m' : Machine σ}, (∀ label, ctl ≠ .jump label) →
      Arrives (fun limit rounds => andThen (runNested handler b.leftEvaluation limit rounds) (do
        if decides b.op (← Exec.primitive b.condition) then
          bindResult (some t) (← Exec.lookup b.left)
          return .next
        else
          andThen (runNested handler (b.rightEvaluation ++ b.computation) limit rounds) do
            bindResult (some t) (← Exec.lookup b.result)
            return .next)) (ticked m) ctl m' →
      Completes handler [Instr.logicalBlock location t b] m ctl m' := by
    intro ctl m' hctl h
    apply Completes.single hctl
    show Arrives (fun limit rounds => perform exitScope (collecting handler limit) rounds
      (Instr.logicalBlock location t b)
      (.logical (b.map (nested (collecting handler limit) rounds)))) (ticked m) ctl m'
    simp only [perform_logicalBlock, runLogical]
    simp only [Completes.runNested_append, andThen_assoc] at h
    exact h
  have hbind : ∀ {x : String} {v : Binding} {m1 : Machine σ}, m1.vars.get? x = some v →
      Arrives (fun _ _ => (do
        bindResult (some t) (← Exec.lookup x)
        return .next : Exec σ Control)) m1 .next { m1 with vars := m1.vars.insert t v } := by
    intro x v m1 hx
    apply Arrives.of_eq
    intro _ _
    show (Exec.lookup x >>= fun v => bindResult (some t) v >>= fun _ => Pure.pure Control.next) m1 = _
    rw [Exec.bind_ok (Completes.lookup_ok (Layout.lookup_eq_ok hx))]
    rfl
  intro r M' hr
  rcases Evaluation.bind_eq_ok hr with ⟨⟨v, p⟩, M1, hL, hR⟩ | ⟨e, hL, rfl⟩
  · obtain ⟨c1, m1, hc1, ht1, hk1, rfl, hv, hp⟩ := hleft _ _ hL
    have hprimitive := Arrives.primitive hp
    by_cases hd : decides b.op p = true
    · rw [if_pos hd] at hR
      obtain ⟨rfl, rfl⟩ := Evaluation.pure_eq_ok hR
      refine ⟨.next, _, hperform (by simp) (Arrives.andThen hc1 (hprimitive.bind ?_)),
        ht1.temp ht.isTemp, hk1.trans (.insert ht.fresh), rfl, FinMap.get?_insert_self _ _ _⟩
      simp only [hd, if_true]
      exact hbind hv
    · rw [if_neg hd] at hR
      obtain ⟨c2, m2, hc2, ht2, hk2, hpost⟩ := hright v M1 m1 ht1 hk1 hv r M' hR
      cases r with
      | ok w =>
        obtain ⟨rfl, hw⟩ := hpost
        refine ⟨.next, _, hperform (by simp) (Arrives.andThen hc1 (hprimitive.bind ?_)),
          ht2.temp ht.isTemp, (hk1.trans hk2).trans (.insert ht.fresh), rfl, FinMap.get?_insert_self _ _ _⟩
        simp only [if_neg hd]
        exact Arrives.andThen hc2 (hbind hw)
      | error e =>
        cases hpost
        refine ⟨.throw e, m2, hperform (by simp) (Arrives.andThen hc1 (hprimitive.bind ?_)), ht2,
          hk1.trans hk2, rfl⟩
        simp only [if_neg hd]
        exact Arrives.andThen_left hc2 (by simp)
  · obtain ⟨c1, m1, hc1, ht1, hk1, rfl⟩ := hleft _ _ hL
    exact ⟨.throw e, m1, hperform (by simp) (Arrives.andThen_left hc1 (by simp)), ht1, hk1, rfl⟩

end Does

/-! ### Statements -/

/-- Where control goes after statements. -/
def Completion.control : Completion → Control
  | .next => .next
  | .ret v => .ret v

theorem Completion.control_ret_ne (v : Option Binding) : (Completion.ret v).control ≠ .next := by
  simp [Completion.control]

/-- Where control goes after statements that may throw. -/
def departure : Except Binding Completion → Control
  | .ok k => k.control
  | .error e => .throw e

theorem departure_ne_jump (r : Except Binding Completion) (label : String) :
    departure r ≠ .jump label := by
  rcases r with _ | (_ | _) <;> simp [departure, Completion.control]

/-- Control leaves as statements do. -/
def Leaves : Completion → Control → Vars → Prop := fun k c _ => c = k.control

/-- The action ends as the evaluation of statements does. -/
def Ends (a : Nat → Nat → Exec σ Control) (old : Nat) (A : Evaluation σ Completion)
    (M m : Machine σ) : Prop :=
  ∀ r M', A.run M = .ok r M' → ∃ m', Arrives a m (departure r) m' ∧ Tracks M' m' ∧
    Keeps old m.vars m'.vars

theorem does_iff_ends {handler : CallHandler σ} {old : Nat} {l : List Instr}
    {A : Evaluation σ Completion} {M m : Machine σ} :
    Does handler old l A M m Leaves ↔ Ends (runNested handler l) old A M m := by
  constructor
  · intro h r M' hr
    obtain ⟨c, m', hc, ht, hk, hpost⟩ := h r M' hr
    refine ⟨m', ?_, ht, hk⟩
    cases r with
    | ok k =>
      rw [show departure (.ok k) = c from hpost.symm]
      exact hc
    | error e =>
      rw [show departure (.error e) = c from hpost.symm]
      exact hc
  · intro h r M' hr
    obtain ⟨m', hc, ht, hk⟩ := h r M' hr
    refine ⟨departure r, m', hc, ht, hk, ?_⟩
    cases r with
    | ok k | error e => rfl

/-! ### Loops -/

/-- A loop from its test on, with the rounds of the loop counted on their own. -/
def looping (handler : CallHandler σ) (e : Case Instr) (limit rounds k : Nat) : Exec σ Control := do
  match ← loopTest (e.map (nested (collecting handler limit) rounds)) with
  | some control => return control
  | none => repeatUntil (loopRound (e.map (nested (collecting handler limit) rounds))) k

/-- The action comes to an end whenever there are steps and rounds enough. -/
def Finishes (a : Nat → Nat → Nat → Exec σ Control) (m : Machine σ) (c : Control)
    (m' : Machine σ) : Prop :=
  ∃ n, ∀ limit rounds k, n ≤ limit → n ≤ rounds → n ≤ k → a limit rounds k m = .ok c m'

/-- The loop comes to an end. -/
abbrev Loops (handler : CallHandler σ) (e : Case Instr) := Finishes (looping handler e)

/-- The rounds of the loop come to an end. -/
abbrev RoundsEnd (handler : CallHandler σ) (e : Case Instr) := Finishes fun limit rounds =>
  repeatUntil (loopRound (e.map (nested (collecting handler limit) rounds)))

section

variable {c : Control}

/-- The condition of a loop is evaluated. -/
theorem Arrives.loopTest {p : Bool} (h : Completes handler e.condition.evaluation m .next m1)
    (hp : m1.vars.get? e.condition.primitive = some (.primitive p)) :
    Arrives (fun limit rounds => Exec.loopTest (e.map (nested (collecting handler limit) rounds))) m
      (if p then none else some .next) m1 := by
  apply Arrives.bind h
  apply (Arrives.primitive hp).bind
  apply Arrives.of_eq
  intro _ _
  cases p <;> rfl

/-- Control leaves the condition of a loop. -/
theorem Arrives.loopTest_left (h : Completes handler e.condition.evaluation m c m1) (hc : c ≠ .next) :
    Arrives (fun limit rounds => Exec.loopTest (e.map (nested (collecting handler limit) rounds))) m
      (some c) m1 := by
  apply Arrives.bind h
  apply Arrives.of_eq
  intro _ _
  cases c with
  | next => exact absurd rfl hc
  | _ => rfl

/-- A loop that is over after its test. -/
theorem Loops.over
    (h : Arrives (fun limit rounds => loopTest (e.map (nested (collecting handler limit) rounds))) m
      (some c) m1) :
    Loops handler e m c m1 := by
  obtain ⟨n, hn⟩ := h
  refine ⟨n, fun limit rounds k hl hr _ => ?_⟩
  unfold looping
  rw [Exec.bind_ok (hn limit rounds hl hr)]
  rfl

/-- The body of a loop with its updates. -/
theorem loopBody_map (limit rounds : Nat) :
    loopBody (e.map (nested (collecting handler limit) rounds)) =
      runNested handler (e.body.evaluation ++ e.updates) limit rounds := by
  rw [Completes.runNested_append]
  rfl

/-- A round of a loop after which it goes on. -/
theorem repeatUntil_next (hbody : Completes handler (e.body.evaluation ++ e.updates) m .next m1)
    (hrest : Loops handler e m1 c m2) : RoundsEnd handler e m c m2 := by
  obtain ⟨n, hn⟩ := hbody
  obtain ⟨n', hn'⟩ := hrest
  refine ⟨max n (n' + 1), fun limit rounds k hl hr hk => ?_⟩
  obtain ⟨k, rfl⟩ : ∃ j, k = j + 1 := ⟨k - 1, by omega⟩
  have hlooping := hn' limit rounds k (by omega) (by omega) (by omega)
  have hround : loopRound (e.map (nested (collecting handler limit) rounds)) m =
      loopTest (e.map (nested (collecting handler limit) rounds)) m1 := by
    unfold loopRound
    rw [loopBody_map, Exec.bind_ok (hn limit rounds (by omega) (by omega))]
  show EStateM.bind (loopRound _) _ m = _
  unfold EStateM.bind
  rw [hround]
  exact hlooping

/-- A round of a loop in which control leaves. -/
theorem repeatUntil_left (hbody : Completes handler (e.body.evaluation ++ e.updates) m c m1)
    (hc : c ≠ .next) : RoundsEnd handler e m c m1 := by
  obtain ⟨n, hn⟩ := hbody
  refine ⟨n + 1, fun limit rounds k hl hr hk => ?_⟩
  obtain ⟨k, rfl⟩ : ∃ j, k = j + 1 := ⟨k - 1, by omega⟩
  have hround : loopRound (e.map (nested (collecting handler limit) rounds)) m = .ok (some c) m1 := by
    unfold loopRound
    rw [loopBody_map, Exec.bind_ok (hn limit rounds (by omega) (by omega))]
    cases c with
    | next => exact absurd rfl hc
    | _ => rfl
  show (loopRound _ >>= fun r => _) m = _
  rw [Exec.bind_ok hround]
  rfl

/-- A loop whose test holds goes on with a round. -/
theorem Loops.round
    (htest : Arrives (fun limit rounds => loopTest (e.map (nested (collecting handler limit) rounds)))
      m none m1) (h : RoundsEnd handler e m1 c m2) : Loops handler e m c m2 := by
  obtain ⟨n, hn⟩ := htest
  obtain ⟨n', hn'⟩ := h
  refine ⟨max n n', fun limit rounds k hl hr hk => ?_⟩
  unfold looping
  rw [Exec.bind_ok (hn limit rounds (by omega) (by omega))]
  exact hn' limit rounds k (by omega) (by omega) (by omega)

end

section

variable {B : Evaluation σ Completion} {G : Vars → Prop} {c : Chain Instr}

/-- What the parts of a loop do, wherever the bindings are as `G` says, which they keep. -/
structure LoopParts (handler : CallHandler σ) (old : Nat) (e : Case Instr) (T : Evaluation σ Bool)
    (B : Evaluation σ Completion) (G : Vars → Prop) : Prop where
  test : ∀ M m, Tracks M m → G m.vars → Does handler old e.condition.evaluation T M m
    (Onward fun p vars => vars.get? e.condition.primitive = some (.primitive p))
  body : ∀ M m, Tracks M m → G m.vars →
    Does handler old (e.body.evaluation ++ e.updates) B M m Leaves
  keep : ∀ vars vars', G vars → Keeps old vars vars' → G vars'

/-- A loop repeats its body as evaluation does, by induction on the rounds of the evaluation. -/
theorem LoopParts.loops (h : LoopParts handler old e T B G) (n : Nat) (ht : Tracks M m)
    (hG : G m.vars) {r : Except Binding Completion} {M' : Machine σ}
    (hr : (Evaluation.repeatWhile T B n).run M = .ok r M') :
    ∃ m', Loops handler e m (departure r) m' ∧ Tracks M' m' ∧ Keeps old m.vars m'.vars := by
  induction n generalizing M m with
  | zero => cases hr
  | succ n ih =>
    rw [Evaluation.repeatWhile] at hr
    rcases Evaluation.bind_eq_ok hr with ⟨p, M1, hT, hrest⟩ | ⟨ex, hT, rfl⟩
    · obtain ⟨_, m1, hc1, ht1, hk1, rfl, hp⟩ := h.test M m ht hG _ _ hT
      have hG1 := h.keep _ _ hG hk1
      cases p with
      | false =>
        obtain ⟨rfl, rfl⟩ := Evaluation.pure_eq_ok hrest
        exact ⟨m1, .over (Arrives.loopTest hc1 hp), ht1, hk1⟩
      | true =>
        have htest := Arrives.loopTest hc1 hp
        rcases Evaluation.bind_eq_ok hrest with ⟨k, M2, hB, hnext⟩ | ⟨ex, hB, rfl⟩
        · obtain ⟨_, m2, hc2, ht2, hk2, rfl⟩ := h.body M1 m1 ht1 hG1 _ _ hB
          have hk12 := hk1.trans hk2
          cases k with
          | next =>
            obtain ⟨m3, hloops, ht3, hk3⟩ := ih ht2 (h.keep _ _ hG hk12) hnext
            exact ⟨m3, .round htest (repeatUntil_next hc2 hloops), ht3, hk12.trans hk3⟩
          | ret v =>
            obtain ⟨rfl, rfl⟩ := Evaluation.pure_eq_ok hnext
            exact ⟨m2, .round htest (repeatUntil_left hc2 (Completion.control_ret_ne v)), ht2, hk12⟩
        · obtain ⟨_, m2, hc2, ht2, hk2, rfl⟩ := h.body M1 m1 ht1 hG1 _ _ hB
          exact ⟨m2, .round htest (repeatUntil_left hc2 (by simp [departure])), ht2, hk1.trans hk2⟩
    · obtain ⟨_, m1, hc1, ht1, hk1, rfl⟩ := h.test M m ht hG _ _ hT
      exact ⟨m1, .over (Arrives.loopTest_left hc1 (by simp [departure])), ht1, hk1⟩

/-- A loop that runs one case and has no variables. -/
structure Chain.LoopsOn (c : Chain Instr) (kind : ChainKind) (e : Case Instr) : Prop where
  kind : c.kind = kind
  subject : c.subject = none
  returning : c.returning = none
  cases : c.cases = [e]

/-- A loop runs its case, with the body first as its kind says. -/
theorem Completes.loop {ctl : Control} {m' : Machine σ} {kind : ChainKind} (hloop : kind.isLoop = true)
    (hc : c.LoopsOn kind e) (hctl : ∀ label, ctl ≠ .jump label)
    (h : Arrives (fun limit rounds => Exec.loop rounds (kind = .doWhileLoop)
      (e.map (nested (collecting handler limit) rounds))) (ticked m) ctl m') :
    Completes handler [Instr.chained location c] m ctl m' := by
  obtain ⟨rfl, hsubject, hreturning, hcases⟩ := hc
  refine .chained (fun limit rounds => ?_) hctl h
  rw [runChain_loop (e := e.map (nested (collecting handler limit) rounds)) hloop]
  · rfl
  · simp only [Chain.map, hsubject]
    rfl
  · simp only [Chain.map, hreturning]
    rfl
  · simp only [Chain.map, hcases]
    rfl

/-- A loop with the test first. -/
theorem Does.whileLoop (hc : c.LoopsOn .whileLoop e) (h : LoopParts handler old e T B G) (n : Nat)
    (ht : Tracks M m) (hG : G m.vars) :
    Does handler old [chained location c] (Evaluation.repeatWhile T B n) M m Leaves := by
  rw [does_iff_ends]
  intro r M' hr
  obtain ⟨m', ⟨k, hloops⟩, ht', hk'⟩ := h.loops n ht.tick hG hr
  exact ⟨m', Completes.loop rfl hc (departure_ne_jump r)
    ⟨k, fun limit rounds hl hr => hloops limit rounds rounds hl hr hr⟩, ht', hk'⟩

/-- A loop with the body first. -/
theorem Does.doWhile (hc : c.LoopsOn .doWhileLoop e) (h : LoopParts handler old e T B G) (n : Nat)
    (ht : Tracks M m) (hG : G m.vars) :
    Does handler old [chained location c]
      (B >>= fun k => match k with
        | .next => Evaluation.repeatWhile T B n
        | left => Pure.pure left) M m Leaves := by
  have hchain : ∀ {ctl : Control} {m' : Machine σ}, (∀ label, ctl ≠ .jump label) →
      RoundsEnd handler e (ticked m) ctl m' → Completes handler [chained location c] m ctl m' := by
    rintro ctl m' hctl ⟨n, hn⟩
    exact .loop rfl hc hctl ⟨n, fun limit rounds hl hr => hn limit rounds rounds hl hr hr⟩
  intro r M' hr
  rcases Evaluation.bind_eq_ok hr with ⟨k, M1, hB, hnext⟩ | ⟨ex, hB, rfl⟩
  · obtain ⟨_, m1, hc1, ht1, hk1, rfl⟩ := h.body M (ticked m) ht.tick hG _ _ hB
    cases k with
    | next =>
      obtain ⟨m2, hloops, ht2, hk2⟩ := h.loops n ht1 (h.keep _ _ hG hk1) hnext
      refine ⟨departure r, m2, hchain (departure_ne_jump r) (repeatUntil_next hc1 hloops), ht2,
        hk1.trans hk2, ?_⟩
      cases r <;> rfl
    | ret v =>
      obtain ⟨rfl, rfl⟩ := Evaluation.pure_eq_ok hnext
      exact ⟨.ret v, m1, hchain (by simp) (repeatUntil_left hc1 (Completion.control_ret_ne v)), ht1,
        hk1, rfl⟩
  · obtain ⟨_, m1, hc1, ht1, hk1, rfl⟩ := h.body M (ticked m) ht.tick hG _ _ hB
    exact ⟨.throw ex, m1, hchain (by simp) (repeatUntil_left hc1 (by simp)), ht1, hk1, rfl⟩

end

/-! ### Try chains -/

section

variable {c : Chain Instr}

/-- Without counting there are no scopes to leave. -/
theorem Tracks.unwind (ht : Tracks M m) (depth : Nat) :
    Exec.unwind exitScope depth m = .ok () m := by
  show exitScopes exitScope (m.scopes.length - depth) m = _
  rw [ht.scopes, List.length_nil, Nat.zero_sub]
  rfl

/-- What the handlers of a try chain do with an exception of a type, which the name of the chain is
bound to. -/
def Handles (handler : CallHandler σ) (old : Nat) (c : Chain Instr) (name : String) (ex : Binding)
    (K : String → Evaluation σ Completion) : Prop :=
  ∀ type, match c.handlerFor type TypeName.exception with
    | some case => ∀ M m, Tracks M m → m.vars.get? name = some ex →
      Does handler old case.body.evaluation (K type) M m Leaves
    | none => K type = throw ex

variable {name : String} {A F : Evaluation σ Completion} {b : TryBlock Instr}

/-- An exception is handled as in evaluation. -/
theorem Handles.ends {ex : Binding} {K : String → Evaluation σ Completion} (hname : FreshTemp old name)
    (h : Handles handler old c name ex K) (ht : Tracks M m) (depth : Nat) :
    Ends (fun limit rounds => handle exitScope (c.map (nested (collecting handler limit) rounds)) name
      depth ex) old (Evaluation.act (do Exec.ofExcept ((← get).typeOf ex)) >>= K) M m := by
  intro r M' hr
  obtain ⟨type, M1, htype, hK⟩ := Evaluation.act_bind_eq_ok hr
  obtain ⟨htype, rfl⟩ := ofExcept_eq_ok (show Exec.ofExcept (M.typeOf ex) M = _ from htype)
  have htype' : m.typeOf ex = .ok type := by
    rw [← htype]
    unfold Machine.typeOf
    rw [ht.heap]
  have hcase := h type
  have hstart : ∀ f : Instr → Exec σ Control, handle exitScope (c.map f) name depth ex m =
      handleBy exitScope name depth ex
        ((c.handlerFor type TypeName.exception).map fun k : Case Instr => k.map f) m := by
    intro f
    unfold handle
    rw [Exec.bind_ok (ht.unwind depth), ← c.handlerFor_mapWith f f]
    show (Exec.ofExcept (m.typeOf ex) >>= fun type => _) m = _
    rw [htype']
    rfl
  cases hf : c.handlerFor type TypeName.exception with
  | none =>
    rw [hf] at hcase
    have hK' : (throw ex : Evaluation σ Completion).run M1 = .ok r M' := hcase ▸ hK
    cases hK'
    refine ⟨m, .of_eq fun limit rounds => ?_, ht, .refl _ _⟩
    rw [hstart, hf]
    rfl
  | some case =>
    rw [hf] at hcase
    obtain ⟨m2, ⟨n, hn⟩, ht2, hk2⟩ := does_iff_ends.1
      (hcase M1 { m with vars := m.vars.insert name ex } (ht.temp hname.isTemp)
        (FinMap.get?_insert_self _ _ _)) r M' hK
    refine ⟨m2, ⟨n, fun limit rounds hl hr => ?_⟩, ht2, (Keeps.insert hname.fresh).trans hk2⟩
    show handle exitScope (c.map (nested (collecting handler limit) rounds)) name depth ex m = _
    rw [hstart, hf]
    show (runNested handler case.body.evaluation limit rounds >>= leaveHandler exitScope depth)
      { m with vars := m.vars.insert name ex } = _
    rw [Exec.bind_ok (hn limit rounds hl hr)]
    rcases r with e | (_ | v)
    · show (Exec.unwind exitScope depth >>= fun _ => pure (Control.throw e)) m2 = _
      rw [Exec.bind_ok (ht2.unwind depth)]
      rfl
    · rfl
    · rfl

/-- Run the block of a try chain, and the handlers on what it throws. -/
def attempt (handler : CallHandler σ) (c : Chain Instr) (block : List Instr) (name : String)
    (depth limit rounds : Nat) : Exec σ Control := do
  match ← runNested handler block limit rounds with
  | .throw ex => handle exitScope (c.map (nested (collecting handler limit) rounds)) name depth ex
  | control => pure control

/-- The block of a try chain and the handlers of what it throws. -/
theorem Ends.rescue {block : List Instr} {B : Evaluation σ Completion}
    {H : Binding → Evaluation σ Completion} (depth : Nat)
    (hblock : Does handler old block B M m Leaves)
    (hhandle : ∀ ex M1 m1, Tracks M1 m1 → Keeps old m.vars m1.vars →
      Ends (fun limit rounds => handle exitScope (c.map (nested (collecting handler limit) rounds)) name
        depth ex) old (H ex) M1 m1) :
    Ends (attempt handler c block name depth) old (Evaluator.rescue B H) M m := by
  intro r M' hr
  obtain ⟨r1, M1, hB, hH⟩ := Exec.bind_eq_ok.1 hr
  obtain ⟨m1, hc1, ht1, hk1⟩ := does_iff_ends.1 hblock _ _ hB
  rcases r1 with ex | k
  · obtain ⟨m2, hc2, ht2, hk2⟩ := hhandle ex M1 m1 ht1 hk1 r M' hH
    exact ⟨m2, hc1.bind hc2, ht2, hk1.trans hk2⟩
  · cases hH
    refine ⟨m1, hc1.bind (.of_eq fun _ _ => ?_), ht1, hk1⟩
    cases k <;> rfl

/-- What is pending waits for the finally block. -/
theorem Ends.lastly {a : Nat → Nat → Exec σ Control} {last : List Instr} (h : Ends a old A M m)
    (hlast : ∀ M1 m1, Tracks M1 m1 → Does handler old last F M1 m1 Leaves) :
    Ends (fun limit rounds => a limit rounds >>= fun pending =>
      andThen (runNested handler last limit rounds) (pure pending)) old (Evaluator.lastly A F) M m := by
  intro r M' hr
  obtain ⟨r1, M1, hA, hF⟩ := Exec.bind_eq_ok.1 hr
  obtain ⟨m1, hc1, ht1, hk1⟩ := h _ _ hA
  obtain ⟨r2, M2, hF2, hend⟩ := Exec.bind_eq_ok.1 hF
  obtain ⟨m2, hc2, ht2, hk2⟩ := does_iff_ends.1 (hlast M1 m1 ht1) _ _ hF2
  rcases r2 with ex | (_ | v)
  · cases hend
    exact ⟨m2, hc1.bind (Arrives.andThen_left hc2 (by simp [departure])), ht2, hk1.trans hk2⟩
  · cases hend
    exact ⟨m2, hc1.bind (Arrives.andThen hc2 (.of_eq fun _ _ => rfl)), ht2, hk1.trans hk2⟩
  · cases hend
    exact ⟨m2, hc1.bind (Arrives.andThen_left hc2 (Completion.control_ret_ne v)), ht2, hk1.trans hk2⟩

/-- A try chain in steps: the block with its handlers, and the finally block. -/
theorem runTry_eq (leave : String → Exec σ Unit) (c : Chain (Exec σ Control))
    (b : TryBlock (Exec σ Control)) (m : Machine σ) :
    runTry leave c b m = ((do
      match ← runAll b.evaluation with
      | .throw ex => handle leave c b.exception m.scopes.length ex
      | control => pure control) >>= settle c) m := by
  unfold runTry
  show (runAll b.evaluation >>= fun control => _) m = _
  rw [bind_assoc]
  show EStateM.bind _ _ m = EStateM.bind _ _ m
  congr 1
  funext control
  cases control <;> rfl

/-- A try chain runs its block with the handlers, and then settles what is pending. -/
theorem Does.tried (hkind : c.kind = .tryCatchFinally) (hblock : c.tryBlock = some b)
    (h : Ends (fun limit rounds =>
      attempt handler c b.evaluation b.exception m.scopes.length limit rounds >>= settle (c.map (nested (collecting handler limit) rounds))) old A M (ticked m)) :
    Does handler old [chained location c] A M m Leaves := by
  rw [does_iff_ends]
  intro r M' hr
  obtain ⟨m', ⟨n, hn⟩, ht, hk⟩ := h r M' hr
  refine ⟨m', Completes.chained (fun _ _ => rfl) (departure_ne_jump r)
    ⟨n, fun limit rounds hl hr => ?_⟩, ht, hk⟩
  show runChain exitScope rounds (chained location c) (c.map (nested (collecting handler limit) rounds))
    (ticked m) = _
  rw [runChain_try (c := c.map (nested (collecting handler limit) rounds)) hkind
    (b := b.map (nested (collecting handler limit) rounds)) (by simp only [Chain.map, hblock]; rfl),
    runTry_eq]
  exact hn limit rounds hl hr

/-- A try chain without a finally block. -/
theorem Does.tryChain (hkind : c.kind = .tryCatchFinally) (hblock : c.tryBlock = some b)
    (hlast : c.finallyBlock = none)
    (h : Ends (attempt handler c b.evaluation b.exception m.scopes.length) old A M (ticked m)) :
    Does handler old [chained location c] A M m Leaves := by
  have hend : ∀ f : Instr → Exec σ Control, settle (c.map f) = Pure.pure := by
    intro f
    funext pending
    simp only [settle, Chain.map, hlast, Option.map_none]
  apply Does.tried hkind hblock
  simp only [hend, bind_pure]
  exact h

/-- A try chain with a finally block. -/
theorem Does.tryFinally {last : FinallyBlock Instr} (hkind : c.kind = .tryCatchFinally)
    (hblock : c.tryBlock = some b) (hlast : c.finallyBlock = some last)
    (h : Ends (attempt handler c b.evaluation b.exception m.scopes.length) old A M (ticked m))
    (hF : ∀ M1 m1, Tracks M1 m1 → Does handler old last.evaluation F M1 m1 Leaves) :
    Does handler old [chained location c] (Evaluator.lastly A F) M m Leaves := by
  have hend : ∀ f : Instr → Exec σ Control, settle (c.map f) = fun pending =>
      andThen (runAll (last.evaluation.map f)) (Pure.pure pending) := by
    intro f
    funext pending
    simp only [settle, Chain.map, hlast, Option.map_some, FinallyBlock.map]
  apply Does.tried hkind hblock
  simp only [hend]
  exact h.lastly hF

end

end ScopedIR
