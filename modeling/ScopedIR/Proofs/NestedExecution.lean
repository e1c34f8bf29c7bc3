import ScopedIR.Proofs.Execution

/-!
# What running chains leads to

The rules for chains and logical blocks, for the instructions of nested lists, and for operations. A
loop has an invariant, and a try chain settles what its block and its handlers leave pending.

Main definition: `Instr.watched`, an instruction in a nested list that knows whether it is inside a
finally block, and that may refuse exceptions there.
-/

namespace ScopedIR

variable {σ α β : Type} {E : Fault → Prop} {m : Machine σ} {cfg : Config σ} {rounds : Nat}
  {post : Control → Machine σ → Prop} {leave : String → Exec σ Unit}

/-! ### Chains and logical blocks -/

/-- Change the items of a chain, those of its finally block by `g`. -/
def Chain.mapWith {ι κ : Type} (f g : ι → κ) (c : Chain ι) : Chain κ :=
  { c.map f with finallyBlock := c.finallyBlock.map (·.map g) }

/-- Change the items of a payload, those of a finally block by `g`. -/
def Payload.mapWith {ι κ : Type} (f g : ι → κ) : Payload ι → Payload κ
  | .plain => .plain
  | .call site => .call site
  | .chain c => .chain (c.mapWith f g)
  | .logical b => .logical (b.map f)

variable {ι κ : Type}

theorem Payload.mapWith_self (f : ι → κ) (p : Payload ι) : p.mapWith f f = p.map f := by
  cases p <;> rfl

theorem Chain.handlerFor_mapWith (f g : ι → κ) (c : Chain ι) (type catchAll : String) :
    (c.mapWith f g).handlerFor type catchAll = (c.handlerFor type catchAll).map (·.map f) := by
  unfold Chain.handlerFor Chain.mapWith Chain.map
  rw [List.find?_map]
  rfl

theorem Chain.mem_lists_of_case {c : Chain ι} {e : Case ι} {l : List ι} (he : e ∈ c.cases)
    (hl : l ∈ e.lists) : l ∈ c.lists := by
  simp only [Chain.lists, List.mem_append, List.mem_flatMap]
  exact .inl (.inl (.inr ⟨e, he, hl⟩))

theorem Case.map_congr {f f' : ι → κ} {e : Case ι} (h : ∀ l ∈ e.lists, l.map f = l.map f') :
    e.map f = e.map f' := by
  simp only [Case.lists, List.forall_mem_cons] at h
  simp only [Case.map, CaseCondition.map, CaseBody.map, h.1, h.2.1, h.2.2.1]

/-- Only what is done to the items of its lists matters to a chain. -/
theorem Chain.mapWith_congr {f f' g g' : ι → κ} (c : Chain ι)
    (hf : ∀ l ∈ c.lists, l.map f = l.map f') (hg : ∀ l ∈ c.lists, l.map g = l.map g') :
    c.mapWith f g = c.mapWith f' g' := by
  have hcases : c.cases.map (·.map f) = c.cases.map (·.map f') :=
    List.map_congr_left fun e he => Case.map_congr fun l hl => hf l (Chain.mem_lists_of_case he hl)
  have hsubject : c.subject.map (·.map f) = c.subject.map (·.map f') :=
    Option.map_congr fun v hv => by
      simp only [ChainVariable.map, hf v.setup (by simp [Chain.lists, hv])]
  have hreturning : c.returning.map (·.map f) = c.returning.map (·.map f') :=
    Option.map_congr fun v hv => by
      simp only [ChainVariable.map, hf v.setup (by simp [Chain.lists, hv])]
  have hfallback : c.fallback.map (·.map f) = c.fallback.map (·.map f') :=
    Option.map_congr fun b hb => by
      simp only [CaseBody.map, hf b.evaluation (by simp [Chain.lists, hb])]
  have htry : c.tryBlock.map (·.map f) = c.tryBlock.map (·.map f') :=
    Option.map_congr fun b hb => by
      simp only [TryBlock.map, hf b.evaluation (by simp [Chain.lists, hb])]
  have hlast : c.finallyBlock.map (·.map g) = c.finallyBlock.map (·.map g') :=
    Option.map_congr fun b hb => by
      simp only [FinallyBlock.map, hg b.evaluation (by simp [Chain.lists, hb])]
  simp only [Chain.mapWith, Chain.map, hcases, hsubject, hreturning, hfallback, htry, hlast]

theorem Payload.mapWith_congr {f f' g g' : ι → κ} (p : Payload ι)
    (hf : ∀ l ∈ p.lists, l.map f = l.map f') (hg : ∀ l ∈ p.lists, l.map g = l.map g') :
    p.mapWith f g = p.mapWith f' g' := by
  cases p with
  | plain | call site => rfl
  | logical b =>
    simp only [Payload.lists, LogicalBlock.lists, List.forall_mem_cons] at hf
    simp only [Payload.mapWith, LogicalBlock.map, hf.1, hf.2.1, hf.2.2.1]
  | chain c => exact congrArg Payload.chain (c.mapWith_congr hf hg)

namespace Exec

variable {i : Instr}

/-- What a result is bound to. -/
def bound (m : Machine σ) (result : Option String) (b : Binding) : Machine σ :=
  match result with
  | some t => { m with vars := m.vars.insert t b }
  | none => m

theorem leads_bindResult {result : Option String} {b : Binding} {post : Unit → Machine σ → Prop} :
    Leads E (bindResult result b) m post ↔ post () (bound m result b) := by
  cases result <;> rfl

variable {a : Exec σ Control} {c : Chain (Exec σ Control)} {J : Machine σ → Prop}
  {b : TryBlock (Exec σ Control)}

theorem leads_choose {k : Exec σ Choice} {post : Choice → Machine σ → Prop} :
    Leads E (choose a k) m post ↔
      Leads E a m fun c m' => Through c (Leads E k m' post) (post (.left c) m') := by
  unfold choose
  rw [leads_bind]
  exact leads_congr fun c m' => by cases c <;> rfl

/-- The first case that holds is run, and none after it. -/
theorem leads_tryCases_cons {c : Case (Exec σ Control)} {rest : List (Case (Exec σ Control))}
    {post : Choice → Machine σ → Prop}
    (h : Leads E (runAll c.condition.evaluation) m fun ctl m1 => Through ctl
      (Leads E (primitive c.condition.primitive) m1 fun holds m2 =>
        if holds then
          Leads E (andThen (runAll c.body.evaluation) (runAll c.updates)) m2 fun ctl m3 =>
            Through ctl (post (.taken c.body.result) m3) (post (.left ctl) m3)
        else Leads E (tryCases rest) m2 post)
      (post (.left ctl) m1)) :
    Leads E (tryCases (c :: rest)) m post := by
  rw [tryCases, leads_choose]
  refine h.mono fun ctl m1 h1 => ?_
  cases ctl with
  | next =>
    refine leads_bind.2 (Leads.mono h1 fun holds m2 h2 => ?_)
    cases holds with
    | true =>
      change Leads E (choose _ _) m2 post
      rw [leads_choose]
      exact h2
    | false => exact h2
  | jump l | ret v | throw e => exact h1

/-- The first case that holds is run, or else the default. -/
theorem leads_select {Q post : Choice → Machine σ → Prop} (h : Leads E (tryCases c.cases) m Q)
    (hother : ∀ choice m', choice ≠ .refused →
      Q choice m' → post choice m')
    (hnone : c.fallback = none → ∀ m', Q .refused m' → post .refused m')
    (hsome : ∀ b, c.fallback = some b → ∀ m', Q .refused m' →
      Leads E (runAll b.evaluation) m' fun ctl m2 =>
        Through ctl (post (.taken b.result) m2) (post (.left ctl) m2)) :
    Leads E (select c) m post := by
  unfold select
  rw [leads_bind]
  refine h.mono fun choice m' hc => ?_
  cases choice with
  | refused =>
    cases hf : c.fallback with
    | none => exact hnone hf m' hc
    | some b =>
      change Leads E (choose _ _) m' post
      rw [leads_choose]
      exact hsome b hf m' hc
  | left ctl | taken r => exact hother _ m' (by simp) hc

/-- A case without updates. -/
theorem leads_andThen_nil (h : Leads E a m post) : Leads E (andThen a (runAll [])) m post := by
  rw [leads_andThen]
  exact h.through (fun _ hc => hc) fun _ _ _ hc => hc

/-- What holds after the choice among the cases, before the chain binds its result. -/
def Ending (E : Fault → Prop) (i : Instr) (returning : Option (ChainVariable (Exec σ Control)))
    (post : Control → Machine σ → Prop) : Choice → Machine σ → Prop
  | .left ctl, m => post ctl m
  | .taken result, m => Leads E (finishChain i returning result) m post
  | .refused, m => Leads E (finishChain i returning none) m post

/-- A chain that is neither a loop nor a try chain sets up its variables and runs one case. -/
theorem leads_runChain (ht : c.kind ≠ .tryCatchFinally) (hl : c.kind.isLoop = false) :
    Leads E (runChain leave rounds i c) m post ↔
      Leads E (runSetup c.subject) m fun ctl m1 => Through ctl
        (Leads E (runSetup c.returning) m1 fun ctl m2 => Through ctl
          (Leads E (select c) m2 (Ending E i c.returning post))
          (post ctl m2))
        (post ctl m1) := by
  unfold runChain
  rw [if_neg ht, hl, leads_andThen]
  refine leads_congr fun ctl m1 => ?_
  cases ctl with
  | next =>
    refine leads_andThen.trans (leads_congr fun ctl m2 => ?_)
    cases ctl with
    | next => exact leads_bind.trans (leads_congr fun choice m3 => by cases choice <;> rfl)
    | _ => rfl
  | _ => rfl

/-- A result is bound to what a name is bound to. -/
theorem leads_bindLookup {x : String} {result : Option String} :
    Leads E (lookup x >>= fun b => bindResult result b >>= fun _ => pure .next) m post ↔
      Gives E (m.lookup x) fun b => post .next (bound m result b) := by
  rw [leads_lookup_bind]
  simp only [leads_bind, leads_bindResult, leads_pure]

theorem leads_finishChain_value {x : String} :
    Leads E (finishChain i none (some x)) m post ↔
      Gives E (m.lookup x) fun b => post .next (bound m i.result b) :=
  leads_bindLookup

theorem leads_finishChain_none :
    Leads E (finishChain i none none) m post ↔ post .next (bound m i.result .null) := by
  change Leads E (bindResult i.result .null >>= fun _ => pure .next) m post ↔ _
  rw [leads_bind, leads_bindResult]
  rfl

theorem leads_finishChain_returning {v : ChainVariable (Exec σ Control)} :
    Leads E (finishChain i (some v) none) m post ↔
      Gives E (m.lookup v.name) fun b => post .next (bound m i.result b) :=
  leads_bindLookup

/-- A logical block runs its right side only when the left side does not decide. -/
theorem leads_runLogical {b : LogicalBlock (Exec σ Control)}
    (h : Leads E (runAll b.leftEvaluation) m fun ctl m1 => Through ctl
      (Leads E (primitive b.condition) m1 fun holds m2 =>
        if decides b.op holds then
          Gives E (m2.lookup b.left) fun v => post .next (bound m2 i.result v)
        else
          Leads E (runAll b.rightEvaluation) m2 fun ctl m3 => Through ctl
            (Leads E (runAll b.computation) m3 fun ctl m4 => Through ctl
              (Gives E (m4.lookup b.result) fun v => post .next (bound m4 i.result v))
              (post ctl m4))
            (post ctl m3))
      (post ctl m1)) :
    Leads E (runLogical i b) m post := by
  unfold runLogical
  rw [leads_andThen]
  refine h.mono fun ctl m1 h1 => ?_
  cases ctl with
  | next =>
    refine leads_bind.2 (Leads.mono h1 fun holds m2 h2 => ?_)
    by_cases hd : decides b.op holds = true
    · rw [if_pos hd] at h2 ⊢
      exact leads_bindLookup.2 h2
    · rw [if_neg hd] at h2 ⊢
      rw [leads_andThen]
      refine h2.mono fun ctl m3 h3 => ?_
      cases ctl with
      | next =>
        change Leads E (andThen _ _) m3 post
        rw [leads_andThen]
        refine Leads.mono h3 fun ctl m4 h4 => ?_
        cases ctl with
        | next => exact leads_bindLookup.2 h4
        | _ => exact h4
      | _ => exact h3
  | _ => exact h1

/-- What holds after the choice among the cases, where `J` is left when none was taken. -/
def Chosen (E : Fault → Prop) (i : Instr) (returning : Option (ChainVariable (Exec σ Control)))
    (post : Control → Machine σ → Prop) (J : Machine σ → Prop) : Choice → Machine σ → Prop
  | .refused, m => J m
  | choice, m => Ending E i returning post choice m

/-- A chain that is neither a loop nor a try chain, where `J` holds before every test and before every
body. -/
theorem leads_branch {P : Machine σ → Prop} (ht : c.kind ≠ .tryCatchFinally)
    (hl : c.kind.isLoop = false)
    (hsubject : Leads E (runSetup c.subject) m fun ctl m1 => Through ctl (P m1) (post ctl m1))
    (hreturning : ∀ m, P m →
      Leads E (runSetup c.returning) m fun ctl m1 => Through ctl (J m1) (post ctl m1))
    (htest : ∀ e ∈ c.cases, ∀ m, J m → Leads E (runAll e.condition.evaluation) m fun ctl m1 =>
      Through ctl (Leads E (primitive e.condition.primitive) m1 fun _ => J) (post ctl m1))
    (hbody : ∀ e ∈ c.cases, ∀ m, J m →
      Leads E (andThen (runAll e.body.evaluation) (runAll e.updates)) m fun ctl m1 =>
        Through ctl (Leads E (finishChain i c.returning e.body.result) m1 post) (post ctl m1))
    (hfallback : ∀ b, c.fallback = some b → ∀ m, J m →
      Leads E (runAll b.evaluation) m fun ctl m1 =>
        Through ctl (Leads E (finishChain i c.returning b.result) m1 post) (post ctl m1))
    (hrefused : c.fallback = none → ∀ m, J m → Leads E (finishChain i c.returning none) m post) :
    Leads E (runChain leave rounds i c) m post := by
  have hcases : ∀ l : List (Case (Exec σ Control)), (∀ e ∈ l, e ∈ c.cases) → ∀ m, J m →
      Leads E (tryCases l) m (Chosen E i c.returning post J) := by
    intro l
    induction l with
    | nil => exact fun _ _ hJ => hJ
    | cons e rest ih =>
      intro hsub m hJ
      refine leads_tryCases_cons ?_
      refine (htest e (hsub e List.mem_cons_self) m hJ).mono fun ctl m1 h1 => ?_
      cases ctl with
      | next =>
        refine Leads.mono h1 fun holds m2 hJ2 => ?_
        cases holds with
        | true => exact hbody e (hsub e List.mem_cons_self) m2 hJ2
        | false => exact ih (fun e he => hsub e (List.mem_cons_of_mem _ he)) m2 hJ2
      | _ => exact h1
  rw [leads_runChain ht hl]
  refine hsubject.mono fun ctl m1 h1 => ?_
  cases ctl with
  | next =>
    refine (hreturning m1 h1).mono fun ctl m2 h2 => ?_
    cases ctl with
    | next =>
      refine leads_select (hcases c.cases (fun _ he => he) m2 h2) ?_ ?_ ?_
      · intro choice m' hne hQ
        cases choice with
        | refused => exact absurd rfl hne
        | _ => exact hQ
      · exact fun hf m' hJ => hrefused hf m' hJ
      · exact fun b hb m' hJ => hfallback b hb m' hJ
    | _ => exact h2
  | _ => exact h1

/-- A loop chain without variables runs its case. -/
theorem runChain_loop {e : Case (Exec σ Control)} (hl : c.kind.isLoop = true)
    (hs : c.subject = none) (hr : c.returning = none) (hc : c.cases = [e]) :
    runChain leave rounds i c = loop rounds (c.kind = .doWhileLoop) e := by
  have ht : c.kind ≠ .tryCatchFinally := by
    intro h
    rw [h] at hl
    cases hl
  unfold runChain
  rw [if_neg ht, hs, hr, if_pos hl, hc]
  rfl

/-- A try chain runs its block. -/
theorem runChain_try (ht : c.kind = .tryCatchFinally) (hb : c.tryBlock = some b) :
    runChain leave rounds i c = runTry leave c b := by
  unfold runChain
  rw [if_pos ht, hb]

/-- A loop keeps `J` before its test and `K` before its body. -/
theorem leads_loop {c : Case (Exec σ Control)} {K : Machine σ → Prop} {bodyFirst : Bool}
    (htest : ∀ m, J m → Leads E (runAll c.condition.evaluation) m fun ctl m1 => Through ctl
      (Leads E (primitive c.condition.primitive) m1 fun holds m2 =>
        if holds then K m2 else post .next m2)
      (post ctl m1))
    (hbody : ∀ m, K m → Leads E (andThen (runAll c.body.evaluation) (runAll c.updates)) m
      fun ctl m1 => Through ctl (J m1) (post ctl m1)) (hm : if bodyFirst then K m else J m) :
    Leads E (loop rounds bodyFirst c) m post := by
  have hloopTest : ∀ m, J m → Leads E (loopTest c) m fun r m' =>
      match r with
      | none => K m'
      | some ctl => post ctl m' := by
    intro m hJ
    unfold loopTest
    rw [leads_bind]
    refine (htest m hJ).mono fun ctl m1 h1 => ?_
    cases ctl with
    | next =>
      refine leads_bind.2 (Leads.mono h1 fun holds m2 h2 => ?_)
      cases holds <;> exact h2
    | _ => exact h1
  have hround : ∀ m, K m → Leads E (loopRound c) m fun r m' =>
      match r with
      | none => K m'
      | some ctl => post ctl m' := by
    intro m hK
    unfold loopRound loopBody
    rw [leads_bind]
    refine (hbody m hK).mono fun ctl m1 h1 => ?_
    cases ctl with
    | next => exact hloopTest m1 h1
    | _ => exact h1
  have hrepeat : ∀ k m, K m → Leads E (repeatUntil (loopRound c) k) m post := by
    intro k
    induction k with
    | zero => exact fun _ _ => trivial
    | succ k ih =>
      intro m hK
      rw [repeatUntil, leads_bind]
      refine (hround m hK).mono fun r m' hr => ?_
      cases r with
      | none => exact ih m' hr
      | some ctl => exact hr
  cases bodyFirst with
  | true => exact hrepeat rounds m hm
  | false =>
    refine leads_bind.2 ((hloopTest m hm).mono fun r m' hr => ?_)
    cases r with
    | none => exact hrepeat rounds m' hr
    | some ctl => exact hr

/-- The end of a handler: an exception it throws itself is unwound to the chain. -/
def leaveHandler (leave : String → Exec σ Unit) (depth : Nat) (outcome : Control) :
    Exec σ Control := do
  match outcome with
  | .throw _ => unwind leave depth
  | _ => pure ()
  return outcome

/-- The handler of an exception is run, and without one the exception goes on. -/
def handleBy (leave : String → Exec σ Unit) (name : String) (depth : Nat) (e : Binding) :
    Option (Case (Exec σ Control)) → Exec σ Control
  | some case => do
    assign name e
    runAll case.body.evaluation >>= leaveHandler leave depth
  | none => return .throw e

/-- An exception is unwound to the chain, and the handler that takes it is run. -/
theorem leads_handle {ι : Type} {c : Chain ι} {f g : ι → Exec σ Control} {name : String} {depth : Nat}
    {e : Binding}
    (h : Leads E (unwind leave depth) m fun _ m1 => Gives E (m1.typeOf e) fun _ =>
      post (.throw e) m1 ∧ ∀ case ∈ c.cases,
        Leads E (runAll (case.body.evaluation.map f)) { m1 with vars := m1.vars.insert name e }
          fun ctl m2 => match ctl with
            | .throw _ => Leads E (unwind leave depth) m2 fun _ m3 => post ctl m3
            | _ => post ctl m2) :
    Leads E (handle leave (c.mapWith f g) name depth e) m post := by
  unfold handle
  rw [leads_bind]
  refine h.mono fun _ m1 h1 => ?_
  rw [leads_bind, leads_get, leads_bind, leads_ofExcept]
  cases ht : m1.typeOf e with
  | error f =>
    rw [ht] at h1
    exact h1
  | ok type =>
    rw [ht] at h1
    change Leads E _ m1 post
    rw [Chain.handlerFor_mapWith]
    cases hc : c.handlerFor type TypeName.exception with
    | none => exact h1.1
    | some case =>
      rw [Option.map_some]
      dsimp only
      rw [leads_bind, leads_assign, leads_bind]
      refine (h1.2 case (List.mem_of_find?_eq_some hc)).mono fun ctl m2 h2 => ?_
      cases ctl with
      | throw e' => exact leads_bind.2 h2
      | _ => exact h2

/-- The end of a try chain: what is pending waits for the finally block. -/
def settle (c : Chain (Exec σ Control)) (pending : Control) : Exec σ Control :=
  match c.finallyBlock with
  | some block => andThen (runAll block.evaluation) (pure pending)
  | none => pure pending

/-- What is pending after the block and the handlers of a try chain waits for the finally block. -/
theorem leads_runTry {R : Control → Machine σ → Prop}
    (hblock : Leads E (runAll b.evaluation) m fun ctl m1 => match ctl with
      | .throw e => Leads E (handle leave c b.exception m.scopes.length e) m1 R
      | _ => R ctl m1) (hnone : c.finallyBlock = none → ∀ ctl m1, R ctl m1 → post ctl m1)
    (hsome : ∀ last, c.finallyBlock = some last → ∀ ctl m1, R ctl m1 →
      Leads E (runAll last.evaluation) m1 fun c' m2 => Through c' (post ctl m2) (post c' m2)) :
    Leads E (runTry leave c b) m post := by
  have hend : ∀ ctl m1, R ctl m1 → Leads E (settle c ctl) m1 post := by
    intro ctl m1 hp
    unfold settle
    cases hf : c.finallyBlock with
    | none => exact hnone hf ctl m1 hp
    | some last =>
      dsimp only
      rw [leads_andThen]
      exact hsome last hf ctl m1 hp
  unfold runTry
  rw [leads_bind, leads_get, leads_bind]
  refine hblock.mono fun ctl m1 h1 => ?_
  cases ctl with
  | throw e => exact leads_bind.2 (Leads.mono h1 hend)
  | next | jump l | ret v => exact hend _ m1 h1

end Exec

/-! ### Instructions of blocks and nested lists -/

namespace Instr

open Exec

/-- An instruction of a block or, where `inner` is set, of a nested list. -/
def stepped (cfg : Config σ) (rounds : Nat) (inner : Bool) (i : Instr) : Exec σ Control :=
  if inner then i.nested cfg rounds else i.exec cfg rounds

/-- Run an instruction. -/
theorem leads_stepped {inner : Bool} {i : Instr} (hlimit : E (.stepLimit cfg.maxSteps))
    (hjump : ∀ opcode, E (.jumpOutOfStructure opcode))
    (h : Leads E (perform exitScope cfg rounds i (i.payload.map (stepped cfg rounds true)))
      (ticked m) post) :
    Leads E (i.stepped cfg rounds inner) m post := by
  have hexec : Leads E (i.exec cfg rounds) m post := by
    rw [exec, leads_bind]
    exact leads_tick hlimit h
  cases inner with
  | false => exact hexec
  | true =>
    change Leads E (i.nested cfg rounds) m post
    rw [nested_eq, leads_bind]
    refine hexec.mono fun c m' hc => ?_
    cases c with
    | jump l => exact hjump _
    | _ => exact hc

/-- The effect of a logical block. -/
theorem perform_logicalBlock {location : Option Location} {t : String} {l : LogicalBlock Instr}
    (p : LogicalBlock (Exec σ Control)) :
    perform leave cfg rounds (logicalBlock location t l) (.logical p) =
      runLogical (logicalBlock location t l) p := by
  unfold perform logicalBlock logicalOpcode
  cases l.op <;> rfl

end Instr

/-! ### Inside finally blocks -/

theorem LogicalBlock.map_map_apply (l : LogicalBlock Instr) (f : Instr → Bool → α) (b : Bool) :
    (l.map f).map (· b) = l.map (f · b) := by
  simp [LogicalBlock.map, Function.comp_def]

/-- The actions of a payload once it is known whether it stands inside a finally block. Its own
finally block is one. -/
def Payload.inside (b : Bool) (p : Payload (Bool → α)) : Payload α := p.mapWith (· b) (· true)

/-- Once it is known whether a payload stands inside a finally block, each of its instructions is. -/
theorem Payload.inside_map (p : Payload Instr) (f : Instr → Bool → α) (b : Bool) :
    (p.map f).inside b = p.mapWith (f · b) (f · true) := by
  cases p with
  | plain | call site => rfl
  | logical l => exact congrArg Payload.logical (l.map_map_apply f b)
  | chain c =>
    obtain ⟨kind, scope, result, subject, returning, cases, fallback, dispatch, tryBlock, last⟩ := c
    have hcase : ((fun e : Case (Bool → α) => e.map (· b)) ∘ fun e : Case Instr => e.map f) =
        fun e => e.map (f · b) := by
      funext e
      simp [Case.map, CaseCondition.map, CaseBody.map, Function.comp_def]
    simp only [Payload.inside, Payload.mapWith, Payload.map, Chain.mapWith, Chain.map, List.map_map,
      Option.map_map, hcase]
    cases subject <;> cases returning <;> cases fallback <;> cases tryBlock <;> cases last <;>
      simp [ChainVariable.map, CaseBody.map, TryBlock.map, FinallyBlock.map, Function.comp_def]

namespace Instr

/-- An instruction in a nested list, given whether it stands inside a finally block. Where the run is
strict, a call inside a finally block must not throw. -/
def watched (cfg : Config σ) (rounds : Nat) (strict : Bool) : Instr → Bool → Exec σ Control :=
  fold fun i payload b => do
    Exec.tick cfg.maxSteps
    let control ← Exec.perform Exec.exitScope cfg rounds i (payload.inside b)
    Exec.permit (strict && b && i.opcode.isCall) control
    Exec.stayInside i control

/-- An instruction of a block or, where `inner` is set, of a nested list, in a run that knows about
finally blocks. -/
def watchedIn (cfg : Config σ) (rounds : Nat) (strict inner b : Bool) (i : Instr) :
    Exec σ Control := do
  Exec.tick cfg.maxSteps
  let control ← Exec.perform Exec.exitScope cfg rounds i
    ((i.payload.map (watched cfg rounds strict)).inside b)
  Exec.permit (strict && b && i.opcode.isCall) control
  if inner then Exec.stayInside i control else return control

theorem watched_eq (cfg : Config σ) (rounds : Nat) (strict : Bool) (i : Instr) (b : Bool) :
    i.watched cfg rounds strict b = i.watchedIn cfg rounds strict true b := by
  rw [watched, fold_eq]
  rfl

/-- The nested lists are run in the same way. -/
theorem watchedIn_eq (cfg : Config σ) (rounds : Nat) (strict inner b : Bool) (i : Instr) :
    i.watchedIn cfg rounds strict inner b = (do
      Exec.tick cfg.maxSteps
      let control ← Exec.perform Exec.exitScope cfg rounds i
        (i.payload.mapWith (watchedIn cfg rounds strict true b)
          (watchedIn cfg rounds strict true true))
      Exec.permit (strict && b && i.opcode.isCall) control
      if inner then Exec.stayInside i control else return control) := by
  unfold watchedIn
  rw [Payload.inside_map]
  simp only [watched_eq]
  rfl

end Instr

/-! ### Operations -/

/-- What holds of the state without arguments, and still when one more is handed in, holds when a run
starts. -/
theorem Machine.start_induction {P : Machine σ → Prop} (op : Operation) (args : List Value) (calls : σ)
    (hinit : P { calls })
    (hstep : ∀ (m : Machine σ), ∀ p ∈ op.params, ∀ v, P m →
      P { m with
          vars := m.vars.insert p.name (.object m.heap.next)
          heap := m.heap.allocExternal v }) :
    P (Machine.start op args calls) := by
  unfold Machine.start
  have hfold : ∀ (l : List (TypedName × Value)) (m : Machine σ), (∀ q ∈ l, q.1 ∈ op.params) → P m →
      P (l.foldl (fun m (q : TypedName × Value) =>
        { m with
          vars := m.vars.insert q.1.name (.object m.heap.next)
          heap := m.heap.allocExternal q.2 }) m) := by
    intro l
    induction l with
    | nil => exact fun _ _ hm => hm
    | cons q rest ih =>
      intro m hl hm
      rw [List.forall_mem_cons] at hl
      exact ih _ hl.2 (hstep m q.1 hl.1 q.2 hm)
  exact hfold _ _ (fun q hq => (List.of_mem_zip hq).1) hinit

/-- A run starts with no scope open and no handler pending. -/
theorem Machine.start_nothingOpen (op : Operation) (args : List Value) (calls : σ) :
    (Machine.start op args calls).scopes = [] ∧ (Machine.start op args calls).handlers = [] :=
  Machine.start_induction (P := fun m => m.scopes = [] ∧ m.handlers = []) op args calls ⟨rfl, rfl⟩
    fun _ _ _ _ h => h

namespace Exec

/-- What an action leads to shows in its answer. -/
theorem Leads.answer {a : Exec σ α} {P : α → Prop}
    (h : Leads E a m fun x _ => P x) :
    (∀ f, (answer a m).1 = .error (.fault f) → E f) ∧ ∀ x, (answer a m).1 = .ok x → P x := by
  unfold Leads at h
  unfold Exec.answer
  cases ha : a m with
  | ok x m' =>
    rw [ha] at h
    refine ⟨fun f hf => (by cases hf), ?_⟩
    rintro _ ⟨⟩
    exact h
  | error halt m' =>
    rw [ha] at h
    refine ⟨?_, fun x hx => (by cases hx)⟩
    rintro f ⟨⟩
    exact h

/-- An exception that nothing caught unwinds every scope still open. -/
def ending (leave : String → Exec σ Unit) : Control → Exec σ Unit
  | .throw _ => unwind leave 0
  | _ => return ()

/-- A run in steps: the blocks, what is left to unwind, and the result. -/
theorem runSteps_eq (leave : String → Exec σ Unit) (step : Instr → Exec σ Control)
    (memory : MemoryModel) (rounds : Nat) (op : Operation) :
    runSteps leave step memory rounds op = runBlocks step op.body rounds 0 >>= fun control =>
      ending leave control >>= fun _ => get >>= fun m => ofExcept (m.result memory control) := by
  unfold runSteps
  congr 1
  funext control
  cases control <;> rfl

end Exec

end ScopedIR
