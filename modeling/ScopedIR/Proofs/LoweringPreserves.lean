import ScopedIR.Proofs.GuardedRuns
import ScopedIR.Proofs.RealizedStmt

/-!
# Lowering preserves what functions do

A function that is evaluated to an end has an operation that is run to the same end without counting
references: it returns or throws the same value, and its handler is asked the same calls with the same
receivers and arguments, so that it is in the same state then. Steps and rounds must be enough, and
what is enough does not depend on how many there are.

Main statement: `run_eq_of_evaluation`.
-/

namespace ScopedIR

open Exec Instr Layout Lowering Gen

variable {σ : Type}

/-! ### Instructions of a block -/

variable {c : Control} {cfg : Config σ} {m m1 M : Machine σ} {rounds : Nat} {l : List Instr}
  {args : List Value} {calls : σ} {op : Operation} {entry : String}

/-- What an instruction does in a nested list it also does in a block. -/
theorem Instr.exec_of_nested {i : Instr} (h : nested cfg rounds i m = .ok c m1) :
    exec cfg rounds i m = .ok c m1 := by
  rw [nested_eq] at h
  obtain ⟨c', m', hexec, hstay⟩ := Exec.bind_eq_ok.1 h
  cases c' with
  | jump label => cases hstay
  | next | ret v | throw e =>
    cases hstay
    exact hexec

theorem runAll_exec_of_nested (h : runAll (l.map (nested cfg rounds)) m = .ok c m1) :
    runAll (l.map (exec cfg rounds)) m = .ok c m1 := by
  induction l generalizing m with
  | nil => exact h
  | cons i rest ih =>
    obtain ⟨c', m', hi, hrest⟩ := Exec.bind_eq_ok.1
      (show Exec.andThen (nested cfg rounds i) (runAll (rest.map (nested cfg rounds))) m = _ from h)
    show Exec.andThen (exec cfg rounds i) (runAll (rest.map (exec cfg rounds))) m = _
    unfold Exec.andThen
    rw [Exec.bind_ok (exec_of_nested hi)]
    cases c' with
    | next => exact ih hrest
    | jump label | ret v | throw e => exact hrest

/-! ### The code of an operation -/

namespace Lowering

variable {E : Evaluator σ} {setting : Setting} {s : State} {V : Visible}

variable {params : List TypedName} {A : Evaluation σ Completion}

/-- Parameters are visible with their types. -/
theorem declareParams_typed (hs : Typed V s) :
    (params.forM fun p => Gen.declare p.name p.type true).Ensures setting s
      fun _ s' l => l = [] ∧ Typed (params.foldl (fun V p => V.insert p.name p.type) V) s' := by
  induction params generalizing s V with
  | nil => exact ensures_pure.2 ⟨rfl, hs⟩
  | cons p rest ih =>
    show (Gen.declare p.name p.type true >>= fun _ =>
      rest.forM fun p => Gen.declare p.name p.type true).Ensures setting s _
    rw [ensures_bind, ensures_declare]
    intro s1 hs1
    exact ih (hs.declare hs1)

/-- How a body is left, where its end counts as a return. -/
def LeavesBody (k : Completion) (c : Control) : Prop := c = k.control ∨ k = .next ∧ c = .ret none

/-- A return behind the code of a body. -/
theorem returning_does {handler : CallHandler σ} {old : Nat} {l : List Instr} {k : String}
    {M m : Machine σ} (h : Does handler old l A M m Leaves) :
    Does handler old (l ++ ([simple none .scopeExit [k] none] ++ [simple none .ret [] none])) A M m
      fun k c _ => LeavesBody k c := by
  intro r M' hr
  obtain ⟨c, m', hc, ht, hk, hpost⟩ := h r M' hr
  cases r with
  | error e =>
    subst hpost
    exact ⟨_, m', hc.append_left (by simp), ht, hk, rfl⟩
  | ok b =>
    have hleft : c = b.control := hpost
    subst hleft
    cases b with
    | ret v => exact ⟨_, m', hc.append_left (Completion.control_ret_ne v), ht, hk, .inl rfl⟩
    | next =>
      obtain ⟨m2, hm2, heq⟩ := Completes.idle handler m' (l := [simple none .scopeExit [k] none]) (by
        intro i hi
        rw [List.mem_singleton.1 hi]
        exact isIdle_scopeExit none k)
      rw [heq] at hm2
      exact ⟨.ret none, _, hc.append (hm2.append Completes.retNone), { ht with }, hk,
        .inr ⟨rfl, rfl⟩⟩

/-- The code of an operation does what the body of its function does. -/
theorem genOuter_realizes {block : BlockCode}
    (hb : BlockRealizes E setting (Evaluator.paramTypes params) block A) :
    (genOuter params block).Ensures setting {} fun _ _ l => ∃ old, ∀ M m, Tracks M m →
      Does E.handler old l A M m fun k c _ => LeavesBody k c := by
  unfold genOuter
  refine ensures_bind.2 (ensures_label.2 (.scopeId (.emit scopeEnter_eq_ok (.enterScope ?_))))
  have hempty : Typed .empty ((({} : State).label "_entry").2.scopeId.2.enterScope
      (({} : State).label "_entry").2.scopeId.1) := fun _ => rfl
  refine (declareParams_typed hempty).bind ?_
  rintro _ s1 l1 ⟨hl1, hs1⟩
  subst hl1
  refine (hb s1 hs1).bind ?_
  rintro departs s2 l ⟨_, _, hdoes⟩
  refine .exitScope fun s3 _ => ?_
  cases departs with
  | true =>
    refine .pure ⟨s1.temps, fun M m ht => ?_⟩
    show Does E.handler s1.temps ([_] ++ (l ++ [])) A M m _
    exact (hdoes.enclose (isIdle_scopeEnter _) (by simp) M m ht trivial).mono
      fun _ _ _ h => .inl h
  | false =>
    refine .emit scopeExit_eq_ok (.emit ret_eq_ok (.pure ⟨s1.temps, fun M m ht => ?_⟩))
    show Does E.handler s1.temps ([_] ++ (l ++ ([_] ++ [_]))) A M m _
    apply Does.prepend_idle
    · intro j hj
      rw [List.mem_singleton.1 hj]
      exact isIdle_scopeEnter _
    · exact fun n => returning_does (hdoes M { m with steps := n } { ht with } trivial)

/-- The only block of the operation of a function does what the body of the function does. -/
theorem lowerFunction_realizes (hE : E.Agrees setting) {name : String} {f : FunctionDef}
    {op : Operation} (hscoped : f.WellScoped)
    (h : lowerFunction setting name f = .ok op) :
    op.params = f.params ∧ ∃ entry l, op.body = singleBlock entry l ∧ ∃ old, ∀ M m, Tracks M m →
      Does E.handler old l (E.block (Evaluator.paramTypes f.params) f.body) M m
        fun k c _ => LeavesBody k c :=
  operationLaid_of_operationOf (P := fun op => op.params = f.params ∧ ∃ entry l,
      op.body = singleBlock entry l ∧ ∃ old, ∀ M m, Tracks M m →
        Does E.handler old l (E.block (Evaluator.paramTypes f.params) f.body) M m
          fun k c _ => LeavesBody k c)
    (genOperation_ensures (genOuter_realizes
      (Stmt.lowerBlock_realizes hE f.body hscoped.body))) h

end Lowering

/-! ### Runs -/

/-- A run starts with the same bindings on both sides. -/
theorem tracks_start (hp : ∀ x ∈ paramNames op.params, ¬ IsTemp x ∧ '.' ∉ x.toList) :
    Tracks (Machine.start op args calls) (Machine.start op args calls) := by
  apply Machine.start_induction (P := fun m => Tracks m m)
  · exact ⟨rfl, rfl, fun _ _ h => h, fun _ _ h => (by cases h), fun _ _ h => (by cases h), rfl, rfl⟩
  · intro m p hmem v hm
    have hassign := hm.assign (b := .object m.heap.next) (hp p.name (List.mem_map_of_mem hmem))
    exact hassign.withHeap (m.heap.allocExternal v)

/-- The end of the only block is a return. -/
def departed : Control → Control
  | .next => .ret none
  | c => c

theorem Lowering.LeavesBody.departed_eq {k : Completion} (h : LeavesBody k c) :
    departed c = departed (departure (.ok k)) ∧ ∀ label, c ≠ .jump label := by
  rcases h with rfl | ⟨rfl, rfl⟩
  · exact ⟨rfl, departure_ne_jump (.ok k)⟩
  · exact ⟨rfl, by simp⟩

theorem runBlocks_singleBlock {step : Instr → Exec σ Control}
    (h : runAll (l.map step) m = .ok c m1) (hhandlers : m1.handlers = [])
    (hc : ∀ label, c ≠ .jump label) (n : Nat) :
    runBlocks step (singleBlock entry l) (n + 1) 0 m = .ok (departed c) m1 := by
  have hblock : runBlock step (singleBlock entry l) 0 { label := entry, instrs := l } m =
      .ok (.inr (departed c)) m1 := by
    rw [runBlock_eq, Exec.bind_ok h]
    cases c with
    | next => rfl
    | jump label => exact absurd rfl (hc label)
    | ret v => rfl
    | throw e =>
      rw [leaveBlock, Exec.bind_ok (rfl : (get : Exec σ (Machine σ)) m1 = .ok m1 m1), hhandlers]
      rfl
  show (runBlock step (singleBlock entry l) 0 { label := entry, instrs := l } >>= fun r => _) m = _
  rw [Exec.bind_ok hblock]
  rfl

theorem Exec.answer_bind_ok {α β : Type} {a : Exec σ α} {f : α → Exec σ β} {x : α}
    (h : a m = .ok x m1) : answer (a >>= f) m = answer (f x) m1 := by
  unfold Exec.answer
  rw [Exec.bind_ok h]

/-- An operation whose code comes to an end comes to an end, if it has steps enough. -/
theorem run_of_completes {handler : CallHandler σ} {M1 : Machine σ} {result : RunResult}
    (hbody : op.body = singleBlock entry l)
    (h : Completes handler l (Machine.start op args calls) c m1) (ht : Tracks M1 m1)
    (hc : ∀ label, c ≠ .jump label) (hresult : m1.result .gc (departed c) = .ok result) :
    ∃ enough, ∀ maxSteps, enough ≤ maxSteps →
      op.run (collecting handler maxSteps) args calls = (.ok result, m1.calls) := by
  obtain ⟨n, hn⟩ := h
  refine ⟨n, fun maxSteps hle => ?_⟩
  have hrounds : ∃ k, op.enoughRounds maxSteps = k + 1 ∧ n ≤ k + 1 := by
    have hmany : (maxSteps + 1) * (op.body.size + 1) =
        (maxSteps * (op.body.size + 1) + op.body.size) + 1 := Nat.add_one_mul _ _
    refine ⟨_, hmany, ?_⟩
    have hle' : maxSteps ≤ maxSteps * (op.body.size + 1) := Nat.le_mul_of_pos_right _ (by omega)
    omega
  obtain ⟨k, hk, hnk⟩ := hrounds
  have hrun := runAll_exec_of_nested (hn maxSteps (k + 1) hle hnk)
  have hwalk : runBlocks (exec (collecting handler maxSteps) (k + 1)) (singleBlock entry l) (k + 1) 0
      (Machine.start op args calls) = .ok (departed c) m1 :=
    runBlocks_singleBlock hrun ht.handlers hc k
  have hending : ending exitScope (departed c) m1 = .ok () m1 := by
    cases c with
    | throw e => exact ht.unwind 0
    | next | ret v | jump label => rfl
  rw [Operation.run_eq_runBy]
  unfold Operation.runBy
  rw [show (collecting handler maxSteps).maxSteps = maxSteps from rfl, hk, hbody,
    Exec.answer_bind_ok hwalk, Exec.answer_bind_ok hending]
  show Exec.answer (Exec.ofExcept (m1.result .gc (departed c))) m1 = _
  rw [hresult]
  rfl

/-! ### Functions -/

theorem valueOf_of_tracks (ht : Tracks M m) (b : Binding) : m.valueOf b = M.valueOf b := by
  unfold Machine.valueOf
  rw [ht.heap]

/-- The operation has the result that evaluation ends with. -/
theorem result_of_function {E : Evaluator σ} {f : FunctionDef} {M2 : Machine σ}
    {outcome : Evaluator.Outcome} (h : E.function f M = .ok outcome M2) :
    ∃ r, (E.block (Evaluator.paramTypes f.params) f.body).run M = .ok r M2 ∧
      ∀ m, Tracks M2 m → m.result .gc (departed (departure r)) =
        .ok { returned := outcome.returned, thrown := outcome.thrown, leaks := [], steps := m.steps } := by
  obtain ⟨r, M1, hblock, hend⟩ := Exec.bind_eq_ok.1 h
  rcases r with e | (_ | _ | b)
  · obtain ⟨v, M', hv, hpure⟩ := Exec.bind_eq_ok.1
      (show (Exec.ofExcept (M1.valueOf e) >>= fun v => pure (Evaluator.Outcome.mk none v)) M1 =
        .ok outcome M2 from hend)
    obtain ⟨hv, rfl⟩ := Exec.ofExcept_eq_ok hv
    cases hpure
    refine ⟨_, hblock, fun m ht => ?_⟩
    rw [← valueOf_of_tracks ht] at hv
    show (m.valueOf e >>= fun v => _) = _
    rw [hv]
    rfl
  · cases hend
    exact ⟨_, hblock, fun m ht => rfl⟩
  · cases hend
    exact ⟨_, hblock, fun m ht => rfl⟩
  · obtain ⟨v, M', hv, hpure⟩ := Exec.bind_eq_ok.1
      (show (Exec.ofExcept (M1.valueOf b) >>= fun v => pure (Evaluator.Outcome.mk v none)) M1 =
        .ok outcome M2 from hend)
    obtain ⟨hv, rfl⟩ := Exec.ofExcept_eq_ok hv
    cases hpure
    refine ⟨_, hblock, fun m ht => ?_⟩
    rw [← valueOf_of_tracks ht] at hv
    show (m.valueOf b >>= fun v => _) = _
    rw [hv]
    rfl

/-- Whenever the evaluation of a function comes to an end, the operation of the function does. -/
theorem SourceModule.Lowers.run_eq {source : SourceModule} {types : TypeOracle} {debug : Bool}
    {f : FunctionDef} (h : source.Lowers types debug f op) (hscoped : f.WellScoped)
    {handler : CallHandler σ} (hnames : handler.IgnoresNames) {calls' : σ}
    {outcome : Evaluator.Outcome}
    (hrun : Evaluator.run { types, handler, rounds } f args calls = (.ok outcome, calls')) :
    ∃ enough steps, ∀ maxSteps, enough ≤ maxSteps →
      op.run { memory := .gc, maxSteps, handler } args calls =
        (.ok { returned := outcome.returned, thrown := outcome.thrown, leaks := [], steps },
          calls') := by
  obtain ⟨name, hname⟩ := h
  obtain ⟨M2, hfunction, hcalls⟩ := Exec.answer_eq_ok hrun
  obtain ⟨r, hblock, hresult⟩ := result_of_function hfunction
  obtain ⟨hparams, entry, l, hbody, old, hdoes⟩ := lowerFunction_realizes
    (E := { types, handler, rounds }) ⟨rfl, hnames⟩ hscoped hname
  have hstart : Machine.start { name := f.name, params := f.params, returnType := f.returnType }
      args calls = Machine.start op args calls := by
    unfold Machine.start
    rw [hparams]
  rw [hstart] at hblock
  have hp : ∀ x ∈ paramNames op.params, ¬ IsTemp x ∧ '.' ∉ x.toList := hparams ▸ hscoped.params
  obtain ⟨c, m2, hc, ht, -, hpost⟩ := hdoes _ _ (tracks_start hp) r M2 hblock
  have hdeparted : departed c = departed (departure r) ∧ ∀ label, c ≠ .jump label := by
    cases r with
    | error e =>
      subst hpost
      exact ⟨rfl, by simp⟩
    | ok k => exact LeavesBody.departed_eq hpost
  obtain ⟨enough, hrun⟩ := run_of_completes hbody hc ht hdeparted.2
    ((congrArg _ hdeparted.1).trans (hresult m2 ht))
  refine ⟨enough, m2.steps, fun maxSteps hle => ?_⟩
  rw [← hcalls, ← ht.calls]
  exact hrun maxSteps hle

/-- A function that is well scoped does what its evaluation does. Whenever evaluation comes to an end,
with some number of rounds for its loops, the operation of the function comes to an end without
counting references, if it has steps enough. It returns and throws the same value, and it leaves the
handler of calls, which may record what it is asked, in the same state. -/
theorem run_eq_of_evaluation (source : SourceModule) (types : TypeOracle) (debug : Bool) (u : CodeUnit)
    (h : source.lower types debug = .ok u) (f : FunctionDef) (hf : f ∈ source.functions)
    (hscoped : f.WellScoped) :
    ∃ op ∈ u.operations, source.Lowers types debug f op ∧
      ∀ (handler : CallHandler σ), handler.IgnoresNames →
        ∀ (rounds : Nat) (args : List Value) (calls calls' : σ) (outcome : Evaluator.Outcome),
          Evaluator.run { types, handler, rounds } f args calls = (.ok outcome, calls') →
          ∃ enough steps, ∀ maxSteps, enough ≤ maxSteps →
            op.run { memory := .gc, maxSteps, handler } args calls =
              (.ok { returned := outcome.returned, thrown := outcome.thrown, leaks := [], steps },
                calls') := by
  obtain ⟨op, hop, hlowers⟩ := SourceModule.exists_lowers h hf
  refine ⟨op, hop, hlowers, ?_⟩
  intro handler hnames rounds args calls calls' outcome hrun
  exact hlowers.run_eq hscoped hnames hrun

/-- A function that tries a call again and again, until the call throws, and that returns what
describes the exception. -/
def retrying : FunctionDef :=
  { name := "run"
    params := [{ name := "given", type := TypeName.string }]
    returnType := TypeName.string
    body := [
      .declare none "note" TypeName.string (some (.ofVar "given" TypeName.string)),
      .tryCatch none
        [.whileLoop none none (.ofCall none (.function "sample::more" TypeName.boolean) [])
          [.expr none (.ofCall none (.function "sample::risky" TypeName.void)
            [.ofVar "note" TypeName.string])]]
        [⟨TypeName.exception, "caught",
          [.assign none "note" (.ofCall none (.function "sample::describe" TypeName.string)
            [.ofVar "caught" TypeName.exception])]⟩]
        (some [.expr none (.ofCall none (.function "sample::done" TypeName.void) [])]),
      .ret none (some (.ofVar "note" TypeName.string))] }

/-- What a handler is asked. -/
structure Asked where
  type : String
  method : String
  receiver : Receiver
  args : List (Option Value)
deriving DecidableEq

/-- A handler that records what it is asked, latest first, and lets a call throw the second time. -/
def recorder : CallHandler (List Asked) := fun site receiver args log =>
  let outcome : CallOutcome :=
    if site.method = "_true" then .primitive true
    else if site.targetType = "sample::more" then .object (.boolean true)
    else if site.targetType = "sample::risky" ∧ 3 < log.length then .throw (.string "stop")
    else if site.hasResult then .object (.string "described")
    else .void
  (.ok ⟨outcome, receiver⟩, ⟨site.targetType, site.method, receiver, args⟩ :: log)

theorem run_eq_retrying :
    ∃ u, SourceModule.lower { name := "sample", constructs := [.function retrying] }
        (fun _ _ => false) false = .ok u ∧
      ∃ op ∈ u.operations, ∃ enough steps, ∀ maxSteps, enough ≤ maxSteps →
        op.run { memory := .gc, maxSteps, handler := recorder } [.string "given"] [] =
          (.ok { returned := some (.string "described"), thrown := none, leaks := [], steps },
            [⟨"sample::done", "_call", .static, []⟩,
              ⟨"sample::describe", "_call", .static, [some (.string "stop")]⟩,
              ⟨"sample::risky", "_call", .static, [some (.string "given")]⟩,
              ⟨TypeName.boolean, "_true", .object (.boolean true), []⟩,
              ⟨"sample::more", "_call", .static, []⟩,
              ⟨"sample::risky", "_call", .static, [some (.string "given")]⟩,
              ⟨TypeName.boolean, "_true", .object (.boolean true), []⟩,
              ⟨"sample::more", "_call", .static, []⟩]) := by
  have hok : (SourceModule.lower { name := "sample", constructs := [.function retrying] }
      (fun _ _ => false) false).toOption.isSome = true := by
    decide +kernel
  have hscoped : retrying.WellScoped := by
    constructor
    · intro x hx
      rw [List.mem_singleton.1 hx]
      exact ⟨not_isTemp_of_head (by decide), by decide⟩
    · simp [retrying, Stmt.BlockIn, Stmt.ScopedIn, Stmt.CatchesIn, Stmt.CatchIn, Stmt.BlockIn?,
        Stmt.declares, Expr.reads, Expr.readsAll, Expr.readsTarget, Expr.ofCall, Expr.ofVar,
        paramNames, declares_of_head, GuardIn, guardNames]
  obtain ⟨u, hu⟩ := Option.isSome_iff_exists.1 hok
  have hu := toOption_eq_some hu
  obtain ⟨op, hop, -, hrun⟩ := run_eq_of_evaluation _ _ _ u hu retrying
    (List.mem_singleton.2 rfl) hscoped
  exact ⟨u, hu, op, hop, hrun recorder (fun _ _ _ _ _ _ h => h) 5 [.string "given"] [] _
    ⟨some (.string "described"), none⟩ (by decide +kernel)⟩

end ScopedIR
