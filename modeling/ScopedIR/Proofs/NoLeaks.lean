import ScopedIR.Proofs.BalancedChains
import ScopedIR.Proofs.OpenScopes

/-!
# Functions leak nothing

A run starts balanced: the arguments belong to the caller, and nothing else is referred to. The code
of a function keeps the balance, and when it is left no scope is open, so that nothing is held but
what is handed over.

A run is strict when it halts at an exception that a call throws inside a finally block. Only such an
exception can lose a reference: what waits for the finally block is forgotten.

Main statement: `leaks_eq_nil_of_lower`, for functions that are well scoped, count in no loop and
assign no field. The run at the end of this file is not strict, and loses a reference.
-/

namespace ScopedIR

variable {σ : Type}

/-! ### Strict runs -/

namespace Instr

/-- A run that is not strict is a run. -/
theorem watchedIn_of_not_strict (cfg : Config σ) (rounds : Nat) (b : Bool) (i : Instr) :
    i.watchedIn cfg rounds false true b = i.nested cfg rounds := by
  induction i using nested_induction generalizing b with
  | h i ih =>
    have hpayload : i.payload.mapWith (watchedIn cfg rounds false true b)
        (watchedIn cfg rounds false true true) = i.payload.map (nested cfg rounds) := by
      rw [← Payload.mapWith_self]
      exact i.payload.mapWith_congr (fun l hl => List.map_congr_left fun j hj => ih l hl j hj b)
        fun l hl => List.map_congr_left fun j hj => ih l hl j hj true
    rw [watchedIn_eq, hpayload, nested_eq, exec]
    simp

theorem watchedIn_eq_exec (cfg : Config σ) (rounds : Nat) (b : Bool) (i : Instr) :
    i.watchedIn cfg rounds false false b = i.exec cfg rounds := by
  rw [watchedIn_eq, exec, funext (watchedIn_of_not_strict cfg rounds b),
    funext (watchedIn_of_not_strict cfg rounds true), Payload.mapWith_self]
  simp

end Instr

namespace Exec

/-- A run of an operation that may be strict. -/
def runWatched (cfg : Config σ) (rounds : Nat) (strict : Bool) (op : Operation) : Exec σ RunResult :=
  runSteps exitScope (Instr.watchedIn cfg rounds strict false false) cfg.memory rounds op

theorem runWatched_of_not_strict (cfg : Config σ) (rounds : Nat) (op : Operation) :
    runWatched cfg rounds false op = runOperation cfg rounds op := by
  unfold runWatched runOperation
  rw [funext (Instr.watchedIn_eq_exec cfg rounds false)]

end Exec

/-- Run an operation, but halt when a call throws inside a finally block. -/
def Operation.runStrict (cfg : Config σ) (op : Operation) (args : List Value) (calls : σ) :
    Except Halt RunResult × σ :=
  Exec.answer (Exec.runWatched cfg (op.enoughRounds cfg.maxSteps) true op) (Machine.start op args calls)

namespace Layout

open Exec Instr

variable {π : Policy} {cfg : Config σ} {rounds : Nat} {strict d : Bool} {Γ : Context}
  {l : List Instr} {m : Machine σ} {k : String}

/-! ### The start of a run -/

/-- The arguments of a run belong to the caller. -/
structure Handed (names : List String) (m : Machine σ) : Prop where
  scopes : m.scopes = []
  handlers : m.handlers = []
  counts : m.heap.Counts []
  fields : ∀ id, m.heap.fieldRefs id = 0
  bound : ∀ x b, m.vars.get? x = some b → x ∈ names ∧ ∃ id, b = .object id ∧ m.heap.External id

theorem handed_start (op : Operation) (args : List Value) (calls : σ) :
    Handed (paramNames op.params) (Machine.start op args calls) := by
  refine Machine.start_induction op args calls ⟨rfl, rfl, ?_, fun _ => rfl, ?_⟩ ?_
  · exact ⟨fun id o ho => (by cases ho), fun id h => absurd h (Nat.lt_irrefl 0),
      fun id o ho => (by cases ho), fun id o ho => (by cases ho)⟩
  · intro x b hb
    cases hb
  · intro m p hp v h
    have hadd : ∀ id, m.heap.External id → (m.heap.allocExternal v).External id := fun id he =>
      (Heap.keeps_add rfl).external id he
    refine ⟨h.scopes, h.handlers, h.counts.add rfl rfl rfl fun _ _ => rfl, ?_, ?_⟩
    · intro id
      exact (Heap.fieldRefs_add ..).trans (h.fields id)
    · refine FinMap.forall_insert ⟨List.mem_map_of_mem hp, m.heap.next, rfl, _,
        (Heap.get?_add ..).trans (if_pos rfl), rfl⟩ fun x b hb => ?_
      obtain ⟨hmem, id, rfl, he⟩ := h.bound x b hb
      exact ⟨hmem, id, rfl, hadd id he⟩

variable {params : List String}

/-- A run starts balanced. -/
theorem Handed.inv (h : Handed params m) (hp : ∀ x ∈ params, ¬ IsTemp x ∧ '.' ∉ x.toList) :
    Inv π { params := params } m [] := by
  have hr : m.registered = [] := by
    rw [Machine.registered, h.scopes]
    rfl
  exact
    { nodup := by
        rw [hr]
        exact List.nodup_nil
      bound := by
        rw [hr]
        simp
      counts := by
        rw [hr]
        exact h.counts
      plain := fun x b hb => (hp x (h.bound x b hb).1).2
      handlers := h.handlers
      unwritten := fun _ => h.fields
      caller := by
        rw [hr]
        exact fun p hp' => ⟨(hp p hp').1, List.not_mem_nil, fun b hb => (h.bound p b hb).2⟩
      frames := by
        rw [h.scopes]
        exact .nil
      owned := by
        rw [hr]
        simp
      aliases := fun _ t ht => by cases ht
      temps := by simp
      undotted := fun p hp' => (hp p hp').2 }

/-! ### The end of a run -/

/-- What is handed over to the caller. -/
def handedOver : Control → List ObjectId
  | .ret (some b) => b.objects
  | .throw e => e.objects
  | _ => []

/-- What is handed over is live, and nothing else is left when no scope is open. -/
theorem Balanced.gives_result {flat : Prop} {E : Fault → Prop} {c : Control}
    {lost : List ObjectId} {post : RunResult → Prop}
    (h : Balanced flat params m (handedOver c ++ lost)) (hs : m.scopes = [])
    (hpost : ∀ r : RunResult, (flat → lost = [] → r.leaks = []) → post r) :
    Gives E (m.result .arc c) post := by
  have hvalue : ∀ b : Binding, b.objects ⊆ handedOver c → ∃ v, m.valueOf b = .ok v := by
    intro b hb
    cases b with
    | null | primitive _ => exact ⟨_, rfl⟩
    | object id =>
      have ha : m.heap.Alive id := h.counts.alive_of_mem
        (List.mem_append_right _ (List.mem_append_left _ (hb List.mem_cons_self)))
      obtain ⟨o, ho, hf⟩ := ha
      refine ⟨some o.value, ?_⟩
      change (m.heap.value id >>= fun v => pure (some v)) = _
      unfold Heap.value
      rw [Heap.live_eq_ok ho hf]
      rfl
  have hleaks : ∀ returned : Option ObjectId, handedOver c = returned.toList → flat → lost = [] →
      m.heap.leaks returned = [] := by
    intro returned hr hf hlost
    have hc := h.counts
    rw [Machine.registered, hs, hlost, hr, List.append_nil] at hc
    exact hc.leaks_eq_nil (h.unwritten hf)
  cases c with
  | next | jump _ => exact hpost _ (hleaks none rfl)
  | ret v =>
    cases v with
    | none => exact hpost _ (hleaks none rfl)
    | some b =>
      obtain ⟨v, hv⟩ := hvalue b (List.Subset.refl _)
      unfold Machine.result
      simp only [hv]
      cases b <;> exact hpost _ (hleaks _ rfl)
  | throw b =>
    obtain ⟨v, hv⟩ := hvalue b (List.Subset.refl _)
    unfold Machine.result
    simp only [hv]
    cases b <;> exact hpost _ (hleaks _ rfl)

/-! ### Whole runs -/

theorem emits_operationCode (h : Emits π (.outermost params k) d l Γ) :
    ∃ Γ', Emits π { params := params } true (operationCode k d l) Γ' := by
  have hscope : Emits π { params := params } d (scoping k d l) _ :=
    .scope List.not_mem_nil h
  unfold operationCode
  cases d with
  | true =>
    rw [if_pos rfl, List.append_nil]
    exact ⟨_, hscope⟩
  | false =>
    have hret : Emits π _ true (leaving none _ ++ [simple none .ret [] none]) _ :=
      .retNone (hscope.alike.mayReturn.trans rfl)
    rw [hscope.alike.ids] at hret
    exact ⟨_, hscope.append hret⟩

/-- Every run of a laid out operation ends balanced. -/
theorem OperationLaid.leads_balanced {op : Operation} (hop : OperationLaid π op) (rounds : Nat)
    (strict : Bool) (hs : Serves π cfg) (hn : π.named) (hh : π.held)
    (hI : Inv π { params := paramNames op.params } m []) :
    Leads (Allowed π cfg) (runWatched cfg rounds strict op) m fun r _ =>
      strict = true → r.leaks = [] := by
  obtain ⟨entry, k, d, l, Γ, hbody, hcode, hnd, htemp, -⟩ := hop
  obtain ⟨Γ', hemits⟩ := emits_operationCode hcode
  have hsound : Sound π cfg rounds strict false _ true (operationCode k d l) Γ' :=
    hemits.sound hs hn ⟨Nat.le_refl _, Nat.le_refl _⟩ (by simp)
  have hscopes : m.scopes = [] := List.eq_nil_of_length_eq_zero hI.frames.length_eq
  have hregistered : m.registered = [] := by
    rw [Machine.registered, hscopes]
    rfl
  have hbinds : binds (operationCode k d l) = binds l := by
    cases d <;> simp [operationCode, binds_append, binds_scoping, binds_cons]
  have hF : Fresh { params := paramNames op.params } (operationCode k d l) m := by
    refine ⟨by rwa [hbinds], by rwa [hbinds], ?_, fun _ _ => List.not_mem_nil⟩
    rw [hregistered]
    exact fun _ _ => List.not_mem_nil
  rw [runWatched, runSteps_eq, leads_bind, hbody]
  refine leads_runBlocks ((hsound false m [] hI hF).mono fun c m1 h1 => ?_)
  have hend : ∀ (c : Control) (m : Machine σ) (lost : List ObjectId), (strict = true → lost = []) →
      m.scopes = [] → Balanced π.held (paramNames op.params) m (handedOver c ++ lost) →
      Leads (Allowed π cfg) (get >>= fun m => ofExcept (m.result cfg.memory c)) m fun r _ =>
        strict = true → r.leaks = [] := by
    intro c m lost hlost hm hB
    rw [leads_bind, leads_get, leads_ofExcept, hs.arc]
    exact hB.gives_result hm fun r hr hstrict => hr hh (hlost hstrict)
  obtain ⟨lost, hlost, h1⟩ := h1
  cases c with
  | next => cases h1.1
  | jump _ => exact h1.elim
  | throw e =>
    obtain ⟨-, ⟨extra, he⟩, hB⟩ := h1
    rw [List.append_nil] at hB
    rw [hscopes, List.drop_nil] at he
    refine ⟨hB.handlers, ?_⟩
    exact leads_bind.2
      (hB.leads_unwind he fun heap hbal _ => hend (.throw e) _ lost hlost rfl hbal)
  | ret v =>
    obtain ⟨-, hm1, hB⟩ := h1
    rw [List.append_nil] at hB
    refine ⟨hB.handlers, hend (.ret v) m1 lost hlost hm1 ?_⟩
    cases v <;> exact hB

/-- The layout of code that is well scoped and reads objects only while they are held. -/
def Policy.all : Policy := ⟨True, True, False⟩

end Layout

/-- A run of a function that is well scoped, counts in no loop and assigns no field never goes wrong
about references or scopes, whatever its arguments are and however it is left, unless the handler of
calls itself fails so. It leaks nothing, as long as no call throws inside a finally block. -/
theorem leaks_eq_nil_of_lower (source : SourceModule) (types : TypeOracle) (debug : Bool)
    (u : CodeUnit) (h : source.lower types debug = .ok u) (f : FunctionDef)
    (hf : f ∈ source.functions) (hscoped : f.WellScoped)
    (hsimple : Stmt.BlockAll (fun s => s.isForRange = false ∧ s.isFieldAssignment = false) f.body) :
    ∃ op ∈ u.operations, source.Lowers types debug f op ∧
      ∀ (cfg : Config σ), cfg.memory = .arc →
        (∀ site receiver args calls reply calls',
          cfg.handler site receiver args calls = (.ok reply, calls') → site.hasResult = true →
            reply.outcome ≠ .void) →
        ∀ (args : List Value) (calls : σ),
          (∀ fault, (op.run cfg args calls).1 = .error (.fault fault) → fault.isMemory = true →
            cfg.handler.FailsWith fault) ∧
          (op.runStrict cfg args calls = op.run cfg args calls →
            ∀ r, (op.run cfg args calls).1 = .ok r → r.leaks = []) := by
  obtain ⟨op, hop, hlowers⟩ := SourceModule.exists_lowers h hf
  refine ⟨op, hop, hlowers, fun cfg hm hanswers args calls => ?_⟩
  obtain ⟨name, hname⟩ := hlowers
  obtain ⟨hparams, hlaid⟩ := Layout.operationLaid_of_lowerFunction (π := .all) (fun _ => hscoped)
    (fun _ => hsimple) hname
  have hinv : Layout.Inv .all { params := paramNames op.params } (Machine.start op args calls) [] := by
    refine (Layout.handed_start op args calls).inv ?_
    rw [hparams]
    exact hscoped.params
  have hrun := fun strict => hlaid.leads_balanced (op.enoughRounds cfg.maxSteps) strict
    ⟨hm, fun _ => hanswers⟩ trivial trivial hinv
  constructor
  · have hplain := hrun false
    rw [Exec.runWatched_of_not_strict] at hplain
    intro fault hfault
    exact hplain.answer.1 fault hfault trivial
  · intro hstrict r hr
    rw [← hstrict] at hr
    exact (hrun true).answer.2 r hr rfl

/-- A function that has to give back what it holds when a callee throws, before and after it catches
the exception. -/
def catchAndFinish : FunctionDef :=
  { name := "run"
    params := [{ name := "given", type := TypeName.string }]
    returnType := TypeName.string
    body := [
      .tryCatch none
        [.declare none "kept" TypeName.string (some (.ofString "kept")),
          .expr none (.ofCall none (.function "sample::risky" TypeName.void)
            [.ofVar "kept" TypeName.string])]
        [⟨TypeName.exception, "caught",
          [.declare none "note" TypeName.string
            (some (.ofCall none (.function "sample::describe" TypeName.string)
              [.ofVar "caught" TypeName.exception]))]⟩]
        (some [.expr none (.ofCall none (.function "sample::done" TypeName.void) [])]),
      .ret none (some (.ofVar "given" TypeName.string))] }

theorem wellScoped_catchAndFinish : catchAndFinish.WellScoped := by
  refine ⟨?_, ?_⟩
  · intro x hx
    rw [List.mem_singleton.1 hx]
    exact ⟨not_isTemp_of_head (by decide), by decide⟩
  · simp [catchAndFinish, Stmt.BlockIn, Stmt.ScopedIn, Stmt.CatchesIn, Stmt.CatchIn, Stmt.BlockIn?,
      Stmt.declares, Expr.reads, Expr.readsAll, Expr.readsTarget, Expr.ofCall, Expr.ofVar,
      Expr.ofString, paramNames, declares_of_head]

/-- A handler that throws from one callee and answers every other call. -/
def riskyHandler : Config Unit :=
  { maxSteps := 60
    handler := fun site receiver _ s =>
      (.ok ⟨if site.target = "sample::risky" then .throw (.string "stop")
        else if site.hasResult then .object (.string "described") else .void, receiver⟩, s) }

theorem leaks_eq_nil_catchAndFinish :
    ∃ u, SourceModule.lower { name := "sample", constructs := [.function catchAndFinish] }
        (fun _ _ => false) false = .ok u ∧
      ∃ op ∈ u.operations, ∃ r, (op.run riskyHandler [.string "given"] ()).1 = .ok r ∧
        r.leaks = [] := by
  have hok : ((SourceModule.lower { name := "sample", constructs := [.function catchAndFinish] }
      (fun _ _ => false) false).toOption.map fun u => u.operations.all fun op =>
        decide (op.runStrict riskyHandler [.string "given"] () =
          op.run riskyHandler [.string "given"] ()) &&
        (op.run riskyHandler [.string "given"] ()).1.toOption.isSome) = some true := by
    decide +kernel
  obtain ⟨u, hu, hok⟩ := Option.map_eq_some_iff.1 hok
  have hu := toOption_eq_some hu
  obtain ⟨op, hop, -, hrun⟩ := leaks_eq_nil_of_lower _ _ _ u hu catchAndFinish
    (List.mem_singleton.2 rfl) wellScoped_catchAndFinish
    (by simp [catchAndFinish, Stmt.BlockAll, Stmt.All, Stmt.CatchesAll, Stmt.CatchAll,
      Stmt.BlockAll?, Stmt.isForRange, Stmt.isFieldAssignment])
  have hleaks := (hrun riskyHandler rfl ?_ [.string "given"] ()).2
  · have hrun := List.all_eq_true.1 hok op hop
    rw [Bool.and_eq_true, decide_eq_true_eq, Option.isSome_iff_exists] at hrun
    obtain ⟨hstrict, r, hr⟩ := hrun
    have hr := toOption_eq_some hr
    exact ⟨u, hu, op, hop, r, hr, hleaks hstrict r hr⟩
  · rintro site receiver args calls reply calls' ⟨⟩ hresult
    rw [hresult]
    split <;> simp

/-! ### Runs that are not strict -/

/-- What is answered on each operation of a module with this function alone. -/
def FunctionDef.answers {β : Type} (f : FunctionDef) (answer : Operation → β) : Option (List β) :=
  (SourceModule.lower { name := "sample", constructs := [.function f] } (fun _ _ => false)
    false).toOption.map fun u => u.operations.map answer

/-- A call that throws. -/
def risky : Stmt := .expr none (.ofCall none (.function "sample::risky" TypeName.void) [])

/-- A finally block that throws while an exception waits for it. -/
def throwTwice : FunctionDef :=
  { name := "run"
    returnType := TypeName.void
    body := [.tryCatch none [risky] [] (some [risky])] }

/-- Nothing gives back the exception that waited. -/
theorem leaks_superseded :
    (throwTwice.answers fun op => (op.run riskyHandler [] ()).1.toOption.map (·.leaks.map (·.id))) =
      some [some [⟨0⟩]] := by
  decide +kernel

end ScopedIR
