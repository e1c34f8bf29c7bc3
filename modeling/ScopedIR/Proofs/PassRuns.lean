import ScopedIR.Pass.Registry

/-!
# When a pipeline stops

A pipeline stops early after a round in which no pass needed a second iteration. If every pass may
iterate twice, such a round has changed nothing: each pass of it ran on one and the same unit and
reported no change. Passes that keep nothing from one run to the next then report no change again. A
pipeline whose passes may iterate only once stops after its first round in any case, and its unit need
not be stable.

Main definitions:

* `Pass.Stateless`: what a pass does to an operation depends on the operation alone;
* `Pass.ReportsChanges`: a pass reports a change exactly when there is one;
* `Registry.Stateless`: all registered passes are so, each once it is configured.

Main statements:

* `Registry.repeats_runEach`: a list of passes does the same again to the same unit;
* `Registry.stable_of_runRound`: a round without second iteration changes nothing, nor does any of its
  passes;
* `runPipeline_stops_at_fixpoint`: a pipeline that stops early is at a fixpoint;
* `runPipeline_stops_before_fixpoint`: with one iteration for each pass it need not be.
-/

namespace ScopedIR

variable {σ α β : Type}

/-! ### Runs -/

namespace PassRun

variable {w : Workbench σ}

theorem bind_of_ok {x : PassRun σ α} {f : α → PassRun σ β} {w' : Workbench σ} {a : α}
    (h : x w = .ok a w') : (x >>= f) w = f a w' := by
  show EStateM.bind x f w = _
  rw [EStateM.bind, h]

theorem exists_of_bind {x : PassRun σ α} {f : α → PassRun σ β} {w'' : Workbench σ} {b : β}
    (h : (x >>= f) w = .ok b w'') : ∃ a w', x w = .ok a w' ∧ f a w' = .ok b w'' := by
  change EStateM.bind x f w = _ at h
  rw [EStateM.bind] at h
  split at h
  · next a w' hx => exact ⟨a, w', hx, h⟩
  · cases h

/-- Whenever the run succeeds, the store satisfies `holds` afterwards if it did before. -/
def Keeps (holds : σ → Prop) (x : PassRun σ α) : Prop :=
  ∀ w a w', holds w.store → x w = .ok a w' → holds w'.store

/-- Whenever the run succeeds, it does the same again to the same unit, whatever the store is. -/
def Repeats (holds : σ → Prop) (x : PassRun σ α) : Prop :=
  ∀ w a w' v, holds w.store → x w = .ok a w' → v.unit = w.unit → holds v.store →
    ∃ v', x v = .ok a v' ∧ v'.unit = w'.unit

/-- A run that reports no change has not changed the unit. -/
def Honest (holds : σ → Prop) (x : PassRun σ Bool) : Prop :=
  ∀ w w', holds w.store → x w = .ok false w' → w'.unit = w.unit

variable {holds : σ → Prop} {x : PassRun σ α} {f : α → PassRun σ β}

theorem Keeps.pure (a : α) : Keeps holds (Pure.pure a : PassRun σ α) := by
  intro w b w' hw h
  cases h
  exact hw

theorem Keeps.bind (hx : Keeps holds x) (hf : ∀ a, Keeps holds (f a)) : Keeps holds (x >>= f) := by
  intro w b w'' hw h
  obtain ⟨a, w', hrun, hrest⟩ := exists_of_bind h
  exact hf a w' b w'' (hx w a w' hw hrun) hrest

theorem Repeats.pure (a : α) : Repeats holds (Pure.pure a : PassRun σ α) := by
  intro w b w' v _ h hunit _
  cases h
  exact ⟨v, rfl, hunit⟩

theorem Repeats.bind (hk : Keeps holds x) (hx : Repeats holds x) (hx' : ∀ a, Repeats holds (f a)) :
    Repeats holds (x >>= f) := by
  intro w b w'' v hw h hunit hv
  obtain ⟨a, w', hrun, hrest⟩ := exists_of_bind h
  obtain ⟨v', hagain, hunit'⟩ := hx w a w' v hw hrun hunit hv
  obtain ⟨v'', hagain', hunit''⟩ :=
    hx' a w' b w'' v' (hk w a w' hw hrun) hrest hunit' (hk v a v' hv hagain)
  exact ⟨v'', (bind_of_ok hagain).trans hagain', hunit''⟩

end PassRun

open PassRun

/-! ### Stateless passes -/

namespace Pass

/-- On stores that are ready, what the pass does to an operation depends on the operation alone, and
the store stays ready. -/
structure Stateless (p : Pass σ) (ready : σ → Prop) : Prop where
  ready_transform : ∀ op s, ready s → ready (p.transform op s).2.2
  answer_eq : ∀ op s s', ready s → ready s' → (p.transform op s).1 = (p.transform op s').1
  result_eq : ∀ op s s', ready s → ready s' → (p.transform op s).2.1 = (p.transform op s').2.1

/-- On stores that are ready, the pass reports a change exactly when the operation becomes another
one. -/
def ReportsChanges (p : Pass σ) (ready : σ → Prop) : Prop :=
  ∀ op s changed, ready s → (p.transform op s).1 = .ok changed →
    (changed = true ↔ (p.transform op s).2.1 ≠ op)

variable {p : Pass σ} {ready : σ → Prop}

variable {s : σ}

theorem Stateless.onOperations (h : p.Stateless ready) (name : String) (ops : List Operation)
    {s' : σ} (hs : ready s) (hs' : ready s') :
    (p.onOperations name ops s').1 = (p.onOperations name ops s).1 ∧
      (p.onOperations name ops s').2.1 = (p.onOperations name ops s).2.1 ∧
      ready (p.onOperations name ops s).2.2 := by
  induction ops generalizing s s' with
  | nil => exact ⟨rfl, rfl, hs⟩
  | cons op rest ih =>
    have hanswer := h.answer_eq op s s' hs hs'
    have hresult := h.result_eq op s s' hs hs'
    have hready := h.ready_transform op s hs
    have hready' := h.ready_transform op s' hs'
    rw [Pass.onOperations, Pass.onOperations]
    generalize p.transform op s = r at hanswer hresult hready
    generalize p.transform op s' = r' at hanswer hresult hready'
    obtain ⟨answer, result, t⟩ := r
    obtain ⟨answer', result', t'⟩ := r'
    change answer = answer' at hanswer
    change result = result' at hresult
    subst hanswer hresult
    cases answer with
    | error reason => exact ⟨rfl, rfl, hready⟩
    | ok changed =>
      obtain ⟨houtcome, hrest, hstore⟩ := ih hready hready'
      exact ⟨congrArg (Except.map _) houtcome, congrArg (result :: ·) hrest, hstore⟩

theorem Stateless.onConstructs (h : p.Stateless ready) (name : String) (cs : List Construct)
    {s' : σ} (hs : ready s) (hs' : ready s') :
    (p.onConstructs name cs s').1 = (p.onConstructs name cs s).1 ∧
      (p.onConstructs name cs s').2.1 = (p.onConstructs name cs s).2.1 ∧
      ready (p.onConstructs name cs s).2.2 := by
  induction cs generalizing s s' with
  | nil => exact ⟨rfl, rfl, hs⟩
  | cons c rest ih =>
    obtain ⟨houtcome, hops, hready⟩ := h.onOperations name c.operations hs hs'
    have hready' := (h.onOperations name c.operations hs' hs).2.2
    rw [Pass.onConstructs, Pass.onConstructs]
    generalize p.onOperations name c.operations s = r at houtcome hops hready
    generalize p.onOperations name c.operations s' = r' at houtcome hops hready'
    obtain ⟨outcome, ops, t⟩ := r
    obtain ⟨outcome', ops', t'⟩ := r'
    change outcome' = outcome at houtcome
    change ops' = ops at hops
    subst houtcome hops
    cases outcome' with
    | error e => exact ⟨rfl, rfl, hready⟩
    | ok changed =>
      obtain ⟨houtcome, hrest, hstore⟩ := ih hready hready'
      exact ⟨congrArg (Except.map _) houtcome, congrArg ({ c with operations := ops' } :: ·) hrest,
        hstore⟩

/-- The report of a list is the disjunction of the reports of its parts. -/
theorem map_or_eq_ok_false {ε : Type} {changed : Bool} {outcome : Except ε Bool}
    (h : outcome.map (changed || ·) = .ok false) : changed = false ∧ outcome = .ok false := by
  cases outcome with
  | error e => cases h
  | ok rest => cases changed <;> cases rest <;> simp_all [Except.map]

theorem ReportsChanges.onOperations (hr : p.ReportsChanges ready) (h : p.Stateless ready)
    (name : String) (ops : List Operation) (hs : ready s)
    (hquiet : (p.onOperations name ops s).1 = .ok false) :
    (p.onOperations name ops s).2.1 = ops := by
  induction ops generalizing s with
  | nil => rfl
  | cons op rest ih =>
    have hreport := hr op s
    have hready := h.ready_transform op s hs
    rw [Pass.onOperations] at hquiet ⊢
    generalize p.transform op s = r at hreport hready hquiet
    obtain ⟨answer, op', t⟩ := r
    cases answer with
    | error reason => cases hquiet
    | ok changed =>
      obtain ⟨rfl, hrest⟩ := map_or_eq_ok_false hquiet
      have hop : op' = op := by
        by_cases hop : op' = op
        · exact hop
        · exact absurd ((hreport false hs rfl).2 hop) (by decide)
      show op' :: (p.onOperations name rest t).2.1 = op :: rest
      rw [hop, ih hready hrest]

theorem ReportsChanges.onConstructs (hr : p.ReportsChanges ready) (h : p.Stateless ready)
    (name : String) (cs : List Construct) (hs : ready s)
    (hquiet : (p.onConstructs name cs s).1 = .ok false) : (p.onConstructs name cs s).2.1 = cs := by
  induction cs generalizing s with
  | nil => rfl
  | cons c rest ih =>
    have hops := hr.onOperations h name c.operations hs
    have hready := (h.onOperations name c.operations hs hs).2.2
    rw [Pass.onConstructs] at hquiet ⊢
    generalize p.onOperations name c.operations s = r at hops hready hquiet
    obtain ⟨outcome, ops, t⟩ := r
    cases outcome with
    | error e => cases hquiet
    | ok changed =>
      obtain ⟨rfl, hrest⟩ := map_or_eq_ok_false hquiet
      have hc : { c with operations := ops } = c := by
        rw [show ops = c.operations from hops rfl]
      show { c with operations := ops } :: (p.onConstructs name rest t).2.1 = c :: rest
      rw [hc, ih hready hrest]

end Pass

namespace Registry

/-- The registered passes keep nothing from one run to the next and report their changes: once it is
configured a pass finds the store ready, whatever was done to it before. -/
structure Stateless (r : Registry σ) (holds : σ → Prop) (ready : String → σ → Prop) : Prop where
  configured : ∀ name reg, r.passes.get? name = some reg → ∀ s, holds s →
    ready name (reg.pass.configure r.params s)
  holds_of_ready : ∀ name s, ready name s → holds s
  stateless : ∀ name reg, r.passes.get? name = some reg → reg.pass.Stateless (ready name)
  reportsChanges : ∀ name reg, r.passes.get? name = some reg →
    reg.pass.ReportsChanges (ready name)

variable {r : Registry σ} {holds : σ → Prop} {ready : String → σ → Prop}

variable {name : String} {w w' : Workbench σ} {k n : Nat} {names pipeline : List String}

/-- What a run of one pass does. -/
theorem runOnce_eq {reg : Registration σ} (hreg : r.passes.get? name = some reg) (w : Workbench σ) :
    r.runOnce name w =
      reg.pass.onUnit name { w with store := reg.pass.configure r.params w.store } := by
  rw [runOnce, find, hreg]
  rfl

theorem exists_of_runOnce {b : Bool} (h : r.runOnce name w = .ok b w') :
    ∃ reg, r.passes.get? name = some reg := by
  obtain ⟨reg, v, hfind, -⟩ := exists_of_bind h
  rw [find] at hfind
  cases hget : r.passes.get? name with
  | some reg => exact ⟨reg, rfl⟩
  | none => rw [hget] at hfind; cases hfind

/-- What a successful run of one pass gives. -/
theorem onUnit_eq_ok_iff {p : Pass σ} {b : Bool} :
    p.onUnit name w = .ok b w' ↔
      p.onConstructs name w.unit.constructs w.store = (.ok b, w'.unit.constructs, w'.store) ∧
      w'.unit.name = w.unit.name := by
  rw [Pass.onUnit]
  generalize p.onConstructs name w.unit.constructs w.store = r
  obtain ⟨outcome, constructs, store⟩ := r
  obtain ⟨⟨name', constructs'⟩, store'⟩ := w'
  cases outcome with
  | error e => simp
  | ok changed =>
    simp only [EStateM.Result.ok.injEq, Workbench.mk.injEq, CodeUnit.mk.injEq, Prod.mk.injEq,
      Except.ok.injEq]
    constructor
    · rintro ⟨hb, ⟨hname, hconstructs⟩, hstore⟩
      exact ⟨⟨hb, hconstructs, hstore⟩, hname.symm⟩
    · rintro ⟨⟨hb, hconstructs, hstore⟩, hname⟩
      exact ⟨hb, ⟨hname.symm, hconstructs⟩, hstore⟩

variable (hs : r.Stateless holds ready)

include hs

theorem keeps_runOnce (name : String) : Keeps holds (r.runOnce name) := by
  intro w b w' hw h
  obtain ⟨reg, hreg⟩ := exists_of_runOnce h
  rw [runOnce_eq hreg, onUnit_eq_ok_iff] at h
  have hready := hs.configured name reg hreg w.store hw
  have hstore := ((hs.stateless name reg hreg).onConstructs name w.unit.constructs hready hready).2.2
  rw [h.1] at hstore
  exact hs.holds_of_ready name w'.store hstore

/-- A pass does the same again to the same unit. -/
theorem repeats_runOnce (name : String) : Repeats holds (r.runOnce name) := by
  intro w b w' v hw h hunit hv
  obtain ⟨reg, hreg⟩ := exists_of_runOnce h
  rw [runOnce_eq hreg, onUnit_eq_ok_iff] at h
  obtain ⟨houtcome, hconstructs, -⟩ := (hs.stateless name reg hreg).onConstructs name
    w.unit.constructs (hs.configured name reg hreg w.store hw) (hs.configured name reg hreg v.store hv)
  rw [h.1] at houtcome hconstructs
  refine ⟨{ unit := w'.unit, store := (reg.pass.onConstructs name w.unit.constructs
    (reg.pass.configure r.params v.store)).2.2 }, ?_, rfl⟩
  rw [runOnce_eq hreg, onUnit_eq_ok_iff, hunit]
  exact ⟨Prod.ext houtcome (Prod.ext hconstructs rfl), h.2⟩

/-- A pass that reports no change has not changed the unit. -/
theorem honest_runOnce (name : String) : Honest holds (r.runOnce name) := by
  intro w w' hw h
  obtain ⟨reg, hreg⟩ := exists_of_runOnce h
  rw [runOnce_eq hreg, onUnit_eq_ok_iff] at h
  have hconstructs := (hs.reportsChanges name reg hreg).onConstructs (hs.stateless name reg hreg) name
    w.unit.constructs (hs.configured name reg hreg w.store hw)
  rw [h.1] at hconstructs
  have hname : w'.unit.name = w.unit.name := h.2
  have hsame : w'.unit.constructs = w.unit.constructs := hconstructs rfl
  show CodeUnit.mk w'.unit.name w'.unit.constructs = CodeUnit.mk w.unit.name w.unit.constructs
  rw [hname, hsame]

/-! ### Lists of passes and their iterations -/

theorem keeps_runEach (names : List String) : Keeps holds (r.runEach names) := by
  induction names with
  | nil => exact .pure false
  | cons name rest ih =>
    exact (keeps_runOnce hs name).bind fun changed => ih.bind fun changed' => .pure (changed' || changed)

/-- A list of passes does the same again to the same unit. -/
theorem repeats_runEach (names : List String) : Repeats holds (r.runEach names) := by
  induction names with
  | nil => exact .pure false
  | cons name rest ih =>
    exact .bind (keeps_runOnce hs name) (repeats_runOnce hs name) fun changed =>
      .bind (keeps_runEach hs rest) ih fun changed' => .pure (changed' || changed)

/-- A list of passes that reports no change has not changed the unit. -/
theorem honest_runEach (names : List String) : Honest holds (r.runEach names) := by
  induction names with
  | nil =>
    intro w w' _ h
    cases h
    rfl
  | cons name rest ih =>
    intro w w'' hw h
    obtain ⟨changed, w', hfirst, h⟩ := exists_of_bind h
    obtain ⟨changed', v, hrest, h⟩ := exists_of_bind h
    obtain ⟨hreport, rfl⟩ : (changed' || changed) = false ∧ v = w'' := by
      simpa using EStateM.Result.ok.inj h
    obtain ⟨rfl, rfl⟩ := Bool.or_eq_false_iff.1 hreport
    rw [ih w' v (keeps_runOnce hs name w false w' hw hfirst) hrest,
      honest_runOnce hs name w w' hw hfirst]

theorem keeps_iterate (names : List String) (n : Nat) : Keeps holds (r.iterate names n) := by
  induction n with
  | zero => exact .pure 0
  | succ n ih =>
    refine (keeps_runEach hs names).bind fun changed => ?_
    cases changed with
    | true => exact ih.bind fun k => .pure (k + 1)
    | false => exact .pure 1

omit hs in
theorem pos_of_iterate (h : r.iterate names (n + 1) w = .ok k w') : 0 < k := by
  obtain ⟨changed, v, -, h⟩ := exists_of_bind h
  cases changed with
  | false => cases h; decide
  | true =>
    obtain ⟨k', v', -, h⟩ := exists_of_bind h
    cases h
    exact Nat.succ_pos k'

omit hs in
/-- Where two iterations are allowed, one is enough only if it reports no change. -/
theorem runEach_of_iterate (h : r.iterate names (n + 2) w = .ok k w') (hk : ¬ 1 < k) :
    r.runEach names w = .ok false w' := by
  obtain ⟨changed, v, hrun, h⟩ := exists_of_bind h
  cases changed with
  | false => cases h; exact hrun
  | true =>
    obtain ⟨k', v', hmore, h⟩ := exists_of_bind h
    cases h
    have := pos_of_iterate hmore
    omega

/-! ### Rounds -/

omit hs in
theorem exists_of_runTransform (h : r.runTransform name n w = .ok k w') :
    ∃ reg, r.passes.get? name = some reg ∧ r.iterate (reg.requires ++ [name]) n w = .ok k w' := by
  obtain ⟨reg, v, hfind, h⟩ := exists_of_bind h
  rw [find] at hfind
  cases hget : r.passes.get? name with
  | some reg' => rw [hget] at hfind; cases hfind; exact ⟨reg, rfl, h⟩
  | none => rw [hget] at hfind; cases hfind

theorem keeps_runTransform (name : String) (n : Nat) : Keeps holds (r.runTransform name n) := by
  intro w k w' hw h
  obtain ⟨reg, -, h⟩ := exists_of_runTransform h
  exact keeps_iterate hs _ n w k w' hw h

theorem keeps_runRound (n : Nat) (pipeline : List String) :
    Keeps holds (r.runRound n pipeline) := by
  induction pipeline with
  | nil => exact .pure false
  | cons name rest ih =>
    exact (keeps_runTransform hs name n).bind fun k => ih.bind fun again => .pure (again || 1 < k)

/-- The pass `name` changes nothing in the unit, after the passes it requires and together with
them. -/
def Stable (r : Registry σ) (holds : σ → Prop) (u : CodeUnit) (name : String) : Prop :=
  ∃ reg, r.passes.get? name = some reg ∧ ∀ w : Workbench σ, w.unit = u → holds w.store →
    ∃ w', r.runEach (reg.requires ++ [name]) w = .ok false w' ∧ w'.unit = u

/-- A round without second iteration changes nothing, and all its passes are stable. -/
theorem stable_of_runRound (hw : holds w.store) (h : r.runRound (n + 2) pipeline w = .ok false w') :
    w'.unit = w.unit ∧ ∀ name ∈ pipeline, r.Stable holds w.unit name := by
  induction pipeline generalizing w with
  | nil =>
    cases h
    exact ⟨rfl, fun name hname => by cases hname⟩
  | cons name rest ih =>
    obtain ⟨k, v, hfirst, h⟩ := exists_of_bind h
    obtain ⟨again, v', hrest, h⟩ := exists_of_bind h
    obtain ⟨hreport, rfl⟩ : (again || decide (1 < k)) = false ∧ v' = w' := by
      simpa using EStateM.Result.ok.inj h
    obtain ⟨rfl, hk⟩ := Bool.or_eq_false_iff.1 hreport
    obtain ⟨reg, hreg, hiterate⟩ := exists_of_runTransform hfirst
    have hquiet := runEach_of_iterate hiterate (of_decide_eq_false hk)
    have hunit : v.unit = w.unit := honest_runEach hs _ w v hw hquiet
    have hv : holds v.store := keeps_runEach hs _ w false v hw hquiet
    obtain ⟨hsame, hstable⟩ := ih hv hrest
    rw [hunit] at hsame hstable
    have hname : r.Stable holds w.unit name := by
      refine ⟨reg, hreg, fun u hu hholds => ?_⟩
      obtain ⟨u', hrun, hu'⟩ := repeats_runEach hs _ w false v u hw hquiet hu hholds
      exact ⟨u', hrun, hu'.trans hunit⟩
    refine ⟨hsame, fun other hother => ?_⟩
    rcases List.mem_cons.1 hother with rfl | hother
    · exact hname
    · exact hstable other hother

/-- Rounds that stop early end with one that had no second iteration. -/
theorem exists_last_round {m : Nat} (hw : holds w.store) (h : r.runRounds pipeline n m w = .ok k w')
    (hk : k < m + 1) :
    ∃ v, holds v.store ∧ r.runRound n pipeline v = .ok false w' := by
  induction m generalizing w k with
  | zero =>
    obtain ⟨again, v, -, h⟩ := exists_of_bind h
    cases h
    omega
  | succ m ih =>
    obtain ⟨again, v, hround, h⟩ := exists_of_bind h
    cases again with
    | false => cases h; exact ⟨w, hw, hround⟩
    | true =>
      obtain ⟨k', v', hmore, h⟩ := exists_of_bind h
      cases h
      exact ih (keeps_runRound hs n pipeline w true v hw hround) hmore (by omega)

end Registry

/-- If every pass of a pipeline may iterate twice and the pipeline stops before its rounds are used up,
no pass of it, run once more together with the passes it requires, changes the unit. -/
theorem runPipeline_stops_at_fixpoint (r : Registry σ) (holds : σ → Prop) (ready : String → σ → Prop)
    (hs : r.Stateless holds ready) (pipeline : List String) (maxIterations maxRounds rounds : Nat)
    (w w' : Workbench σ) (hw : holds w.store) (hiterations : 2 ≤ maxIterations)
    (hrun : r.runPipeline pipeline maxIterations maxRounds w = .ok rounds w')
    (hearly : rounds < maxRounds) (name : String) (hname : name ∈ pipeline) :
    ∃ reg, r.passes.get? name = some reg ∧
      ∃ w'', r.runEach (reg.requires ++ [name]) w' = .ok false w'' ∧ w''.unit = w'.unit := by
  obtain ⟨n, rfl⟩ : ∃ n, maxIterations = n + 2 := ⟨maxIterations - 2, by omega⟩
  obtain ⟨v, hv, hround⟩ := Registry.exists_last_round hs hw hrun (by omega)
  obtain ⟨hunit, hstable⟩ := Registry.stable_of_runRound hs hv hround
  obtain ⟨reg, hreg, hrepeat⟩ := hstable name hname
  have hw' : holds w'.store := Registry.keeps_runRound hs _ _ v false w' hv hround
  obtain ⟨w'', hagain, hunit'⟩ := hrepeat w' hunit hw'
  exact ⟨reg, hreg, w'', hagain, hunit'.trans hunit.symm⟩

/-! ### A pass that needs several iterations -/

/-- The pass that drops the first parameter of an operation. -/
def Pass.dropParameter : Pass Unit where
  transform op s := (.ok !op.params.isEmpty, { op with params := op.params.tail }, s)

/-- The registry with the pass that drops parameters. -/
def Registry.dropping : Registry Unit := Registry.empty.register "drop" .dropParameter []

/-- A unit with one operation, which has the given parameters. -/
def CodeUnit.withParameters (params : List TypedName) : CodeUnit :=
  { name := "unit"
    constructs :=
      [{ name := "function", kind := .function,
         operations := [{ name := "call", params, returnType := "Void" }] }] }

theorem Pass.reportsChanges_dropParameter : Pass.dropParameter.ReportsChanges fun _ => True := by
  intro op s changed _ h
  obtain ⟨name, params, returnType, body, location⟩ := op
  cases h
  cases params with
  | nil | cons param rest => simp [dropParameter]

theorem Registry.stateless_dropping :
    Registry.dropping.Stateless (fun _ => True) fun _ _ => True := by
  have hpass : ∀ name reg, Registry.dropping.passes.get? name = some reg →
      reg.pass = Pass.dropParameter := by
    intro name reg h
    rw [dropping, register, FinMap.get?_insert] at h
    split at h
    · cases h; rfl
    · cases h
  constructor
  · intros; trivial
  · intros; trivial
  · intro name reg h
    rw [hpass name reg h]
    exact ⟨fun _ _ _ => trivial, fun _ _ _ _ _ => rfl, fun _ _ _ _ _ => rfl⟩
  · intro name reg h
    rw [hpass name reg h]
    exact Pass.reportsChanges_dropParameter

/-- Two parameters are dropped in two iterations of the first round; the second one finds nothing to
do. -/
theorem runPipeline_stops_at_fixpoint_dropping :
    ∃ reg, Registry.dropping.passes.get? "drop" = some reg ∧
      ∃ w'', Registry.dropping.runEach (reg.requires ++ ["drop"]) ⟨.withParameters [], ()⟩ =
        .ok false w'' ∧ w''.unit = .withParameters [] :=
  runPipeline_stops_at_fixpoint Registry.dropping _ _ Registry.stateless_dropping ["drop"] 2 8 2
    ⟨.withParameters [⟨"a", "Integer"⟩, ⟨"b", "Integer"⟩], ()⟩ ⟨.withParameters [], ()⟩ trivial
    (by decide) rfl (by decide) "drop" (by decide)

/-- With one iteration for each pass the pipeline stops after the first round, and the pass changes the
unit when it runs once more. -/
theorem runPipeline_stops_before_fixpoint :
    Registry.dropping.Stateless (fun _ => True) (fun _ _ => True) ∧
      ∃ w' w'', Registry.dropping.runPipeline ["drop"] 1 8
          ⟨.withParameters [⟨"a", "Integer"⟩, ⟨"b", "Integer"⟩], ()⟩ = .ok 1 w' ∧
        Registry.dropping.runEach ["drop"] w' = .ok true w'' ∧ w''.unit ≠ w'.unit := by
  refine ⟨Registry.stateless_dropping, ⟨.withParameters [⟨"b", "Integer"⟩], ()⟩,
    ⟨.withParameters [], ()⟩, rfl, rfl, ?_⟩
  simp [CodeUnit.withParameters]

end ScopedIR
