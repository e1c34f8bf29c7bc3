import ScopedIR.Pass.Standard
import ScopedIR.Proofs.PassRuns
import ScopedIR.Proofs.Placing

/-!
# Placing a second time

After the escape analysis of an operation no allocation is left that could take a fact, at any depth.
Another analysis then moves nothing to the stack. Since its set of objects on the stack stays empty, no
count and no registration is turned into a marker and no clean-up is inserted, whatever the second
analysis finds out about the operation.

Main definitions:

* `Escape.Settled`: an instruction that takes no fact;
* `Operation.analyseEscapeOnce`: the analysis that refuses to give a fact to an instruction that has
  one.

Main statements:

* `settled_restated`: placed code is settled;
* `placeAll_of_settled`: settled code is placed as it is;
* `placed_once_stays`: the analysis never gives a second fact, a second analysis changes nothing, and
  the pass settles every unit in one or two iterations.
-/

namespace ScopedIR

variable {α β σ : Type}

/-! ### Computations that change nothing -/

/-- Run from `s`, the computation answers `a` and leaves the state as it is. -/
abbrev Fixes (s : σ) (x : StateM σ α) (a : α) : Prop := Yields (· = s) x (· = a)

/-! ### Settled code -/

namespace Escape

/-- An instruction that takes no fact: it allocates nothing on the heap, has a fact already, or
binds no result. -/
def Settled (i : Instr) : Prop := Allocates i.opcode → i.escape = none → i.result = none

/-- Code whose instructions take no fact, nested ones included. -/
def AllSettled (l : List Instr) : Prop := ∀ i ∈ Instr.preorderAll l, Settled i

theorem allSettled_nil : AllSettled [] := by
  intro i hi
  simp [Instr.preorderAll] at hi

variable {l : List Instr} {i : Instr} {placed : Placed}

theorem AllSettled.append {r : List Instr} (hl : AllSettled l) (hr : AllSettled r) :
    AllSettled (l ++ r) := by
  intro i hi
  rw [Instr.preorderAll, List.flatMap_append, List.mem_append] at hi
  cases hi with
  | inl h => exact hl i h
  | inr h => exact hr i h

/-- An instruction is settled with all that is nested in it if it is and its nested lists are. -/
theorem allSettled_singleton (hi : Settled i) (hlists : ∀ l ∈ i.lists, AllSettled l) :
    AllSettled [i] := by
  intro j hj
  rw [Instr.preorderAll, List.flatMap_singleton, Instr.preorder_eq, List.mem_cons] at hj
  rcases hj with rfl | hj
  · exact hi
  · obtain ⟨l, hl, hj⟩ := List.mem_flatMap.1 hj
    exact hlists l hl j hj

theorem AllSettled.of_mem (h : AllSettled l) (hi : i ∈ l) : Settled i := by
  apply h i
  rw [Instr.preorderAll, List.mem_flatMap]
  exact ⟨i, hi, i.mem_preorder_self⟩

theorem AllSettled.nested {l : List Instr} (h : AllSettled l) {i : Instr} (hi : i ∈ l)
    {r : List Instr} (hr : r ∈ i.lists) : AllSettled r := by
  intro j hj
  apply h j
  obtain ⟨k, hk, hj⟩ := List.mem_flatMap.1 hj
  rw [Instr.preorderAll, List.mem_flatMap]
  exact ⟨i, hi, Instr.mem_preorder_of_nested hr hk hj⟩

theorem allSettled_cleanups (objects : List String) : AllSettled (objects.map cleanup) := by
  induction objects with
  | nil => exact allSettled_nil
  | cons object rest ih =>
    have hfirst : AllSettled [cleanup object] :=
      allSettled_singleton (fun h => by simp [Allocates, cleanup] at h) (fun l hl => by cases hl)
    exact hfirst.append ih

/-! ### The first time -/

/-- What stands for an instruction takes no fact any more. -/
theorem Restated.settled {sol : Solution} {placed' : Placed} {j : Instr} {before : List Instr}
    (h : Restated sol placed i before j placed') : Settled j := by
  cases h with
  | stack halloc _ _ _ hopcode =>
    intro hj
    rcases halloc with h | h <;>
      · rw [h] at hopcode
        cases hopcode
        simp [Allocates] at hj
  | heap => intro _ hescape; cases hescape
  | marker hcount _ _ hopcode =>
    intro hj
    rcases hcount with h | h | h <;>
      · rw [h] at hopcode
        cases hopcode
        simp [Allocates, Instr.withOpcode] at hj
  | exit hexit =>
    intro hj
    simp [Allocates, hexit] at hj
  | same halloc => exact halloc

theorem exists_of_mem_right {R : α → β → Prop} {l : List α} {r : List β} (h : List.Forall₂ R l r)
    {b : β} (hb : b ∈ r) : ∃ a ∈ l, R a b := by
  induction h with
  | nil => cases hb
  | cons hab _ ih =>
    rcases List.mem_cons.1 hb with rfl | hb
    · exact ⟨_, List.mem_cons_self, hab⟩
    · obtain ⟨a, ha, hab⟩ := ih hb
      exact ⟨a, List.mem_cons_of_mem _ ha, hab⟩

/-- What takes the place of an instruction takes no fact any more. -/
theorem settled_restated {sol : Solution} {placed' : Placed} {j : Instr} {before : List Instr}
    {payload : Payload Instr} (h : Restated sol placed i before j placed')
    (hpayload : i.payload.Alike (fun _ l => AllSettled l) payload) :
    AllSettled (before ++ [{ j with payload }]) := by
  have hlast : AllSettled [{ j with payload }] :=
    allSettled_singleton h.settled fun l hl =>
      (exists_of_mem_right hpayload.lists hl).choose_spec.2
  have hbefore : AllSettled before := by
    cases h with
    | exit _ => exact allSettled_cleanups _
    | stack | heap | marker | same => exact allSettled_nil
  exact hbefore.append hlast

/-! ### The second time -/

variable (sol : Solution)

theorem cleanups_of_onStack_nil (h : placed.onStack = []) (scope : String) :
    cleanups sol placed scope = [] := by
  rw [cleanups, h, List.filter_nil, List.mergeSort_nil]

/-- With nothing on the stack, a settled instruction stays what it is. -/
theorem own_of_settled (hstack : placed.onStack = []) (hi : Settled i) :
    own sol i placed = (([], i), placed) := by
  by_cases hexit : i.opcode = .scopeExit
  · rw [own_exit sol placed hexit, cleanups_of_onStack_nil sol hstack]
    rfl
  · have hrestated := restated_own sol placed i
    generalize hown : own sol i placed = r at hrestated
    obtain ⟨⟨before, j⟩, placed'⟩ := r
    change Restated sol placed i before j placed' at hrestated
    cases hrestated with
    | stack halloc hescape hresult | heap halloc hescape hresult =>
      rw [hi halloc hescape] at hresult; cases hresult
    | marker _ _ hmem => rw [hstack] at hmem; cases hmem
    | exit h => exact absurd h hexit
    | same => rfl

theorem fixes_concat (h : ∀ i ∈ l, Fixes placed (i.place sol) [i]) :
    Fixes placed (placeAll sol l) l :=
  yields_concat (R := fun l r => r = l) rfl (fun hl hr => by rw [hl, hr]) h

theorem fixes_place (hstack : placed.onStack = []) (i : Instr)
    (hi : AllSettled [i]) : Fixes placed (i.place sol) [i] := by
  induction i using Instr.nested_induction with
  | h i ih =>
    rw [Instr.place_eq, step]
    have hown : Fixes placed (own sol i) ([], i) := by
      rintro _ rfl
      rw [own_of_settled sol hstack (hi.of_mem (List.mem_singleton_self i))]
      exact ⟨rfl, rfl⟩
    have hpayload : Yields (· = placed) ((i.payload.map (Instr.place sol)).replaceListsM concat)
        (i.payload.Alike fun l r => r = l) := by
      rw [Payload.replaceListsM_map]
      refine .replaceListsM fun l hl => fixes_concat sol fun j hj => ih l hl j hj ?_
      have hlist : AllSettled l := hi.nested (List.mem_singleton_self i) hl
      exact allSettled_singleton (hlist.of_mem hj) fun r hr => hlist.nested hj hr
    refine hown.bind fun r hr => hpayload.bind fun payload hp => .pure ?_
    rw [hr, hp.eq]
    cases i
    rfl

/-- Settled code is placed as it is while nothing is on the stack. -/
theorem placeAll_of_settled (hstack : placed.onStack = []) (hl : AllSettled l) :
    Fixes placed (placeAll sol l) l :=
  fixes_concat sol fun i hi => fixes_place sol hstack i
    (allSettled_singleton (hl.of_mem hi) fun _ hr => hl.nested hi hr)

/-! ### Giving facts once -/

/-- Placings that may fail. -/
abbrev PlaceOnce := StateT Placed (Except Defect)

/-- A placing that cannot fail among those that may. -/
def sure (x : Place α) : PlaceOnce α := fun placed => .ok (x placed)

/-- What takes the place of an instruction, as `own` does it, with facts attached by
`Instr.setEscape`. -/
def ownOnce (i : Instr) : PlaceOnce (List Instr × Instr) := do
  match i.opcode with
  | .allocObject | .loadLiteral =>
    match i.escape, i.result with
    | none, some name =>
      let fact : EscapeFact := { level := sol.levels.level name, lifetime := sol.scopes.get? name }
      let placed ← get
      match i.opcode.stackCounterpart with
      | some opcode =>
        if fact.isStackCandidate then
          set { onStack := Holders.add placed.onStack name, changed := true : Placed }
          return ([], ← (i.withOpcode opcode).setEscape fact)
        else
          set { placed with changed := true }
          return ([], ← i.setEscape fact)
      | none =>
        set { placed with changed := true }
        return ([], ← i.setEscape fact)
    | _, _ => return ([], i)
  | _ => sure (own sol i)

def concatOnce (l : List (PlaceOnce (List Instr))) : PlaceOnce (List Instr) := do
  return (← l.mapM id).flatten

def stepOnce (i : Instr) (p : Payload (PlaceOnce (List Instr))) :
    PlaceOnce (List Instr) := do
  let (before, i) ← ownOnce sol i
  let payload ← p.replaceListsM concatOnce
  return before ++ [{ i with payload }]

end Escape

open Escape

/-- The code that takes the place of an instruction, unless one that has a fact is given another. -/
def Instr.placeOnce (sol : Solution) : Instr → PlaceOnce (List Instr) := Instr.fold (stepOnce sol)

/-- The analysis of an operation that fails when it attaches a fact to an instruction that has one. -/
def Operation.analyseEscapeOnce (pureCalls : Bool) (op : Operation) :
    Except Defect (Operation × Bool) := do
  let sol := op.escapeSolution pureCalls
  let (body, placed) ← (op.body.replaceInstrsM fun l => concatOnce (l.map (Instr.placeOnce sol))).run {}
  return ({ op with body }, placed.changed)

namespace Escape

theorem sure_pure (a : α) : sure (pure a) = pure a := rfl

theorem sure_bind (x : Place α) (f : α → Place β) :
    sure (x >>= f) = sure x >>= fun a => sure (f a) := rfl

theorem mapM_option_sure (f : α → Place β) (o : Option α) :
    (o.mapM fun a => sure (f a)) = sure (o.mapM f) := by
  cases o <;> rfl

theorem mapM_list_sure (f : α → Place β) (l : List α) :
    (l.mapM fun a => sure (f a)) = sure (l.mapM f) := by
  induction l with
  | nil => rfl
  | cons a rest ih => rw [List.mapM_cons, List.mapM_cons, ih]; rfl

theorem replaceListsM_sure_chain (f : List ι → Place (List ι)) (c : Chain ι) :
    (c.replaceListsM fun l => sure (f l)) = sure (c.replaceListsM f) := by
  unfold Chain.replaceListsM
  simp only [sure_bind, sure_pure, ← mapM_option_sure, ← mapM_list_sure]

theorem replaceListsM_sure (f : List ι → Place (List ι)) (p : Payload ι) :
    (p.replaceListsM fun l => sure (f l)) = sure (p.replaceListsM f) := by
  cases p with
  | plain | call site => rfl
  | chain c =>
    show (c.replaceListsM fun l => sure (f l)) >>= _ = _
    rw [replaceListsM_sure_chain]
    rfl
  | logical b => rfl

variable (sol : Solution)

/-- Facts are attached only to instructions without one. -/
theorem ownOnce_eq (i : Instr) : ownOnce sol i = sure (own sol i) := by
  obtain ⟨opcode, operands, result, location, escape, payload⟩ := i
  cases opcode with
  | allocObject | loadLiteral =>
    cases escape with
    | some fact => rfl
    | none =>
      cases result with
      | none => rfl
      | some name =>
        funext placed
        show (ite _ _ _ : PlaceOnce _) placed = .ok ((ite _ _ _ : Place _) placed)
        split <;> rfl
  | _ => rfl

theorem concatOnce_sure (l : List (Place (List Instr))) :
    concatOnce (l.map sure) = sure (concat l) := by
  unfold concatOnce concat
  rw [List.mapM_map, sure_bind, ← mapM_list_sure]
  rfl

/-- No instruction is given a second fact. -/
theorem placeOnce_eq (i : Instr) : i.placeOnce sol = sure (i.place sol) := by
  induction i using Instr.nested_induction with
  | h i ih =>
    have hmap : ∀ l ∈ i.payload.lists,
        l.map (Instr.placeOnce sol) = l.map fun j => sure (j.place sol) :=
      fun l hl => List.map_congr_left (ih l hl)
    have hpayload : (i.payload.map (Instr.placeOnce sol)).replaceListsM concatOnce =
        sure ((i.payload.map (Instr.place sol)).replaceListsM concat) := by
      rw [← Payload.mapWith_self, Payload.mapWith_congr i.payload hmap hmap, Payload.mapWith_self,
        Payload.replaceListsM_map, Payload.replaceListsM_map, ← replaceListsM_sure]
      congr 1
      funext l
      rw [← concatOnce_sure, List.map_map]
      rfl
    rw [Instr.placeOnce, Instr.fold_eq, Instr.place_eq, stepOnce, step, ownOnce_eq]
    rw [show Instr.fold (stepOnce sol) = Instr.placeOnce sol from rfl, hpayload]
    rfl

end Escape

/-! ### Operations -/

/-- The analysis never gives a second fact to an instruction. -/
theorem Operation.analyseEscapeOnce_eq (pureCalls : Bool) (op : Operation) :
    op.analyseEscapeOnce pureCalls = .ok (op.analyseEscape pureCalls) := by
  have hlist : ∀ (sol : Solution) (l : List Instr),
      concatOnce (l.map (Instr.placeOnce sol)) = sure (placeAll sol l) := by
    intro sol l
    rw [placeAll, ← concatOnce_sure, List.map_map]
    exact congrArg concatOnce (List.map_congr_left fun i _ => placeOnce_eq sol i)
  have hbody : ∀ sol : Solution, (op.body.replaceInstrsM fun l =>
      concatOnce (l.map (Instr.placeOnce sol))) = sure (op.body.replaceInstrsM (placeAll sol)) := by
    intro sol
    simp only [hlist]
    unfold Body.replaceInstrsM
    simp only [sure_bind, sure_pure, ← mapM_list_sure]
  unfold analyseEscapeOnce
  simp only [hbody]
  rfl

/-- After one analysis another one changes nothing, whatever either of them trusts. -/
theorem Operation.analyseEscape_analyseEscape (first second : Bool) (op : Operation) :
    (op.analyseEscape first).1.analyseEscape second = ((op.analyseEscape first).1, false) := by
  have hsettled : ∀ block ∈ (op.analyseEscape first).1.body.toList, AllSettled block.instrs := by
    have halike : op.body.Alike (fun _ l => AllSettled l) (op.analyseEscape first).1.body :=
      op.alike_analyseEscape first allSettled_nil .append settled_restated
    intro block hblock
    obtain ⟨_, _, hrel⟩ := exists_of_mem_right halike.blocks hblock
    exact hrel.instrs
  generalize (op.analyseEscape first).1 = placed at hsettled
  obtain ⟨hbody, hstate⟩ := Body.yields_replaceInstrsM (R := fun l r => r = l) (fun block hblock =>
    placeAll_of_settled (placed.escapeSolution second) rfl (hsettled block hblock)) {} rfl
  unfold analyseEscape
  rw [StateT.run, show _ = (_, _) from Prod.ext hbody.eq hstate]

/-! ### Units -/

/-- The construct with its operations analysed, and whether any changed. -/
def Construct.analyseEscape (pureCalls : Bool) (c : Construct) : Construct × Bool :=
  ({ c with operations := c.operations.map fun op => (op.analyseEscape pureCalls).1 },
    c.operations.any fun op => (op.analyseEscape pureCalls).2)

/-- The unit with all its operations analysed, and whether any changed. -/
def CodeUnit.analyseEscape (pureCalls : Bool) (u : CodeUnit) : CodeUnit × Bool :=
  ({ u with constructs := u.constructs.map fun c => (c.analyseEscape pureCalls).1 },
    u.constructs.any fun c => (c.analyseEscape pureCalls).2)

theorem Construct.analyseEscape_analyseEscape (first second : Bool) (c : Construct) :
    (c.analyseEscape first).1.analyseEscape second = ((c.analyseEscape first).1, false) := by
  simp [analyseEscape, Operation.analyseEscape_analyseEscape]

theorem CodeUnit.analyseEscape_analyseEscape (first second : Bool) (u : CodeUnit) :
    (u.analyseEscape first).1.analyseEscape second = ((u.analyseEscape first).1, false) := by
  simp [analyseEscape, Construct.analyseEscape_analyseEscape]

namespace Pass

theorem onOperations_escape (name : String) (ops : List Operation) (s : PassStore) :
    escape.onOperations name ops s =
      (.ok (ops.any fun op => (op.analyseEscape s.pureCalls).2),
        ops.map fun op => (op.analyseEscape s.pureCalls).1, s) := by
  induction ops with
  | nil => rfl
  | cons op rest ih =>
    have hop : escape.transform op s = (.ok (op.analyseEscape s.pureCalls).2,
        (op.analyseEscape s.pureCalls).1, s) := rfl
    rw [onOperations, hop]
    simp only [ih]
    rfl

theorem onConstructs_escape (name : String) (cs : List Construct) (s : PassStore) :
    escape.onConstructs name cs s =
      (.ok (cs.any fun c => (c.analyseEscape s.pureCalls).2),
        cs.map fun c => (c.analyseEscape s.pureCalls).1, s) := by
  induction cs with
  | nil => rfl
  | cons c rest ih =>
    simp only [onConstructs, onOperations_escape, ih]
    rfl

end Pass

namespace Registry

variable (r : Registry PassStore) (w : Workbench PassStore)

/-- The registry with the escape analysis registered, which requires no other pass. -/
def withEscape : Registry PassStore := r.register Pass.escapeName .escape []

/-- Whether the analysis trusts pure calls when it runs with the parameters of a registry. -/
def trusts (s : PassStore) : Bool := (Pass.escape.configure r.params s).pureCalls

theorem find_withEscape :
    r.withEscape.find Pass.escapeName = pure { pass := .escape, requires := [] } := by
  unfold find withEscape register
  rw [FinMap.get?_insert_self]

/-- One iteration of the pass analyses the unit, whatever the parameters are. -/
theorem runEach_withEscape : r.withEscape.runEach [Pass.escapeName] w =
    .ok (w.unit.analyseEscape (r.trusts w.store)).2
      { unit := (w.unit.analyseEscape (r.trusts w.store)).1,
        store := Pass.escape.configure r.params w.store } := by
  have honce : r.withEscape.runOnce Pass.escapeName w =
      .ok (w.unit.analyseEscape (r.trusts w.store)).2
        { unit := (w.unit.analyseEscape (r.trusts w.store)).1,
          store := Pass.escape.configure r.params w.store } := by
    rw [runOnce, find_withEscape]
    show Pass.escape.onUnit Pass.escapeName
      { w with store := Pass.escape.configure r.params w.store } = _
    rw [Pass.onUnit, Pass.onConstructs_escape]
    rfl
  rw [runEach, PassRun.bind_of_ok honce]
  rfl

/-- A unit that was analysed before is stable. -/
theorem runTransform_analysed (first : Bool) (n : Nat) {u : CodeUnit}
    (hu : w.unit = (u.analyseEscape first).1) :
    r.withEscape.runTransform Pass.escapeName (n + 1) w =
      .ok 1 { w with store := Pass.escape.configure r.params w.store } := by
  have hquiet := r.runEach_withEscape w
  rw [hu, CodeUnit.analyseEscape_analyseEscape] at hquiet
  rw [runTransform, find_withEscape]
  show r.withEscape.iterate [Pass.escapeName] (n + 1) w = _
  rw [iterate, PassRun.bind_of_ok hquiet, hu]
  rfl

/-- The first run of the pass takes an iteration that analyses the unit, and one more if that reported
a change. -/
theorem runTransform_withEscape (n : Nat) :
    ∃ iterations store, r.withEscape.runTransform Pass.escapeName (n + 2) w =
        .ok iterations { unit := (w.unit.analyseEscape (r.trusts w.store)).1, store } ∧
      (iterations = 1 ∨ iterations = 2) := by
  have hfirst := r.runEach_withEscape w
  have hsecond := r.runTransform_analysed
    { unit := (w.unit.analyseEscape (r.trusts w.store)).1,
      store := Pass.escape.configure r.params w.store } (r.trusts w.store) n rfl
  rw [runTransform, find_withEscape] at hsecond
  change r.withEscape.iterate [Pass.escapeName] (n + 1) _ = _ at hsecond
  rw [runTransform, find_withEscape]
  cases hchanged : (w.unit.analyseEscape (r.trusts w.store)).2 with
  | false =>
    refine ⟨1, Pass.escape.configure r.params w.store, ?_, .inl rfl⟩
    show r.withEscape.iterate [Pass.escapeName] (n + 2) w = _
    rw [iterate, PassRun.bind_of_ok hfirst, hchanged]
    rfl
  | true =>
    refine ⟨2, Pass.escape.configure r.params (Pass.escape.configure r.params w.store), ?_, .inr rfl⟩
    show r.withEscape.iterate [Pass.escapeName] (n + 2) w = _
    rw [iterate, PassRun.bind_of_ok hfirst, hchanged]
    exact PassRun.bind_of_ok hsecond

end Registry

/-- The analysis gives no instruction a second fact, and done twice it does what it does once, whatever
either analysis trusts. So the pass takes one or two iterations on every unit, and one from then on,
under whatever parameters. -/
theorem placed_once_stays :
    (∀ (op : Operation) (first second : Bool),
      op.analyseEscapeOnce first = .ok (op.analyseEscape first) ∧
      (op.analyseEscape first).1.analyseEscape second = ((op.analyseEscape first).1, false)) ∧
    ∀ (r r' : Registry PassStore) (w : Workbench PassStore) (n n' : Nat),
      ∃ iterations w', r.withEscape.runTransform Pass.escapeName (n + 2) w = .ok iterations w' ∧
        (iterations = 1 ∨ iterations = 2) ∧
        ∃ w'', r'.withEscape.runTransform Pass.escapeName (n' + 1) w' = .ok 1 w'' ∧
          w''.unit = w'.unit := by
  constructor
  · intro op first second
    exact ⟨op.analyseEscapeOnce_eq first, op.analyseEscape_analyseEscape first second⟩
  · intro r r' w n n'
    obtain ⟨iterations, store, hrun, hiterations⟩ := r.runTransform_withEscape w n
    have hagain := r'.runTransform_analysed
      { unit := (w.unit.analyseEscape (r.trusts w.store)).1, store } (r.trusts w.store) n' rfl
    exact ⟨iterations, _, hrun, hiterations, _, hagain, rfl⟩

end ScopedIR
