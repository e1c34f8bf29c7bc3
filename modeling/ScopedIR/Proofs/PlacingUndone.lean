import ScopedIR.Proofs.NoLeaks
import ScopedIR.Proofs.PlacedScopes
import ScopedIR.Proofs.PlacingTwice

/-!
# Undoing a placing

Placing gives facts to allocations, renames opcodes and puts clean-ups before scope exits. All of this
can be undone by looking at the code alone: drop the clean-ups and the facts, and give every opcode
the name it has on the heap, at every depth. Undoing does not tell placed code from the code it was
made of, so nothing else was changed. A run can tell them apart: an object on the stack keeps what
its fields hold when an exception unwinds its scope.

Main definitions:

* `Instr.unplace`: the code without what placing adds to it, as a fold;
* `Instr.withoutFacts`: the instruction without escape facts, as a fold;
* `Escape.Tidy`: code whose clean-ups stand right before exits of the scopes their objects belong to;
* `Escape.RegisteredLast`: the scope of the last registration of an object.

Main statement: `placing_only_annotates`.
-/

namespace ScopedIR

variable {ι κ ν α β : Type}

/-! ### The code without what placing adds -/

/-- What an opcode is called on the heap. -/
def Opcode.onHeap : Opcode → Opcode
  | .stackAlloc => .allocObject
  | .stackAllocLiteral => .loadLiteral
  | .noRetain => .retain
  | .noRelease => .release
  | .noScopeRegister => .scopeRegister
  | opcode => opcode

theorem Opcode.onHeap_of_not_isMarker {op : Opcode} (h : op.isMarker = false) :
    op.onHeap = op ∧ op ≠ .stackCleanup := by
  cases op <;> first | exact ⟨rfl, by decide⟩ | cases h

/-- Replace the nested lists of a payload. -/
def Payload.replaceLists (f : List ι → List κ) (p : Payload ι) : Payload κ :=
  p.replaceListsM (m := Id) f

/-- Replace the instructions of every block. -/
def Body.replaceInstrs (body : Body) (f : List Instr → List Instr) : Body :=
  body.replaceInstrsM (m := Id) f

/-- The code that an instruction was placed for: nothing for a clean-up, and the instruction under its
name on the heap without a fact for any other. -/
def Instr.unplace : Instr → List Instr :=
  Instr.fold fun i p =>
    if i.opcode = .stackCleanup then []
    else [{ i with
      opcode := i.opcode.onHeap, escape := none, payload := p.replaceLists List.flatten }]

/-- The instruction without escape facts, nested ones included. -/
def Instr.withoutFacts : Instr → Instr :=
  Instr.fold fun i payload => { i with escape := none, payload }

/-- The operation that an operation was placed for. -/
def Operation.unplace (op : Operation) : Operation :=
  { op with body := op.body.replaceInstrs (·.flatMap Instr.unplace) }

/-- The operation without escape facts. -/
def Operation.withoutFacts (op : Operation) : Operation :=
  { op with body := op.body.replaceInstrs (·.map Instr.withoutFacts) }

theorem Instr.unplace_eq (i : Instr) :
    i.unplace = if i.opcode = .stackCleanup then [] else
      [{ i with opcode := i.opcode.onHeap, escape := none,
                payload := i.payload.replaceLists (·.flatMap Instr.unplace) }] := by
  unfold Instr.unplace
  rw [Instr.fold_eq, Payload.replaceLists, Payload.replaceListsM_map]
  rfl

theorem Instr.withoutFacts_eq (i : Instr) :
    i.withoutFacts = { i with escape := none, payload := i.payload.map Instr.withoutFacts } :=
  Instr.fold_eq _ i

/-! ### Replacing lists -/

variable {P : α → β → Prop} {m : Type → Type}

theorem mapM_list_congr_of_rel [Monad m] [LawfulMonad m] {f : α → m ν} {g : β → m ν} {l : List α}
    {r : List β} (h : List.Forall₂ P l r) (himp : ∀ a b, P a b → g b = f a) :
    r.mapM g = l.mapM f := by
  induction h with
  | nil => rfl
  | cons hab _ ih => rw [List.mapM_cons, List.mapM_cons, himp _ _ hab, ih]

theorem mapM_option_congr_of_rel [Monad m] {f : α → m ν} {g : β → m ν} {a : Option α}
    {b : Option β} (h : Option.Rel P a b) (himp : ∀ a b, P a b → g b = f a) :
    b.mapM g = a.mapM f := by
  cases h with
  | none => rfl
  | some h =>
    show some <$> g _ = some <$> f _
    rw [himp _ _ h]

/-- Chains whose lists are replaced by the same lists are replaced by the same chain. -/
theorem Chain.Alike.replaceListsM_eq [Monad m] [LawfulMonad m] {f : List ι → m (List ν)}
    {c d : Chain ι} (h : c.Alike (fun l r => f r = f l) d) :
    d.replaceListsM f = c.replaceListsM f := by
  unfold Chain.replaceListsM
  rw [h.kind, h.scope, h.result, h.dispatch]
  rw [mapM_option_congr_of_rel h.subject fun v w hv => by rw [hv.name, hv.type, hv.setup],
    mapM_option_congr_of_rel h.returning fun v w hv => by rw [hv.name, hv.type, hv.setup],
    mapM_option_congr_of_rel h.tryBlock fun b b' hb => by rw [hb.scope, hb.exception, hb.evaluation],
    mapM_list_congr_of_rel h.cases fun k k' hk => by
      rw [hk.scope, hk.kind, hk.bodyScope, hk.truth, hk.primitive, hk.condition, hk.body.result,
        hk.body.evaluation, hk.updates],
    mapM_option_congr_of_rel h.fallback fun b b' hb => by rw [hb.result, hb.evaluation],
    mapM_option_congr_of_rel h.finallyBlock fun b b' hb => by rw [hb.scope, hb.evaluation]]

/-- Payloads whose lists are replaced by the same lists are replaced by the same payload. -/
theorem Payload.Alike.replaceLists_eq {f : List ι → List ν} {p q : Payload ι}
    (h : p.Alike (fun l r => f r = f l) q) : q.replaceLists f = p.replaceLists f := by
  cases h with
  | plain | call => rfl
  | chain hc => exact congrArg Payload.chain (hc.replaceListsM_eq (m := Id) (f := f))
  | @logical a b hb =>
    show Payload.logical _ = Payload.logical _
    rw [hb.op, hb.left, hb.condition, hb.right, hb.result, hb.scope, hb.leftEvaluation,
      hb.rightEvaluation, hb.computation]

/-- Changing the items of every list changes every item. -/
theorem Payload.replaceLists_map (g : ι → κ) (p : Payload ι) :
    p.replaceLists (·.map g) = p.map g := by
  cases p with
  | plain | call site => rfl
  | chain c =>
    have hoption : ∀ {α β : Type} (f : α → Id β) (o : Option α), o.mapM f = o.map f := by
      intro α β f o
      cases o <;> rfl
    have hlist : ∀ {α β : Type} (f : α → Id β) (l : List α), l.mapM f = l.map f := by
      intro α β f l
      exact List.idRun_mapM
    refine congrArg Payload.chain ?_
    unfold Chain.replaceListsM
    simp only [hoption, hlist]
    rfl
  | logical b => rfl

/-- If every item becomes a list of one, the lists are changed item by item. -/
theorem Payload.replaceLists_flatten (g : ι → κ) (p : Payload ι) :
    (p.map fun a => [g a]).replaceLists List.flatten = p.map g := by
  have hflatten : (fun l : List ι => (l.map fun a => [g a]).flatten) = (·.map g) := by
    funext l
    induction l with
    | nil => rfl
    | cons a rest ih => exact congrArg (g a :: ·) ih
  rw [← p.replaceLists_map g, ← hflatten]
  exact p.replaceListsM_map (m := Id) (fun a => [g a]) List.flatten

/-- Bodies whose lists are replaced by the same lists are replaced by the same body. -/
theorem Body.Alike.replaceInstrs_eq {f g : List Instr → List Instr} {a b : Body}
    (h : a.Alike (fun l r => f r = g l) b) : b.replaceInstrs f = a.replaceInstrs g := by
  have hblocks : (b.toList.mapM (m := Id) fun block => { block with instrs := f block.instrs }) =
      a.toList.mapM (m := Id) fun block => { block with instrs := g block.instrs } := by
    apply mapM_list_congr_of_rel h.blocks
    intro block block' hblock
    show ({ block' with instrs := f block'.instrs } : Block) = { block with instrs := g block.instrs }
    rw [hblock.label, hblock.succs, hblock.preds, hblock.instrs]
  exact congrArg₂ (fun (blocks : List Block) index => (⟨⟨blocks.toArray⟩, index⟩ : Body)) hblocks h.index

namespace Escape

/-! ### Placed code is undone to the code it was made of -/

/-- Code without markers, at any depth. -/
def Unmarked (l : List Instr) : Prop := ∀ i ∈ Instr.preorderAll l, i.opcode.isMarker = false

/-- Without markers there is nothing to undo but the facts. -/
theorem unplace_of_unmarked {i : Instr} (h : ∀ j ∈ i.preorder, j.opcode.isMarker = false) :
    i.unplace = [i.withoutFacts] := by
  induction i using Instr.nested_induction with
  | h i ih =>
    obtain ⟨hname, hclean⟩ := Opcode.onHeap_of_not_isMarker (h i i.mem_preorder_self)
    have hnested : ∀ l ∈ i.payload.lists,
        l.map Instr.unplace = l.map fun j => [j.withoutFacts] := by
      intro l hl
      apply List.map_congr_left
      intro j hj
      exact ih l hl j hj fun k hk => h k (Instr.mem_preorder_of_nested hl hj hk)
    have hpayload : (i.payload.map Instr.unplace).replaceLists List.flatten =
        i.payload.map Instr.withoutFacts := by
      rw [← Payload.mapWith_self, Payload.mapWith_congr i.payload hnested hnested,
        Payload.mapWith_self, Payload.replaceLists_flatten]
    show Instr.fold _ i = _
    rw [Instr.fold_eq, if_neg hclean, hname, Instr.withoutFacts_eq, ← hpayload]
    rfl

variable {l l' r r' : List Instr} {payload : Payload Instr} {object scope : String}
  {pureCalls : Bool}

theorem flatMap_unplace_of_unmarked (h : Unmarked l) :
    l.flatMap Instr.unplace = l.map Instr.withoutFacts := by
  induction l with
  | nil => rfl
  | cons i rest ih =>
    have hi : i.unplace = [i.withoutFacts] :=
      unplace_of_unmarked fun j hj => h j (List.mem_append_left _ hj)
    rw [List.flatMap_cons, hi, ih fun j hj => h j (List.mem_append_right _ hj)]
    rfl

theorem unplace_cleanups (objects : List String) :
    (objects.map cleanup).flatMap Instr.unplace = [] := by
  induction objects with
  | nil => rfl
  | cons object rest ih =>
    rw [List.map_cons, List.flatMap_cons, ih, Instr.unplace_eq]
    rfl

variable {sol : Solution} {placed placed' : Placed} {i j : Instr} {before : List Instr}

/-- Its opcode and its fact apart, an instruction is kept. -/
theorem Restated.kept (h : Restated sol placed i before j placed') :
    (j.opcode = .stackCleanup ↔ i.opcode = .stackCleanup) ∧
      { j with opcode := j.opcode.onHeap, escape := none } =
        { i with opcode := i.opcode.onHeap, escape := none } := by
  have hname : ∀ opcode, i.opcode.stackCounterpart = some opcode →
      (opcode = .stackCleanup ↔ i.opcode = .stackCleanup) ∧ opcode.onHeap = i.opcode.onHeap := by
    intro opcode hopcode
    cases hi : i.opcode <;> rw [hi] at hopcode <;> cases hopcode <;> decide
  cases h with
  | stack _ _ _ _ hopcode => exact ⟨(hname _ hopcode).1, by rw [(hname _ hopcode).2]⟩
  | @marker _ opcode _ _ _ hopcode =>
    refine ⟨(hname _ hopcode).1, ?_⟩
    show ({ i with opcode := opcode.onHeap, escape := none } : Instr) = _
    rw [(hname _ hopcode).2]
  | heap | exit | same => exact ⟨Iff.rfl, rfl⟩

/-- Two lists that are undone to the same code. -/
def SameUndone (l r : List Instr) : Prop := r.flatMap Instr.unplace = l.flatMap Instr.unplace

theorem SameUndone.append (hl : SameUndone l l') (hr : SameUndone r r') :
    SameUndone (l ++ r) (l' ++ r') := by
  unfold SameUndone at *
  rw [List.flatMap_append, List.flatMap_append, hl, hr]

/-- Undoing does not tell what takes the place of an instruction from the instruction. -/
theorem sameUndone_restated (h : Restated sol placed i before j placed')
    (hp : i.payload.Alike SameUndone payload) :
    SameUndone [i] (before ++ [{ j with payload }]) := by
  obtain ⟨objects, rfl⟩ := ScopeCheck.exists_cleanups h
  obtain ⟨hclean, hkept⟩ := h.kept
  have hlast : ({ j with payload } : Instr).unplace = i.unplace := by
    rw [Instr.unplace_eq, Instr.unplace_eq i, hp.replaceLists_eq]
    by_cases hi : i.opcode = .stackCleanup
    · rw [if_pos hi, if_pos (hclean.2 hi)]
    · rw [if_neg hi, if_neg fun hj => hi (hclean.1 hj)]
      exact congrArg (fun k : Instr =>
        [{ k with payload := i.payload.replaceLists (·.flatMap Instr.unplace) }]) hkept
  show List.flatMap Instr.unplace _ = List.flatMap Instr.unplace _
  rw [List.flatMap_append, unplace_cleanups, List.nil_append, List.flatMap_singleton,
    List.flatMap_singleton, hlast]

/-! ### Where clean-ups stand -/

/-- Code in which every clean-up stands, possibly with others, right before an exit of a scope that
holds its object, at any depth. -/
inductive Tidy (holds : String → String → Prop) : List Instr → Prop
  | nil : Tidy holds []
  | exit {objects : List String} {i : Instr} {rest : List Instr} (hexit : i.opcode = .scopeExit)
      (hholds : ∀ object ∈ objects, holds object (i.scope?.getD ""))
      (hnested : ∀ l ∈ i.lists, Tidy holds l) (hrest : Tidy holds rest) :
      Tidy holds (objects.map cleanup ++ i :: rest)
  | other {i : Instr} {rest : List Instr} (hother : i.opcode ≠ .stackCleanup)
      (hnested : ∀ l ∈ i.lists, Tidy holds l) (hrest : Tidy holds rest) : Tidy holds (i :: rest)

namespace Tidy

variable {holds : String → String → Prop} {l r : List Instr}

theorem append (hl : Tidy holds l) (hr : Tidy holds r) : Tidy holds (l ++ r) := by
  induction hl with
  | nil => exact hr
  | exit hexit hholds hnested _ _ ih =>
    rw [List.append_assoc]
    exact .exit hexit hholds hnested ih
  | other hother hnested _ _ ih => exact .other hother hnested ih

theorem mono {holds' : String → String → Prop} (h : ∀ object scope, holds object scope →
    holds' object scope) (hl : Tidy holds l) : Tidy holds' l := by
  induction hl with
  | nil => exact .nil
  | exit hexit hholds _ _ ihnested ih =>
    exact .exit hexit (fun object hobject => h _ _ (hholds object hobject)) ihnested ih
  | other hother _ _ ihnested ih => exact .other hother ihnested ih

end Tidy

/-- Code without markers, and tidy code that may take its place. -/
def Tidied (sol : Solution) (l r : List Instr) : Prop :=
  Unmarked l → Tidy (fun object scope => sol.scopes.get? object = some scope) r

theorem Tidied.append (hl : Tidied sol l l') (hr : Tidied sol r r') :
    Tidied sol (l ++ r) (l' ++ r') := by
  intro h
  have hsplit : ∀ i, i ∈ Instr.preorderAll l ∨ i ∈ Instr.preorderAll r →
      i.opcode.isMarker = false := by
    intro i hi
    apply h
    rwa [Instr.preorderAll, List.flatMap_append, List.mem_append]
  exact (hl fun i hi => hsplit i (.inl hi)).append (hr fun i hi => hsplit i (.inr hi))

/-- Clean-ups are put right before exits, and nowhere else. -/
theorem tidied_restated (h : Restated sol placed i before j placed')
    (hp : i.payload.Alike (Tidied sol) payload) :
    Tidied sol [i] (before ++ [{ j with payload }]) := by
  intro hunmarked
  have hi : ∀ k ∈ i.preorder, k.opcode.isMarker = false := by
    intro k hk
    exact hunmarked k (List.mem_flatMap.2 ⟨i, List.mem_singleton_self i, hk⟩)
  have hj : j.opcode ≠ .stackCleanup := fun hj =>
    (Opcode.onHeap_of_not_isMarker (hi i i.mem_preorder_self)).2 (h.kept.1.1 hj)
  have hnested : ∀ r ∈ payload.lists,
      Tidy (fun object scope => sol.scopes.get? object = some scope) r := by
    intro r hr
    obtain ⟨l, hl, hlr⟩ := exists_of_mem_right hp.lists hr
    apply hlr
    intro k hk
    obtain ⟨i', hi', hk⟩ := List.mem_flatMap.1 hk
    exact hi k (Instr.mem_preorder_of_nested hl hi' hk)
  cases h with
  | exit hexit =>
    refine .exit hexit (fun object hobject => ?_) hnested .nil
    rw [cleanups, List.mem_mergeSort, List.mem_filter] at hobject
    have hheld : object ∈ sol.holders ∧ sol.scopes.get? object = some (i.scope?.getD "") := by
      simpa using hobject.2
    exact hheld.2
  | stack | heap | marker | same => exact .other hj hnested .nil

/-! ### The scope an object is registered in -/

/-- The instruction registers an object in a scope. -/
def Registers (i : Instr) (object scope : String) : Prop :=
  i.opcode = .scopeRegister ∧ i.object? = some object ∧ i.scope? = some scope

/-- The last registration of an object in some code is the one in a scope. -/
def RegisteredLast (l : List Instr) (object scope : String) : Prop :=
  ∃ before i after, l = before ++ i :: after ∧ Registers i object scope ∧
    ∀ j ∈ after, ∀ other, ¬ Registers j object other

theorem scope_not_mem_ofCall {site : CallSite} :
    Finding.scope object scope ∉ ofCall pureCalls i site := by
  unfold ofCall
  split <;> simp

theorem scope_not_mem_ofStore {target value : String} :
    Finding.scope object scope ∉ ofStore target value := by
  unfold ofStore
  split <;> simp

/-- Only registrations say which scope releases an object. -/
theorem registers_of_mem_findings (h : Finding.scope object scope ∈ i.findings pureCalls) :
    Registers i object scope := by
  cases hopcode : i.opcode <;> simp only [Instr.findings, hopcode] at h
  case scopeRegister =>
    split at h
    · next ho hk =>
      cases List.mem_singleton.1 h
      exact ⟨hopcode, ho, hk⟩
    · cases h
  case call | callVirtual | callStatic | callDispatcher =>
    split at h
    · exact absurd h scope_not_mem_ofCall
    · cases h
  case store =>
    split at h
    · exact absurd h scope_not_mem_ofStore
    · cases h
  case load =>
    split at h
    · split at h <;> simp at h
    · cases h
  case ret | throw | phi => simp at h
  case chain | logicalAnd | logicalOr => split at h <;> simp at h
  all_goals cases h

theorem findings_of_registers (h : Registers i object scope) :
    i.findings pureCalls = [.scope object scope] := by
  simp only [Instr.findings, h.1, h.2.1, h.2.2]

/-- Findings that are no registrations of an object leave its scope as it is. -/
theorem scopes_foldl_add {l : List Finding} (f : Findings)
    (h : ∀ scope, Finding.scope object scope ∉ l) :
    (l.foldl Findings.add f).scopes.get? object = f.scopes.get? object := by
  induction l generalizing f with
  | nil => rfl
  | cons finding rest ih =>
    rw [List.foldl_cons, ih _ fun scope hmem => h scope (List.mem_cons_of_mem _ hmem)]
    cases finding with
    | scope other k =>
      have hne : other ≠ object := by
        rintro rfl
        exact h k List.mem_cons_self
      exact FinMap.get?_insert_ne f.scopes hne k
    | _ => rfl

/-- The scope that the findings tell of an object is the one it is registered in last. -/
theorem registeredLast_of_scopes (f : Findings)
    (h : ((l.flatMap (·.findings pureCalls)).foldl Findings.add f).scopes.get? object =
      some scope) : RegisteredLast l object scope ∨
    f.scopes.get? object = some scope ∧ ∀ i ∈ l, ∀ other, ¬ Registers i object other := by
  induction l generalizing f with
  | nil => exact .inr ⟨h, fun i hi => by cases hi⟩
  | cons i rest ih =>
    rw [List.flatMap_cons, List.foldl_append] at h
    obtain ⟨before, j, after, rfl, hj, hafter⟩ | ⟨hf, hrest⟩ := ih _ h
    · exact .inl ⟨i :: before, j, after, rfl, hj, hafter⟩
    by_cases hi : ∃ other, Registers i object other
    · obtain ⟨other, hother⟩ := hi
      rw [findings_of_registers hother] at hf
      obtain rfl : other = scope :=
        Option.some.inj ((FinMap.get?_insert_self f.scopes object other).symm.trans hf)
      exact .inl ⟨[], i, rest, rfl, hother, hrest⟩
    · have hnot : ∀ other, ¬ Registers i object other := fun other ho => hi ⟨other, ho⟩
      rw [scopes_foldl_add f fun k hk => hnot k (registers_of_mem_findings hk)] at hf
      refine .inr ⟨hf, fun j hj => ?_⟩
      rcases List.mem_cons.1 hj with rfl | hj
      · exact hnot
      · exact hrest j hj

end Escape

open Escape

/-- The escape analysis of an operation without markers only annotates it. With the clean-ups and the
facts dropped and every opcode under its name on the heap, what it answers is the operation without
facts. Clean-ups stand right before exits of the scopes that their objects are registered in. -/
theorem placing_only_annotates (pureCalls : Bool) (op : Operation) (h : Unmarked op.body.instrs) :
    (op.analyseEscape pureCalls).1.unplace = op.withoutFacts ∧
      ∀ block ∈ (op.analyseEscape pureCalls).1.body.toList,
        Tidy (RegisteredLast (Instr.preorderAll op.body.instrs)) block.instrs := by
  have hundone : op.body.Alike SameUndone (op.analyseEscape pureCalls).1.body :=
    op.alike_analyseEscape pureCalls rfl .append sameUndone_restated
  have htidied : op.body.Alike (Tidied (op.escapeSolution pureCalls))
      (op.analyseEscape pureCalls).1.body :=
    op.alike_analyseEscape pureCalls (fun _ => .nil) .append tidied_restated
  have hblock : ∀ block ∈ op.body.toList, Unmarked block.instrs := by
    intro block hblock i hi
    obtain ⟨j, hj, hi⟩ := List.mem_flatMap.1 hi
    exact h i (List.mem_flatMap.2 ⟨j, List.mem_flatMap.2 ⟨block, hblock, hj⟩, hi⟩)
  constructor
  · have hbody : op.body.Alike (fun l r => r.flatMap Instr.unplace = l.map Instr.withoutFacts)
        (op.analyseEscape pureCalls).1.body := by
      refine ⟨((List.forall₂_and_left _ _).2 ⟨hblock, hundone.blocks⟩).imp fun a b hab => ?_,
        hundone.index⟩
      obtain ⟨hunmarked, halike⟩ := hab
      exact ⟨halike.label, halike.succs, halike.preds,
        halike.instrs.trans (flatMap_unplace_of_unmarked hunmarked)⟩
    exact congrArg (fun body => { op with body }) hbody.replaceInstrs_eq
  · intro block hmem
    obtain ⟨original, horiginal, halike⟩ := exists_of_mem_right htidied.blocks hmem
    refine (halike.instrs (hblock original horiginal)).mono fun object scope hscope => ?_
    obtain hlast | ⟨hnone, -⟩ := registeredLast_of_scopes _ hscope
    · exact hlast
    · cases hnone

/-- Inside a conditional, a scope with an object that has a reference in a field. -/
def boxing : Operation where
  name := "box"
  returnType := "Void"
  body := { index := ⟨[("entry", 0)]⟩, blocks := ⟨#[{
    label := "entry"
    instrs := [{
      opcode := .chain
      operands := ["IF_ELSE", "choice"]
      payload := .chain {
        kind := .ifElse
        scope := "choice"
        cases := [{
          kind := .expression
          condition := { primitive := "t" }
          body := { evaluation := [
            { opcode := .scopeEnter, operands := ["s"] },
            { opcode := .allocObject, operands := ["Box"], result := some "x" },
            { opcode := .scopeRegister, operands := ["x", "s"] },
            { opcode := .store, operands := ["x.content", "v"] },
            { opcode := .scopeExit, operands := ["s"] }] } }] } },
      { opcode := .ret }] }]⟩ }

/-- The object of the nested scope moves to the stack, and is cleaned up before the scope exits. -/
theorem placing_only_annotates_boxing : Unmarked boxing.body.instrs ∧
    (boxing.analyseEscape false).1.unplace = boxing.withoutFacts ∧
    (Instr.preorderAll (boxing.analyseEscape false).1.body.instrs).map (·.opcode) =
      [.chain, .scopeEnter, .stackAlloc, .noScopeRegister, .store, .stackCleanup, .scopeExit,
        .ret] := by
  have hunmarked : Unmarked boxing.body.instrs := by
    unfold Unmarked
    decide +kernel
  exact ⟨hunmarked, (placing_only_annotates false boxing hunmarked).1, by decide +kernel⟩

/-! ### What a run can tell -/

/-- An object with a field, in a scope that an exception unwinds. -/
def boxInTry : FunctionDef :=
  { name := "run"
    returnType := TypeName.void
    body := [.tryCatch none
      [.declare none "box" "sample::Box" (some (.ofCall none (Symbol.constructor "sample::Box").asPure [])),
        .assignField none "box" "content" (.ofInt 7), risky]
      [⟨TypeName.string, "caught", []⟩] none] }

/-- On the stack the object is not cleaned up, and keeps what its field holds. -/
theorem leaks_unwoundStack :
    (boxInTry.answers fun op => [op, (op.analyseEscape true).1].map fun op =>
      (op.run riskyHandler [] ()).1.toOption.map (·.leaks.length)) = some [[some 0, some 1]] := by
  decide +kernel

end ScopedIR
