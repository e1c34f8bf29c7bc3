import Mathlib.Data.List.Forall2
import ScopedIR.Escape.Placement
import ScopedIR.Proofs.Simulation

/-!
# What placing keeps

Placing goes through the code once and hands on what it has done so far. Whatever that is, the code it
puts in the place of an instruction is made in one way only: some clean-ups, and then the instruction
itself, whose opcode and escape fact may be others and whose nested lists are placed in turn.

Main definitions:

* `Yields`: every answer of a stateful computation satisfies a condition, from the states where an
  invariant holds;
* `Payload.Alike`: two payloads of the same shape whose nested lists are related one by one;
* `Escape.Restates`: what an instruction may become.

Main statements:

* `Yields.replaceListsM`: replacing the nested lists of a payload keeps its shape;
* `Operation.alike_analyseEscape`: a relation between code and placed code that holds of one restated
  instruction whose nested lists are related holds of every block.
-/

namespace ScopedIR

variable {ι κ σ α β : Type}

/-! ### Answers of stateful computations -/

/-- Run where `I` holds, the answer satisfies `post` and `I` holds afterwards. -/
def Yields (I : σ → Prop) (x : StateM σ α) (post : α → Prop) : Prop :=
  ∀ s, I s → post (x s).1 ∧ I (x s).2

variable {I : σ → Prop}

namespace Yields

theorem pure {a : α} {post : α → Prop} (h : post a) : Yields I (Pure.pure a) post :=
  fun _ hs => ⟨h, hs⟩

theorem bind {x : StateM σ α} {f : α → StateM σ β} {mid : α → Prop} {post : β → Prop}
    (hx : Yields I x mid) (hf : ∀ a, mid a → Yields I (f a) post) : Yields I (x >>= f) post :=
  fun s hs => hf (x s).1 (hx s hs).1 (x s).2 (hx s hs).2

variable {R : α → β → Prop} {f : α → StateM σ β}

/-- An optional computation yields an optional answer. -/
theorem mapM_option {o : Option α} (h : ∀ a ∈ o, Yields I (f a) (R a)) :
    Yields I (o.mapM f) (Option.Rel R o) := by
  cases o with
  | none => exact .pure .none
  | some a => exact .bind (h a rfl) fun b hb => .pure (.some hb)

/-- Computations in a row yield their answers in a row. -/
theorem mapM_list {l : List α} (h : ∀ a ∈ l, Yields I (f a) (R a)) :
    Yields I (l.mapM f) (List.Forall₂ R l) := by
  induction l with
  | nil => exact .pure .nil
  | cons a rest ih =>
    rw [List.mapM_cons]
    have hrest := ih fun b hb => h b (List.mem_cons_of_mem _ hb)
    exact .bind (h a List.mem_cons_self) fun b hb => .bind hrest fun bs hbs => .pure (.cons hb hbs)

end Yields

/-! ### Payloads of the same shape -/

section Alike

variable (R : List ι → List κ → Prop)

structure ChainVariable.Alike (v : ChainVariable ι) (w : ChainVariable κ) : Prop where
  name : w.name = v.name
  type : w.type = v.type
  setup : R v.setup w.setup

structure TryBlock.Alike (a : TryBlock ι) (b : TryBlock κ) : Prop where
  scope : b.scope = a.scope
  exception : b.exception = a.exception
  evaluation : R a.evaluation b.evaluation

structure FinallyBlock.Alike (a : FinallyBlock ι) (b : FinallyBlock κ) : Prop where
  scope : b.scope = a.scope
  evaluation : R a.evaluation b.evaluation

structure CaseBody.Alike (a : CaseBody ι) (b : CaseBody κ) : Prop where
  result : b.result = a.result
  evaluation : R a.evaluation b.evaluation

structure Case.Alike (a : Case ι) (b : Case κ) : Prop where
  scope : b.scope = a.scope
  kind : b.kind = a.kind
  bodyScope : b.bodyScope = a.bodyScope
  truth : b.condition.result = a.condition.result
  primitive : b.condition.primitive = a.condition.primitive
  condition : R a.condition.evaluation b.condition.evaluation
  body : a.body.Alike R b.body
  updates : R a.updates b.updates

/-- Two chains that differ in their nested lists only, which are related one by one. -/
structure Chain.Alike (c : Chain ι) (d : Chain κ) : Prop where
  kind : d.kind = c.kind
  scope : d.scope = c.scope
  result : d.result = c.result
  dispatch : d.dispatch = c.dispatch
  subject : Option.Rel (ChainVariable.Alike R) c.subject d.subject
  returning : Option.Rel (ChainVariable.Alike R) c.returning d.returning
  tryBlock : Option.Rel (TryBlock.Alike R) c.tryBlock d.tryBlock
  cases : List.Forall₂ (Case.Alike R) c.cases d.cases
  fallback : Option.Rel (CaseBody.Alike R) c.fallback d.fallback
  finallyBlock : Option.Rel (FinallyBlock.Alike R) c.finallyBlock d.finallyBlock

structure LogicalBlock.Alike (a : LogicalBlock ι) (b : LogicalBlock κ) : Prop where
  op : b.op = a.op
  left : b.left = a.left
  condition : b.condition = a.condition
  right : b.right = a.right
  result : b.result = a.result
  scope : b.scope = a.scope
  leftEvaluation : R a.leftEvaluation b.leftEvaluation
  rightEvaluation : R a.rightEvaluation b.rightEvaluation
  computation : R a.computation b.computation

/-- Two payloads that differ in their nested lists only, which are related one by one. -/
inductive Payload.Alike : Payload ι → Payload κ → Prop
  | plain : Alike .plain .plain
  | call (site : CallSite) : Alike (.call site) (.call site)
  | chain {c : Chain ι} {d : Chain κ} : c.Alike R d → Alike (.chain c) (.chain d)
  | logical {a : LogicalBlock ι} {b : LogicalBlock κ} : a.Alike R b → Alike (.logical a) (.logical b)

end Alike

variable {R : List ι → List κ → Prop}

/-! ### The nested lists of alike payloads -/

variable {P : α → β → Prop} {a : Option α} {b : Option β}

theorem isSome_of_rel (h : Option.Rel P a b) : b.isSome = a.isSome := by
  cases h <;> rfl

theorem elim_eq_of_rel {γ : Type} {f : α → γ} {g : β → γ} {c : γ} (h : Option.Rel P a b)
    (himp : ∀ x y, P x y → g y = f x) : b.elim c g = a.elim c f := by
  cases h with
  | none => rfl
  | some h => exact himp _ _ h

theorem forall₂_toList {f : α → ι} {g : β → κ} {Q : ι → κ → Prop} (h : Option.Rel P a b)
    (himp : ∀ x y, P x y → Q (f x) (g y)) : List.Forall₂ Q (a.map f).toList (b.map g).toList := by
  cases h with
  | none => exact .nil
  | some h => exact .cons (himp _ _ h) .nil

theorem Chain.Alike.lists {c : Chain ι} {d : Chain κ} (h : c.Alike R d) :
    List.Forall₂ R c.lists d.lists := by
  have hcases : List.Forall₂ R (c.cases.flatMap Case.lists) (d.cases.flatMap Case.lists) :=
    List.rel_flatMap h.cases fun _ _ hk =>
      .cons hk.condition (.cons hk.body.evaluation (.cons hk.updates .nil))
  unfold Chain.lists
  apply List.rel_append
  · apply List.rel_append
    · apply List.rel_append
      · apply List.rel_append
        · apply List.rel_append
          · exact forall₂_toList h.subject fun _ _ hv => hv.setup
          · exact forall₂_toList h.returning fun _ _ hv => hv.setup
        · exact forall₂_toList h.tryBlock fun _ _ hb => hb.evaluation
      · exact hcases
    · exact forall₂_toList h.fallback fun _ _ hb => hb.evaluation
  · exact forall₂_toList h.finallyBlock fun _ _ hb => hb.evaluation

theorem LogicalBlock.Alike.lists {a : LogicalBlock ι} {b : LogicalBlock κ} (h : a.Alike R b) :
    List.Forall₂ R a.lists b.lists :=
  .cons h.leftEvaluation (.cons h.rightEvaluation (.cons h.computation .nil))

theorem Payload.Alike.lists {p : Payload ι} {q : Payload κ} (h : p.Alike R q) :
    List.Forall₂ R p.lists q.lists := by
  cases h with
  | plain | call => exact .nil
  | chain hc => exact hc.lists
  | logical hb => exact hb.lists

theorem eq_of_rel {a b : Option α} {P : α → α → Prop} (h : Option.Rel P a b)
    (himp : ∀ x y, P x y → y = x) : b = a := by
  cases h with
  | none => rfl
  | some h => rw [himp _ _ h]

/-- Payloads of the same shape with the same lists are the same. -/
theorem Payload.Alike.eq {p q : Payload ι} (h : p.Alike (fun l r => r = l) q) : q = p := by
  cases h with
  | plain | call => rfl
  | @chain c d h =>
    have hvariable : ∀ v w : ChainVariable ι, v.Alike (fun l r => r = l) w → w = v := by
      rintro ⟨⟩ ⟨⟩ ⟨rfl, rfl, rfl⟩
      rfl
    have hcases : c.cases = d.cases := by
      rw [← List.forall₂_eq_eq_eq]
      refine h.cases.imp ?_
      rintro ⟨_, _, ⟨⟩, ⟨⟩⟩ ⟨_, _, ⟨⟩, ⟨⟩⟩ ⟨rfl, rfl, rfl, rfl, rfl, rfl, ⟨rfl, rfl⟩, rfl⟩
      rfl
    obtain ⟨⟩ := c
    obtain ⟨⟩ := d
    obtain ⟨rfl, rfl, rfl, rfl, hsubject, hreturning, htry, -, hfallback, hlast⟩ := h
    cases hcases
    cases eq_of_rel hsubject hvariable
    cases eq_of_rel hreturning hvariable
    cases eq_of_rel htry (by rintro ⟨⟩ ⟨⟩ ⟨rfl, rfl, rfl⟩; rfl)
    cases eq_of_rel hfallback (by rintro ⟨⟩ ⟨⟩ ⟨rfl, rfl⟩; rfl)
    cases eq_of_rel hlast (by rintro ⟨⟩ ⟨⟩ ⟨rfl, rfl⟩; rfl)
    rfl
  | @logical a b h =>
    obtain ⟨⟩ := a
    obtain ⟨⟩ := b
    obtain ⟨rfl, rfl, rfl, rfl, rfl, rfl, rfl, rfl, rfl⟩ := h
    rfl

namespace Yields

variable {f : List ι → StateM σ (List κ)}

/-- Replacing the lists of a chain keeps its shape. -/
theorem replaceListsM_chain {c : Chain ι} (h : ∀ l ∈ c.lists, Yields I (f l) (R l)) :
    Yields I (c.replaceListsM f) (c.Alike R) := by
  have hcase : ∀ k ∈ c.cases, ∀ l ∈ k.lists, Yields I (f l) (R l) := by
    intro k hk l hl
    apply h
    simp only [Chain.lists, List.mem_append, List.mem_flatMap]
    exact .inl (.inl (.inr ⟨k, hk, hl⟩))
  have hvariable : ∀ v : ChainVariable ι, v.setup ∈ c.lists → Yields I (do
      return { name := v.name, type := v.type, setup := ← f v.setup : ChainVariable κ })
      (v.Alike R) :=
    fun v hv => .bind (h _ hv) fun l hl => .pure ⟨rfl, rfl, hl⟩
  exact .bind (.mapM_option fun v hv => hvariable v (by simp_all [Chain.lists]))
    fun subject hsubject =>
    .bind (.mapM_option fun v hv => hvariable v (by simp_all [Chain.lists]))
    fun returning hreturning =>
    .bind (.mapM_option fun b hb => .bind (h b.evaluation (by simp_all [Chain.lists]))
      fun l hl => .pure ⟨rfl, rfl, hl⟩)
    fun tryBlock htry =>
    .bind (.mapM_list fun k hk => .bind (hcase k hk _ (by simp [Case.lists])) fun test htest =>
      .bind (hcase k hk _ (by simp [Case.lists])) fun body hbody =>
      .bind (hcase k hk _ (by simp [Case.lists])) fun updates hupdates =>
      .pure ⟨rfl, rfl, rfl, rfl, rfl, htest, ⟨rfl, hbody⟩, hupdates⟩)
    fun cases hcases =>
    .bind (.mapM_option fun b hb => .bind (h b.evaluation (by simp_all [Chain.lists]))
      fun l hl => .pure ⟨rfl, hl⟩)
    fun fallback hfallback =>
    .bind (.mapM_option fun b hb => .bind (h b.evaluation (by simp_all [Chain.lists]))
      fun l hl => .pure ⟨rfl, hl⟩)
    fun last hlast =>
    .pure ⟨rfl, rfl, rfl, rfl, hsubject, hreturning, htry, hcases, hfallback, hlast⟩

/-- Replacing the nested lists of a payload keeps its shape. -/
theorem replaceListsM {p : Payload ι} (h : ∀ l ∈ p.lists, Yields I (f l) (R l)) :
    Yields I (p.replaceListsM f) (p.Alike R) := by
  cases p with
  | plain => exact .pure .plain
  | call site => exact .pure (.call site)
  | chain c => exact .bind (replaceListsM_chain h) fun d hd => .pure (.chain hd)
  | logical b =>
    exact .bind (h b.leftEvaluation (by simp [Payload.lists, LogicalBlock.lists]))
      fun left hleft =>
      .bind (h b.rightEvaluation (by simp [Payload.lists, LogicalBlock.lists]))
      fun right hright =>
      .bind (h b.computation (by simp [Payload.lists, LogicalBlock.lists]))
      fun computation hcomputation =>
      .pure (.logical ⟨rfl, rfl, rfl, rfl, rfl, rfl, hleft, hright, hcomputation⟩)

end Yields

/-! ### Replacing mapped lists -/

section

variable {m : Type → Type} [Monad m] {ν : Type}

theorem option_mapM_map (g : α → β) (f : β → m ν) (o : Option α) :
    (o.map g).mapM f = o.mapM fun a => f (g a) := by
  cases o <;> rfl

variable [LawfulMonad m]

theorem Chain.replaceListsM_map (g : ι → κ) (f : List κ → m (List ν)) (c : Chain ι) :
    (c.map g).replaceListsM f = c.replaceListsM fun l => f (l.map g) := by
  unfold Chain.replaceListsM
  simp only [Chain.map, option_mapM_map, List.mapM_map]
  rfl

theorem Payload.replaceListsM_map (g : ι → κ) (f : List κ → m (List ν)) (p : Payload ι) :
    (p.map g).replaceListsM f = p.replaceListsM fun l => f (l.map g) := by
  cases p with
  | plain | call site => rfl
  | chain c => exact congrArg (· >>= _) (c.replaceListsM_map g f)
  | logical b => rfl

end

/-! ### What an instruction becomes -/

namespace Escape

/-- The opcodes that allocate on the heap. -/
def Allocates (op : Opcode) : Prop := op = .allocObject ∨ op = .loadLiteral

/-- The opcodes that count references to an object or register it. -/
def Counts (op : Opcode) : Prop := op = .retain ∨ op = .release ∨ op = .scopeRegister

/-- The instruction that drops the references in the fields of an object. -/
def cleanup (object : String) : Instr := { opcode := .stackCleanup, operands := [object] }

/-- What placing makes of an instruction, its payload apart: instructions to put before it, the
instruction that stands for it, and what is done afterwards. -/
inductive Restated (sol : Solution) (placed : Placed) (i : Instr) :
    List Instr → Instr → Placed → Prop
  /-- A confined allocation moves to the stack. -/
  | stack {name : String} {opcode : Opcode} (halloc : Allocates i.opcode)
      (hescape : i.escape = none) (hresult : i.result = some name)
      (hlevel : sol.levels.level name = .none) (hopcode : i.opcode.stackCounterpart = some opcode) :
      Restated sol placed i []
        { i with opcode, escape := some { level := .none, lifetime := sol.scopes.get? name } }
        { onStack := Holders.add placed.onStack name, changed := true }
  /-- An allocation that escapes stays where it is. -/
  | heap {name : String} (halloc : Allocates i.opcode)
      (hescape : i.escape = none) (hresult : i.result = some name)
      (hlevel : sol.levels.level name ≠ .none) :
      Restated sol placed i []
        { i with escape := some { level := sol.levels.level name, lifetime := sol.scopes.get? name } }
        { placed with changed := true }
  /-- Counting and registering an object on the stack is only noted. -/
  | marker {object : String} {opcode : Opcode}
      (hcount : Counts i.opcode)
      (hobject : i.object? = some object) (hstack : object ∈ placed.onStack)
      (hopcode : i.opcode.stackCounterpart = some opcode) :
      Restated sol placed i [] (i.withOpcode opcode) { placed with changed := true }
  /-- Objects on the stack are cleaned up before their scope exits. -/
  | exit (hexit : i.opcode = .scopeExit) :
      Restated sol placed i ((cleanups sol placed (i.scope?.getD "")).map cleanup) i
        { placed with changed := true }
  /-- Anything else stays as it is. -/
  | same (halloc : Allocates i.opcode → i.escape = none → i.result = none)
      (hcount : Counts i.opcode →
        ∀ object, i.object? = some object → object ∉ placed.onStack)
      (hexit : i.opcode = .scopeExit → cleanups sol placed (i.scope?.getD "") = []) :
      Restated sol placed i [] i placed

variable {i : Instr} {opcode : Opcode}

/-- What becomes of an instruction that allocates on the heap. -/
theorem own_alloc (sol : Solution) (placed : Placed) {name : String} (h : Allocates i.opcode)
    (hescape : i.escape = none) (hresult : i.result = some name)
    (hopcode : i.opcode.stackCounterpart = some opcode) :
    own sol i placed =
      let fact : EscapeFact := { level := sol.levels.level name, lifetime := sol.scopes.get? name }
      if fact.isStackCandidate then
        (([], { i with opcode, escape := some fact }),
          { onStack := Holders.add placed.onStack name, changed := true })
      else (([], { i with escape := some fact }), { placed with changed := true }) := by
  have hown : own sol i placed = (show Place (List Instr × Instr) from
      let fact : EscapeFact := { level := sol.levels.level name, lifetime := sol.scopes.get? name }
      if fact.isStackCandidate then do
        set { onStack := Holders.add placed.onStack name, changed := true : Placed }
        return ([], { i with opcode, escape := some fact })
      else do
        set { placed with changed := true }
        return ([], { i with escape := some fact })) placed := by
    rcases h with h | h <;>
      · rw [h] at hopcode
        cases hopcode
        simp only [own, h, hescape, hresult]
        rfl
  rw [hown]
  dsimp only
  split <;> rfl

/-- What becomes of an instruction that counts references or registers an object. -/
theorem own_count (sol : Solution) (placed : Placed) (h : Counts i.opcode)
    (hopcode : i.opcode.stackCounterpart = some opcode) :
    own sol i placed =
      if ∃ object ∈ i.object?, object ∈ placed.onStack then
        (([], i.withOpcode opcode), { placed with changed := true })
      else (([], i), placed) := by
  rcases h with h | h | h <;>
  · rw [h] at hopcode
    cases hopcode
    cases hobject : i.object? with
    | none =>
      simp [own, h, hobject]
      rfl
    | some object =>
      simp only [own, h, hobject]
      change (if object ∈ placed.onStack then _ else _ : Place _) placed = _
      by_cases hstack : object ∈ placed.onStack
      · simp [hstack]
        rfl
      · simp [hstack]
        rfl

/-- What becomes of an instruction that exits a scope. -/
theorem own_exit (sol : Solution) (placed : Placed) (h : i.opcode = .scopeExit) :
    own sol i placed =
      if (cleanups sol placed (i.scope?.getD "")).isEmpty then (([], i), placed)
      else (((cleanups sol placed (i.scope?.getD "")).map cleanup, i),
        { placed with changed := true }) := by
  have hown : own sol i placed = (show Place (List Instr × Instr) from
      if (cleanups sol placed (i.scope?.getD "")).isEmpty then return ([], i)
      else do
        set { placed with changed := true }
        return ((cleanups sol placed (i.scope?.getD "")).map cleanup, i)) placed := by
    simp only [own, h]
    rfl
  rw [hown]
  dsimp only
  split <;> rfl

/-- Placing does nothing else to an instruction. -/
theorem restated_own (sol : Solution) (placed : Placed) (i : Instr) :
    Restated sol placed i (own sol i placed).1.1 (own sol i placed).1.2 (own sol i placed).2 := by
  by_cases halloc : Allocates i.opcode
  · have hcount : ¬ Counts i.opcode := by
      rcases halloc with h | h <;> simp [Counts, h]
    have hexit : i.opcode ≠ .scopeExit := by
      rcases halloc with h | h <;> simp [h]
    obtain ⟨opcode, hopcode⟩ : ∃ opcode, i.opcode.stackCounterpart = some opcode := by
      rcases halloc with h | h <;> exact ⟨_, congrArg Opcode.stackCounterpart h⟩
    by_cases hnew : i.escape = none ∧ ∃ name, i.result = some name
    · obtain ⟨hescape, name, hresult⟩ := hnew
      rw [own_alloc sol placed halloc hescape hresult hopcode]
      by_cases hlevel : sol.levels.level name = .none
      · simp only [hlevel, EscapeFact.isStackCandidate, decide_true, if_true]
        exact .stack halloc hescape hresult hlevel hopcode
      · simp only [hlevel, EscapeFact.isStackCandidate, decide_false, if_false, Bool.false_eq_true]
        exact .heap halloc hescape hresult hlevel
    · have hold : i.escape = none → i.result = none := by
        intro hescape
        cases hresult : i.result with
        | none => rfl
        | some name => exact absurd ⟨hescape, name, hresult⟩ hnew
      have hown : own sol i placed = (([], i), placed) := by
        cases hescape : i.escape with
        | some fact => rcases halloc with h | h <;> simp only [own, h, hescape] <;> rfl
        | none =>
          rcases halloc with h | h <;> simp only [own, h, hescape, hold hescape] <;> rfl
      rw [hown]
      exact .same (fun _ => hold) (fun h => absurd h hcount) fun h => absurd h hexit
  by_cases hcount : Counts i.opcode
  · obtain ⟨opcode, hopcode⟩ : ∃ opcode, i.opcode.stackCounterpart = some opcode := by
      rcases hcount with h | h | h <;> exact ⟨_, congrArg Opcode.stackCounterpart h⟩
    have hexit : i.opcode ≠ .scopeExit := by
      rcases hcount with h | h | h <;> simp [h]
    rw [own_count sol placed hcount hopcode]
    split
    · next h =>
      obtain ⟨object, hobject, hstack⟩ := h
      exact .marker hcount hobject hstack hopcode
    · next h =>
      exact .same (fun h => absurd h halloc) (fun _ object hobject hstack => h ⟨object, hobject, hstack⟩)
        fun h => absurd h hexit
  by_cases hexit : i.opcode = .scopeExit
  · rw [own_exit sol placed hexit]
    split
    · next hnone =>
      exact .same (fun h => absurd h halloc) (fun h => absurd h hcount)
        fun _ => List.isEmpty_iff.1 hnone
    · exact .exit hexit
  · have hown : own sol i = pure ([], i) := by
      unfold own
      split <;> simp_all [Allocates, Counts]
    rw [hown]
    exact .same (fun h => absurd h halloc) (fun h => absurd h hcount) fun h => absurd h hexit

end Escape

open Escape

/-! ### What code becomes -/

/-- Lists placed one after the other make up the code. -/
theorem Escape.yields_concat {sol : Solution} {R : List Instr → List Instr → Prop} (hnil : R [] [])
    (happend : ∀ {l l' r r'}, R l l' → R r r' → R (l ++ r) (l' ++ r')) {l : List Instr}
    {I : Placed → Prop} (h : ∀ i ∈ l, Yields I (i.place sol) (R [i])) :
    Yields I (placeAll sol l) (R l) := by
  have hall : Yields I ((l.map (Instr.place sol)).mapM id)
      (List.Forall₂ (fun i code => R [i] code) l) := by
    rw [List.mapM_map]
    exact .mapM_list h
  have hflat : ∀ codes, List.Forall₂ (fun i code => R [i] code) l codes → R l codes.flatten := by
    intro codes hcodes
    clear h hall
    induction hcodes with
    | nil => exact hnil
    | cons hi _ ih => exact happend hi ih
  exact hall.bind fun codes hcodes => .pure (hflat codes hcodes)

/-- A relation between code and what is put in its place holds of an instruction if it holds of every
instruction whose nested lists are related. -/
theorem Instr.yields_place (sol : Solution) {R : List Instr → List Instr → Prop} (hnil : R [] [])
    (happend : ∀ {l l' r r'}, R l l' → R r r' → R (l ++ r) (l' ++ r'))
    (hstep : ∀ {i j before placed placed' payload}, Restated sol placed i before j placed' →
      i.payload.Alike R payload → R [i] (before ++ [{ j with payload }])) (i : Instr) :
    Yields (fun _ => True) (i.place sol) (R [i]) := by
  induction i using Instr.nested_induction with
  | h i ih =>
    rw [place_eq, step]
    have hown : Yields (fun _ => True) (own sol i) fun r =>
        ∃ placed placed', Restated sol placed i r.1 r.2 placed' :=
      fun placed _ => ⟨⟨placed, _, restated_own sol placed i⟩, trivial⟩
    have hpayload : Yields (fun _ => True) ((i.payload.map (Instr.place sol)).replaceListsM concat)
        (i.payload.Alike R) := by
      rw [Payload.replaceListsM_map]
      exact .replaceListsM fun l hl => yields_concat hnil happend (ih l hl)
    exact hown.bind fun r ⟨placed, placed', hr⟩ =>
      hpayload.bind fun payload hp => .pure (hstep hr hp)

/-! ### What a body becomes -/

/-- Two blocks that differ in their instructions only, which are related. -/
structure Block.Alike (R : List Instr → List Instr → Prop) (a b : Block) : Prop where
  label : b.label = a.label
  succs : b.succs = a.succs
  preds : b.preds = a.preds
  instrs : R a.instrs b.instrs

/-- Two bodies with alike blocks at the same positions, under the same labels. -/
structure Body.Alike (R : List Instr → List Instr → Prop) (a b : Body) : Prop where
  blocks : List.Forall₂ (Block.Alike R) a.toList b.toList
  index : b.index = a.index

/-- Alike bodies with the same instructions are the same. -/
theorem Body.Alike.eq {a b : Body} (h : a.Alike (fun l r => r = l) b) : b = a := by
  have hblocks : a.toList = b.toList := by
    rw [← List.forall₂_eq_eq_eq]
    refine h.blocks.imp ?_
    rintro ⟨⟩ ⟨⟩ ⟨rfl, rfl, rfl, rfl⟩
    rfl
  obtain ⟨⟨⟨blocks⟩⟩, index⟩ := a
  obtain ⟨⟨⟨blocks'⟩⟩, index'⟩ := b
  cases hblocks
  cases h.index
  rfl

/-- Replacing the instructions of a body keeps its blocks. -/
theorem Body.yields_replaceInstrsM {R : List Instr → List Instr → Prop}
    {f : List Instr → StateM σ (List Instr)} {body : Body}
    (h : ∀ block ∈ body.toList, Yields I (f block.instrs) (R block.instrs)) :
    Yields I (body.replaceInstrsM f) (body.Alike R) := by
  have hblocks : Yields I (body.toList.mapM fun block => do
      let instrs ← f block.instrs
      return { block with instrs }) (List.Forall₂ (Block.Alike R) body.toList) :=
    .mapM_list fun block hblock => .bind (h block hblock) fun l hl => .pure ⟨rfl, rfl, rfl, hl⟩
  exact hblocks.bind fun blocks hblocks => .pure ⟨hblocks, rfl⟩

/-- A relation between code and what is put in its place holds of the blocks of an operation and what
they become if it holds of every instruction whose nested lists are related. -/
theorem Operation.alike_analyseEscape (pureCalls : Bool) (op : Operation)
    {R : List Instr → List Instr → Prop} (hnil : R [] [])
    (happend : ∀ {l l' r r'}, R l l' → R r r' → R (l ++ r) (l' ++ r'))
    (hstep : ∀ {i j before placed placed' payload},
      Restated (op.escapeSolution pureCalls) placed i before j placed' →
      i.payload.Alike R payload → R [i] (before ++ [{ j with payload }])) :
    op.body.Alike R (op.analyseEscape pureCalls).1.body :=
  (Body.yields_replaceInstrsM (fun _ _ => yields_concat hnil happend fun i _ =>
    i.yields_place (op.escapeSolution pureCalls) hnil happend hstep) {} trivial).1

theorem rel_getElem? {l : List α} {r : List β} (h : List.Forall₂ P l r) (k : Nat) :
    Option.Rel P l[k]? r[k]? := by
  induction h generalizing k with
  | nil => exact .none
  | cons hab _ ih =>
    cases k with
    | zero => exact .some hab
    | succ k => exact ih k

namespace Body.Alike

variable {R : List Instr → List Instr → Prop} {a b : Body}

theorem get? (h : a.Alike R b) (k : Nat) :
    Option.Rel (Block.Alike R) (a.blocks.get? k) (b.blocks.get? k) := by
  have hrel := rel_getElem? h.blocks k
  rwa [show a.toList = a.blocks.slots.toList from rfl, show b.toList = b.blocks.slots.toList from rfl,
    Array.getElem?_toList, Array.getElem?_toList] at hrel

theorem size (h : a.Alike R b) : b.size = a.size := by
  have hlength : a.blocks.slots.toList.length = b.blocks.slots.toList.length := h.blocks.length_eq
  rw [Array.length_toList, Array.length_toList] at hlength
  exact hlength.symm

theorem getD (h : a.Alike R b) (hnil : R [] []) (k : Nat) :
    Block.Alike R ((a.blocks.get? k).getD default) ((b.blocks.get? k).getD default) := by
  generalize a.blocks.get? k = x, b.blocks.get? k = y, h.get? k = hrel
  cases hrel with
  | none => exact ⟨rfl, rfl, rfl, hnil⟩
  | some hblock => exact hblock

theorem succs (h : a.Alike R b) : b.succs = a.succs := by
  funext k
  have helim : ∀ body : Body, body.succs k = (body.blocks.get? k).elim [] (·.succs) := by
    intro body
    unfold Body.succs
    cases body.blocks.get? k <;> rfl
  rw [helim, helim]
  exact elim_eq_of_rel (h.get? k) fun _ _ hblock => hblock.succs

end Body.Alike

end ScopedIR
