import ScopedIR.Proofs.IntegerArithmetic
import ScopedIR.Proofs.LoweringPreserves

/-!
# Loops take their values in turn

A loop over a list asks it for an iterator, and goes on until the iterator has passed the last item. The
iterator stands on the items that the list had at first, so the rounds do not depend on what becomes of
the list. A counting loop compares its ends once and goes one way, by its step or by one, until its
variable has passed the last value. It counts on after its last round, so the value behind the last one
must be an integer as well.

A run that counts references also depends on who holds what a loop works with. It can fail when the
block hides the variable of the loop, or assigns the one that a counting loop ends with.

Main definition: `Rounds`. Main statements: `Evaluator.forIn_run` and `Evaluator.forRange_run`.
-/

namespace ScopedIR

variable {σ α β : Type} {M M1 M2 : Machine σ} {x : String}

/-! ### Built-in methods -/

namespace Builtin

/-- The second computation answers what the first one answers. -/
def Agrees (a b : Except Fault α) : Prop := ∀ y, a = .ok y → b = .ok y

theorem Agrees.refl (a : Except Fault α) : Agrees a a := fun _ h => h

theorem Agrees.failed {e : Fault} {a : Except Fault α} : Agrees (.error e) a := by
  rintro y ⟨⟩

theorem Agrees.bind {a b : Except Fault α} {f g : α → Except Fault β} (h : Agrees a b)
    (h' : ∀ y, Agrees (f y) (g y)) : Agrees (a >>= f) (b >>= g) := by
  intro z hz
  cases a with
  | error e => cases hz
  | ok y => exact h y rfl ▸ h' y z hz

/-- How the operands are called has no part in an answer, so that runs do what evaluation does. -/
theorem handler_ignoresNames : handler.IgnoresNames := by
  intro site receiver args calls reply calls' h
  suffices h' : Agrees (respond site.anonymous receiver args) (respond site receiver args) from
    Prod.ext (h' _ (congrArg Prod.fst h)) (show calls + 1 = calls' from congrArg Prod.snd h)
  clear h
  unfold respond staticCall objectCall listCall iteratorCall integerCall booleanCall stringCall
    otherCall divide exact integerArg booleanArg stringArg Builtin.failed CallSite.anonymous
  dsimp only
  -- the two sides differ in the texts of failures only
  repeat' with_reducible first
    | exact .refl _
    | exact .failed
    | refine .bind ?_ fun _ => ?_
    | split

end Builtin

/-! ### Rounds -/

/-- Objects other than iterators stay as they are. -/
def Heap.Sustains (h h' : Heap) : Prop :=
  ∀ id o, h.get? id = some o → h'.get? id = some o ∨ ∃ items next, o.value = .iterator items next

theorem Heap.Sustains.refl (h : Heap) : h.Sustains h := fun _ _ => .inl

theorem Heap.Sustains.trans {h h1 h2 : Heap} (hk : h.Sustains h1) (hk' : h1.Sustains h2) :
    h.Sustains h2 :=
  fun id o ho => (hk id o ho).elim (hk' id o) .inr

/-- The second state is the first one apart from the variable `x`, iterators and new objects. -/
structure Proceeds (x : String) (M M' : Machine σ) : Prop where
  vars : ∀ y, y ≠ x → M'.vars.get? y = M.vars.get? y
  bound : (M.vars.get? x).isSome → (M'.vars.get? x).isSome
  objects : M.heap.Sustains M'.heap

namespace Proceeds

theorem trans (h : Proceeds x M M1) (h' : Proceeds x M1 M2) : Proceeds x M M2 where
  vars y hy := (h'.vars y hy).trans (h.vars y hy)
  bound hx := h'.bound (h.bound hx)
  objects := h.objects.trans h'.objects

theorem insert (x : String) (b : Binding) (M : Machine σ) :
    Proceeds x M { M with vars := M.vars.insert x b } where
  vars _ hy := FinMap.get?_insert_ne _ hy.symm _
  bound _ := Option.isSome_iff_exists.2 ⟨b, FinMap.get?_insert_self _ _ _⟩
  objects := .refl _

end Proceeds

/-- The second state is the first one apart from iterators and new objects. -/
def Grows (M M' : Machine σ) : Prop := M'.vars = M.vars ∧ M.heap.Sustains M'.heap

theorem Grows.refl (M : Machine σ) : Grows M M := ⟨rfl, .refl _⟩

theorem Grows.trans (h : Grows M M1) (h' : Grows M1 M2) : Grows M M2 :=
  ⟨h'.1.trans h.1, h.2.trans h'.2⟩

theorem Grows.proceeds (h : Grows M M1) (x : String) : Proceeds x M M1 :=
  ⟨fun y _ => by rw [h.1], by rw [h.1]; exact id, h.2⟩

/-- A block is evaluated to its end while the variable of the loop is bound to the value `v`, and only
the loop itself goes on before and behind it. -/
def Round (x : String) (A : Evaluation σ Completion) (v : Value) (M M' : Machine σ) : Prop :=
  ∃ M1 M2 id, Proceeds x M M1 ∧ M1.vars.get? x = some (.object id) ∧ M1.heap.value id = .ok v ∧
    A.run M1 = .ok (.ok .next) M2 ∧ Proceeds x M2 M'

/-- A loop has one round for each value in turn. -/
def Rounds (x : String) (A : Evaluation σ Completion) : List Value → Machine σ → Machine σ → Prop
  | [], M, M' => Proceeds x M M'
  | v :: rest, M, M' => ∃ M1, Round x A v M M1 ∧ Rounds x A rest M1 M'

/-- The evaluation comes to its end wherever `S` holds, and `S` holds then. The variable `x` is bound
there and stays as it is, and so do all objects but lists. -/
structure GoesOn (S : Machine σ → Prop) (x : String) (A : Evaluation σ Completion) : Prop where
  stable : ∀ M M', S M → Proceeds x M M' → S M'
  bound : ∀ M, S M → (M.vars.get? x).isSome
  ends : ∀ M, S M → ∃ M', A.run M = .ok (.ok .next) M' ∧ S M' ∧ M'.vars.get? x = M.vars.get? x ∧
    ∀ id v, M.heap.value id = .ok v → v.typeName ≠ TypeName.list → M'.heap.value id = .ok v

/-! ### Steps of evaluation -/

theorem Heap.value_alloc (h : Heap) (v : Value) (owned : Bool) :
    (h.alloc v owned).value h.next = .ok v :=
  Heap.value_eq_ok_iff.2 ⟨_, by rw [Heap.alloc, Heap.get?_add, if_pos rfl], rfl, rfl⟩

theorem FinMap.within_insert {κ : Type} [DecidableEq κ] {m outer : FinMap κ α} {k : κ}
    (hk : (outer.get? k).isSome) (v : α) : m.within (outer.insert k v) = m.within outer := by
  have hcontains : ∀ k', (outer.insert k v).contains k' = outer.contains k' := by
    intro k'
    unfold contains
    rw [get?_insert]
    split
    · next h => rw [← h, hk]; rfl
    · rfl
  simp only [within, hcontains]

namespace Evaluation

variable {A : Evaluation σ α} {B : α → Evaluation σ β} {a : Exec σ α} {r : Except Binding α} {y : α}

theorem bind_run (h : A.run M = .ok (.ok y) M1) : (A >>= B).run M = (B y).run M1 := Exec.bind_ok h

theorem act_run (h : a M = .ok y M1) : (act a).run M = .ok (.ok y) M1 := Exec.bind_ok h

theorem confined_run (h : A.run M = .ok r M1) :
    (confined A).run M = .ok r { M1 with vars := M1.vars.within M.vars } := by
  show (A.run >>= fun r => _) M = _
  rw [Exec.bind_ok h]
  rfl

theorem confined_eq_ok (h : (confined A).run M = .ok r M2) :
    ∃ M1, A.run M = .ok r M1 ∧ M2 = { M1 with vars := M1.vars.within M.vars } := by
  obtain ⟨r', M1, hA, hend⟩ := Exec.bind_eq_ok.1 (show (A.run >>= fun r => _) M = _ from h)
  cases hend
  exact ⟨M1, hA, rfl⟩

theorem assign_run {b : Binding} (hx : (M.vars.get? x).isSome) :
    (assign x b).run M = .ok (.ok ()) { M with vars := M.vars.insert x b } := by
  obtain ⟨c, hc⟩ := Option.isSome_iff_exists.1 hx
  apply act_run
  rw [Exec.bind_ok (rfl : (get : Exec σ _) M = .ok M M), hc]
  rfl

theorem lookup_run {b : Binding} (hx : M.vars.get? x = some b) : (lookup x).run M = .ok (.ok b) M := by
  apply act_run
  rw [Exec.lookup, Exec.bind_ok (rfl : (get : Exec σ _) M = .ok M M), Machine.lookup, hx]
  rfl

theorem valuesOf_single {id : ObjectId} {v : Value} (hv : M.heap.value id = .ok v) :
    valuesOf [.object id] M = .ok [some v] M := by
  have hvalue : M.valueOf (.object id) = .ok (some v) := by
    rw [Machine.valueOf, hv]
    rfl
  rw [valuesOf, Exec.bind_ok (rfl : (get : Exec σ _) M = .ok M M), hvalue]
  · rfl
  · simp

variable {test : Evaluation σ Bool} {round block : Evaluation σ Completion} {l : List Value}
  {I : Nat → Machine σ → Prop}

/-- The rounds of a loop take the values that are left, if `I k` holds where `k` of them were taken: the
test holds while one is left, and a round takes it. -/
theorem repeatWhile_run
    (htest : ∀ k M, I k M → ∃ M1, test.run M = .ok (.ok (decide (k < l.length))) M1 ∧
      Proceeds x M M1 ∧ I k M1)
    (hround : ∀ k M (hk : k < l.length), I k M → ∃ M1, round.run M = .ok (.ok .next) M1 ∧
      Round x block l[k] M M1 ∧ I (k + 1) M1)
    {n k : Nat} (hn : l.length - k < n) (hI : I k M) :
    ∃ M', (repeatWhile test round n).run M = .ok (.ok .next) M' ∧
      Rounds x block (l.drop k) M M' := by
  induction n generalizing M k with
  | zero => cases hn
  | succ n ih =>
    obtain ⟨M1, htrue, hM, hI1⟩ := htest k M hI
    by_cases hk : k < l.length
    · rw [decide_eq_true hk] at htrue
      obtain ⟨M2, hrun, ⟨M3, M4, id, hM1, hx, hv, hblock, hM4⟩, hI2⟩ := hround k M1 hk hI1
      obtain ⟨M', hrest, hrounds⟩ := ih (by omega) hI2
      rw [List.drop_eq_getElem_cons hk]
      exact ⟨M', (bind_run htrue).trans ((bind_run hrun).trans hrest), M2,
        ⟨M3, M4, id, hM.trans hM1, hx, hv, hblock, hM4⟩, hrounds⟩
    · rw [decide_eq_false hk] at htrue
      rw [List.drop_eq_nil_of_le (Nat.le_of_not_lt hk)]
      exact ⟨_, bind_run htrue, hM⟩

end Evaluation

namespace Evaluator

open Evaluation

variable {E : Evaluator Nat} {M M1 : Machine Nat} {id it : ObjectId} {v w v' : Value} {f : Symbol}
  {o : CallOutcome} {type : String} {values : List (Option Value)} (hE : E.handler = Builtin.handler)

include hE

/-- A built-in method is called. -/
theorem send_run (args : List Binding) (hv : M.heap.value id = .ok v)
    (hargs : valuesOf args M = .ok values M)
    (h : Builtin.respond (CallSite.ofSymbol E.types "" f []) (.object v) values =
      .ok ⟨o, .object v'⟩) :
    (E.send (some (.object id)) f args).run M =
      (conclude (CallSite.ofSymbol E.types "" f []) o).run
        { M with heap := (M.heap.setValue id v').2, calls := M.calls + 1 } := by
  obtain ⟨p, hp, hf, -⟩ := Heap.value_eq_ok_iff.1 hv
  have hreceiver : receiverOf (some (.object id)) M = .ok (.object v, some id) M := by
    unfold receiverOf
    dsimp only
    rw [Exec.bind_ok (rfl : (get : Exec Nat _) M = .ok M M), hv]
    rfl
  have hask : Exec.ask E.handler (CallSite.ofSymbol E.types "" f []) (.object v) values M =
      .ok ⟨o, .object v'⟩ { M with calls := M.calls + 1 } := by
    rw [hE]
    exact congrArg (Exec.ofExcept · { M with calls := M.calls + 1 }) h
  have hrenew : renew (some id) (.object v') { M with calls := M.calls + 1 } =
      .ok () { M with heap := (M.heap.setValue id v').2, calls := M.calls + 1 } := by
    unfold renew Exec.onHeap Heap.setValue
    dsimp only
    rw [Heap.updateLive_eq hp hf]
  unfold send Evaluation.call
  rw [bind_run (act_run hreceiver), bind_run (act_run hargs), bind_run (act_run hask),
    bind_run (act_run hrenew)]

/-- A built-in method that answers an object. Only an iterator may become another value. -/
theorem ask_run (args : List Binding) (hv : M.heap.value id = .ok v) (f : Symbol)
    (hret : f.returns ≠ TypeName.void) (hargs : valuesOf args M = .ok values M)
    (h : Builtin.respond (CallSite.ofSymbol E.types "" f []) (.object v) values =
      .ok ⟨.object w, .object v'⟩) (hv' : v' = v ∨ ∃ items next, v = .iterator items next) :
    ∃ M' a, (E.ask (.object id) f args).run M = .ok (.ok (.object a)) M' ∧ Grows M M' ∧
      M'.heap.value id = .ok v' ∧ M'.heap.value a = .ok w := by
  have hsend := send_run hE args hv hargs h
  obtain ⟨o, ho, hf, rfl⟩ := Heap.value_eq_ok_iff.1 hv
  rw [Heap.setValue, Heap.updateLive_eq ho hf] at hsend
  have hself := Heap.get?_modify_self (f := fun o => { o with value := v' }) ho
  have hother : ∀ b, id ≠ b → _ := fun b hb =>
    Heap.get?_modify_ne (f := fun o => { o with value := v' }) (h := M.heap) hb
  generalize (M.heap.modify id fun o => { o with value := v' }) = heap at hsend hself hother
  refine ⟨{ M with heap := heap.alloc w false, calls := M.calls + 1 }, heap.next, ?_,
    ⟨rfl, fun b p hp => ?_⟩, ?_, ?_⟩
  · unfold conclude resultOf at hsend
    rw [show (CallSite.ofSymbol E.types "" f []).hasResult = true from decide_eq_true hret] at hsend
    unfold ask
    rw [bind_run hsend]
    rfl
  · by_cases hb : id = b
    · subst hb
      cases ho.symm.trans hp
      refine hv'.imp_left fun hv' => ?_
      subst hv'
      exact Heap.get?_add_of_some hself
    · exact .inl (Heap.get?_add_of_some ((hother b hb).trans hp))
  · exact Heap.value_eq_ok_iff.2 ⟨_, Heap.get?_add_of_some hself, hf, rfl⟩
  · exact Heap.value_alloc _ _ _

theorem truth_run {b : Bool} (hv : M.heap.value id = .ok (.boolean b)) :
    (E.truth type (.object id)).run M = .ok (.ok b) { M with calls := M.calls + 1 } := by
  have hsend := send_run hE [] (f := (Symbol.method type "_true" TypeName.boolean).asPure)
    (o := .primitive b) hv rfl rfl
  rw [Heap.setValue_self hv] at hsend
  have hask : (E.ask (.object id) (Symbol.method type "_true" TypeName.boolean).asPure []).run M =
      .ok (.ok (.primitive b)) { M with calls := M.calls + 1 } := bind_run hsend
  exact bind_run hask

variable {S : Machine Nat → Prop} {A : Evaluation Nat Completion}

/-! ### Loops over lists -/

/-- A loop over a list takes the items that the list has when the loop begins. -/
theorem forIn_run {V : Visible} {collection : Expr}
    {body : List Stmt} {items : List Value}
    (hA : GoesOn S x (confined (E.block (V.insert x type) body))) (htype : type ≠ TypeName.void)
    (hlist : (E.valueOf collection).run M = .ok (.ok (.object id)) M1)
    (hitems : M1.heap.value id = .ok (.list items))
    (hS : S { M1 with vars := M1.vars.insert x .null }) (hn : items.length < E.rounds)
    (token : Option Location) :
    ∃ M2 M3, Proceeds x M1 M2 ∧
      Rounds x (confined (E.block (V.insert x type) body)) items M2 M3 ∧
      (E.stmt V (.forIn token x type collection body)).run M =
        .ok (.ok .next) { M3 with vars := M3.vars.within M.vars } := by
  obtain ⟨M2, it, hiterator, hM2, -, hit⟩ := ask_run hE [] (w := .iterator items 0) hitems
    (Symbol.method collection.type "iterator" TypeName.iterator).asPure
    (show TypeName.iterator ≠ TypeName.void by decide) rfl rfl (.inl rfl)
  have hM : Proceeds x { M1 with vars := M1.vars.insert x .null }
      { M2 with vars := M2.vars.insert x .null } :=
    hM2.1 ▸ ⟨fun _ _ => rfl, fun h => h, hM2.2⟩
  suffices hrun : ∃ M3, (repeatWhile
      (do E.truth TypeName.boolean (← E.ask (.object it)
        (Symbol.method TypeName.iterator "hasNext" TypeName.boolean).asPure []))
      (confined do
        assign x (← E.ask (.object it) (Symbol.method TypeName.iterator "next" type) [])
        E.block (V.insert x type) body) E.rounds).run _ = .ok (.ok .next) M3 ∧ Rounds x _ items _ M3 by
    obtain ⟨M3, hrun, hrounds⟩ := hrun
    refine ⟨_, M3, (hM2.proceeds x).trans (.insert x .null M2), hrounds, ?_⟩
    rw [stmt]
    exact confined_run ((bind_run hlist).trans ((bind_run hiterator).trans
      ((bind_run rfl).trans hrun)))
  -- after `k` rounds the iterator stands on item `k`
  refine repeatWhile_run (l := items) (I := fun k M => S M ∧ M.heap.value it = .ok (.iterator items k))
    ?_ ?_ (k := 0) hn ⟨hA.stable _ _ hS hM, hit⟩
  · rintro k M ⟨hS, hit⟩
    obtain ⟨M1, a, hask, hM, hit1, ha⟩ := ask_run hE [] hit
      (Symbol.method TypeName.iterator "hasNext" TypeName.boolean).asPure (by decide) rfl rfl (.inl rfl)
    have hM1 : Grows M { M1 with calls := M1.calls + 1 } := hM
    exact ⟨_, (bind_run hask).trans (truth_run hE ha), hM1.proceeds x,
      hA.stable _ _ hS (hM1.proceeds x), hit1⟩
  · rintro k M hk ⟨hS, hit⟩
    have hrespond : Builtin.respond (CallSite.ofSymbol E.types ""
        (Symbol.method TypeName.iterator "next" type) []) (.object (.iterator items k)) [] =
        .ok ⟨.object items[k], .object (.iterator items (k + 1))⟩ := by
      simp [Builtin.respond, Builtin.objectCall, Builtin.iteratorCall, CallSite.ofSymbol,
        Symbol.method, hk]
    obtain ⟨M1, a, hask, hM, hit1, ha⟩ := ask_run hE [] hit _ htype rfl hrespond (.inr ⟨_, _, rfl⟩)
    have hx := (hM.proceeds x).bound (hA.bound M hS)
    have hM1 := (hM.proceeds x).trans (.insert x (.object a) M1)
    obtain ⟨M2, hrun, hS2, -, hkeep⟩ := hA.ends _ (hA.stable _ _ hS hM1)
    obtain ⟨M3, hblock, rfl⟩ := confined_eq_ok hrun
    refine ⟨_, ?_, ⟨_, _, a, hM1, FinMap.get?_insert_self _ _ _, ha, hrun, (Grows.refl _).proceeds x⟩,
      hS2, hkeep _ _ hit1 (show TypeName.iterator ≠ TypeName.list by decide)⟩
    have hround : (E.ask (.object it) (Symbol.method TypeName.iterator "next" type) [] >>= fun b =>
        assign x b >>= fun _ => E.block (V.insert x type) body).run M = .ok (.ok .next) M3 :=
      (bind_run hask).trans ((bind_run (assign_run hx)).trans hblock)
    rw [confined_run hround, ← hM.1, ← FinMap.within_insert hx (.object a)]

end Evaluator

/-- Whether an operation runs to its end without counting references, and its counted run. -/
def Operation.runBoth (op : Operation) : Bool × Except Halt RunResult :=
  ((op.run { memory := .gc, handler := Builtin.handler } [] 0).1.isOk,
    (op.run { handler := Builtin.handler } [] 0).1)

/-- A loop over a list whose block declares a variable with the name of the loop. -/
def shadowItem : FunctionDef :=
  { name := "run"
    returnType := TypeName.void
    body := [.forIn none "item" TypeName.integer (.ofItems [.ofInt 10, .ofInt 20])
      [.declare none "item" TypeName.integer (some (.ofInt 7))]] }

/-- After the first round, both scopes release what the name is bound to. -/
theorem doubleRelease_shadowed :
    shadowItem.answers (·.runBoth) = some [(true, .error (.fault (.doubleRelease ⟨6⟩)))] := by
  decide +kernel

/-! ### Integers -/

namespace Evaluator

open Evaluation

variable {E : Evaluator Nat} {M M1 : Machine Nat} {S : Machine Nat → Prop}
  {A : Evaluation Nat Completion} {type : String} {a b : Binding} {n k s : Int64} {h h' : Heap}
  (hE : E.handler = Builtin.handler)

/-- The binding stands for an integer. -/
def Denotes (h : Heap) (b : Binding) (n : Int64) : Prop :=
  ∃ id, b = .object id ∧ h.value id = .ok (.integer n)

theorem Denotes.keep (hb : Denotes h b n) (hk : h.Sustains h') : Denotes h' b n := by
  obtain ⟨id, rfl, hv⟩ := hb
  obtain ⟨o, ho, hf, hn⟩ := Heap.value_eq_ok_iff.1 hv
  obtain ho' | ⟨_, _, hit⟩ := hk id o ho
  · exact ⟨id, rfl, Heap.value_eq_ok_iff.2 ⟨o, ho', hf, hn⟩⟩
  · cases hn.symm.trans hit

theorem Denotes.valuesOf_eq (hb : Denotes M.heap b n) :
    valuesOf [b] M = .ok [some (.integer n)] M := by
  obtain ⟨id, rfl, hv⟩ := hb
  exact valuesOf_single hv

include hE in
/-- A method of integers answers a new object. -/
theorem Denotes.ask_run (args : List Binding) (ha : Denotes M.heap a n) (f : Symbol)
    (hret : f.returns ≠ TypeName.void) (hargs : valuesOf args M = .ok values M)
    (h : Builtin.respond (CallSite.ofSymbol E.types "" f []) (.object (.integer n)) values =
      .ok ⟨.object w, .object (.integer n)⟩) :
    ∃ M' y, (E.ask a f args).run M = .ok (.ok (.object y)) M' ∧ Grows M M' ∧
      M'.heap.value y = .ok w := by
  obtain ⟨id, rfl, hv⟩ := ha
  obtain ⟨M', y, hask, hM, -, hy⟩ := Evaluator.ask_run hE args hv f hret hargs h (.inl rfl)
  exact ⟨M', y, hask, hM, hy⟩

/-- The comparison `m` of integers answers `p`. -/
def Compares (m : String) (n k : Int64) (p : Bool) : Prop :=
  ∀ site : CallSite, site.method = m →
    Builtin.respond site (.object (.integer n)) [some (.integer k)] =
      .ok ⟨.object (.boolean p), .object (.integer n)⟩

include hE in
/-- A comparison of integers, and the truth of what it answers. -/
theorem Denotes.compare_run {p : Bool} (ha : Denotes M.heap a n) (hb : Denotes M.heap b k) (f : Symbol)
    (hret : f.returns = TypeName.boolean) (h : Compares f.name n k p) :
    ∃ M1 M2 y, (E.ask a f [b]).run M = .ok (.ok y) M1 ∧
      (E.truth TypeName.boolean y).run M1 = .ok (.ok p) M2 ∧ Grows M M2 := by
  obtain ⟨M1, y, hask, hM, hy⟩ := ha.ask_run hE [b] f (hret ▸ by decide) hb.valuesOf_eq (h _ rfl)
  exact ⟨M1, _, _, hask, truth_run hE hy, hM⟩

/-! ### Counting loops -/

open Lowering (Direction)
open Builtin (InRange respond respond_eq)

/-- The way that a step leads. -/
def wayOf (s : Int64) : Direction := if 0 < s then .up else .down

/-- A loop moves on by `s`: that is its step, and without a step it is one, up or down. -/
def MovesBy (c : Counting) (h : Heap) (s : Int64) : Prop :=
  match c.step with
  | some t => Denotes h t s
  | none => s = 1 ∨ s = -1

/-- The values from `f` on, `s` apart, that have not passed `l`. -/
def counted (f l s : Int64) : List Value :=
  (List.range ((l.toInt - f.toInt).natAbs / s.toInt.natAbs + 1)).map fun i : Nat =>
    .integer (Int64.ofInt (f.toInt + s.toInt * i))

variable {c : Counting} {f l : Int64}

theorem MovesBy.mono (hs : MovesBy c h s) (hk : ∀ b n, Denotes h b n → Denotes h' b n) :
    MovesBy c h' s := by
  unfold MovesBy at hs ⊢
  split at hs
  · exact hk _ _ hs
  · exact hs

theorem compares_bound (n k s : Int64) :
    Compares (wayOf s).bound n k (if 0 < s then n ≤ k else k ≤ n) := by
  unfold wayOf
  split <;> rintro ⟨⟩ rfl <;> rfl

theorem compares_progress (n k s : Int64) :
    Compares (wayOf s).progress n k (if 0 < s then k < n else n < k) := by
  unfold wayOf
  split <;> rintro ⟨⟩ rfl <;> rfl

/-- Arithmetic whose exact result is an integer. -/
theorem respond_ofInt (op : Builtin.Arithmetic) {z : Int} (hz : InRange z)
    (hop : ∀ z', op.Yields n.toInt z' → z' = z) (hno : ¬ op.Overflows n) {site : CallSite}
    (hsite : site.method = op.method) : respond site (.object (.integer n)) op.args =
      .ok ⟨.object (.integer (Int64.ofInt z)), .object (.integer n)⟩ := by
  obtain ⟨z', hz', e, he, hexact, -⟩ := respond_eq site n op
  obtain rfl := hop z' hz'
  rw [← hsite] at he hexact
  rw [he, hexact hno, Builtin.exact_of_inRange _ hz]
  rfl

include hE

theorem goes_run {p : Bool} (ha : Denotes M.heap a n)
    (d : Direction) (h : Compares d.sign n 0 p) :
    ∃ M', (E.goes a d).run M = .ok (.ok p) M' ∧ Grows M M' := by
  have hzero : (literal (Text.ofInt64 0) TypeName.integer).run M =
      .ok (.ok (.object M.heap.next)) { M with heap := M.heap.alloc (.integer 0) false } := by
    have hvalue : Value.ofLiteral? (Text.ofInt64 0) TypeName.integer = some (.integer 0) := by
      decide +kernel
    rw [literal, hvalue]
    rfl
  have hM : M.heap.Sustains (M.heap.alloc (.integer 0) false) :=
    fun _ _ ho => .inl (Heap.get?_add_of_some ho)
  obtain ⟨M1, M2, y, hask, htruth, hM2⟩ := Denotes.compare_run
    (M := { M with heap := M.heap.alloc (.integer 0) false }) hE (ha.keep hM)
    ⟨_, rfl, Heap.value_alloc _ _ _⟩ (((Symbol.method TypeName.integer d.sign
      TypeName.boolean).asPure).withParams [TypeName.integer]) rfl h
  exact ⟨M2, (bind_run hzero).trans ((bind_run hask).trans htruth), hM2.1, hM.trans hM2.2⟩

theorem inRange_run (hx : M.vars.get? c.name = some a)
    (ha : Denotes M.heap a n) (hl : Denotes M.heap c.last l) (s : Int64) :
    ∃ M', (E.inRange c (wayOf s)).run M = .ok (.ok (if 0 < s then n ≤ l else l ≤ n)) M' ∧
      Grows M M' := by
  obtain ⟨M1, M2, y, hask, htruth, hM⟩ := ha.compare_run hE hl
    (c.method (wayOf s).bound TypeName.boolean [c.type]) rfl (compares_bound n l s)
  exact ⟨M2, (bind_run (lookup_run hx)).trans ((bind_run hask).trans htruth), hM⟩

theorem advance_run (htype : c.type ≠ TypeName.void)
    (hx : M.vars.get? c.name = some a) (ha : Denotes M.heap a n) (hs : MovesBy c M.heap s)
    (hr : InRange (n.toInt + s.toInt)) :
    ∃ M' y, (E.advance c (wayOf s)).run M = .ok (.ok (.object y)) M' ∧ Grows M M' ∧
      M'.heap.value y = .ok (.integer (Int64.ofInt (n.toInt + s.toInt))) := by
  unfold advance
  rw [bind_run (lookup_run hx)]
  unfold MovesBy at hs
  cases ht : c.step with
  | some t =>
    rw [ht] at hs
    exact ha.ask_run hE [t] (c.method "_add" c.type [c.type]) htype hs.valuesOf_eq
      (respond_ofInt (.add s) hr (fun _ h => h) id rfl)
  | none =>
    rw [ht] at hs
    refine ha.ask_run hE [] (c.method (wayOf s).unitStep c.type []) htype rfl ?_
    rcases hs with rfl | rfl
    · exact respond_ofInt .inc hr (fun _ h => h) id rfl
    · exact respond_ofInt .dec hr (fun _ h => h) id rfl

theorem checkStep_run (htype : c.type ≠ TypeName.void)
    (hf : Denotes M.heap c.first f) (hs : MovesBy c M.heap s) (hr : InRange (f.toInt + s.toInt))
    (hne : s ≠ 0) : ∃ M', (E.checkStep c (wayOf s)).run M = .ok (.ok ()) M' ∧ Grows M M' := by
  unfold checkStep
  unfold MovesBy at hs
  cases ht : c.step with
  | some t =>
    rw [ht] at hs
    obtain ⟨M1, y, hadd, hM1, hy⟩ := hf.ask_run hE [t] (c.method "_add" c.type [c.type]) htype
      hs.valuesOf_eq (respond_ofInt (.add s) hr (fun _ h => h) id rfl)
    obtain ⟨M2, M3, z, hask, htruth, hM⟩ := Denotes.compare_run (a := .object y) hE ⟨y, rfl, hy⟩
      (hf.keep hM1.2) (c.method (wayOf s).progress TypeName.boolean [c.type]) rfl
      (compares_progress _ f s)
    have hpassed : (if 0 < s then decide (f < Int64.ofInt (f.toInt + s.toInt))
        else decide (Int64.ofInt (f.toInt + s.toInt) < f)) = true := by
      have hne' := Builtin.toInt_ne_zero hne
      simp only [Int64.lt_iff_toInt_lt, Builtin.toInt_ofInt hr, Int64.toInt_zero]
      split <;> simp <;> omega
    rw [hpassed] at htruth
    exact ⟨M3, (bind_run hadd).trans ((bind_run hask).trans (bind_run htruth)), hM1.trans hM⟩
  | none => exact ⟨M, rfl, .refl _⟩

omit hE

theorem inRange_toInt (n : Int64) : InRange n.toInt :=
  ⟨Int64.le_iff_toInt_le.1 (Int64.minValue_le n), Int64.le_iff_toInt_le.1 (Int64.le_maxValue n)⟩

/-- Between two values of a loop there are only integers of 64 bits. -/
theorem inRange_of_le {a s : Int} {i k : Nat} (ha : InRange a) (hk : InRange (a + s * k))
    (hi : i ≤ k) : InRange (a + s * i) := by
  unfold InRange at *
  rcases Int.le_total 0 s with hs | hs
  · have h0 := Int.mul_nonneg hs (Int.natCast_nonneg i)
    have h1 := Int.mul_le_mul_of_nonneg_left (Int.ofNat_le.2 hi) hs
    omega
  · have h0 := Int.mul_nonneg_of_nonpos_of_nonpos hs (Int.neg_nonpos_of_nonneg (Int.natCast_nonneg i))
    have h1 := Int.mul_le_mul_of_nonpos_left hs (Int.ofNat_le.2 hi)
    rw [Int.mul_neg] at h0
    omega

/-- A step other than zero leads from `f` towards `l`. -/
def Towards (f l s : Int64) : Prop := f < l ∧ 0 < s ∨ l < f ∧ s < 0

/-- The values of a loop are those that its test lets through. -/
theorem inRange_iff (hs : Towards f l s) {i : Nat} (hr : InRange (f.toInt + s.toInt * i)) :
    (if 0 < s then decide (Int64.ofInt (f.toInt + s.toInt * i) ≤ l)
      else decide (l ≤ Int64.ofInt (f.toInt + s.toInt * i))) = decide (i < (counted f l s).length) := by
  simp only [Towards, Int64.lt_iff_toInt_lt, Int64.toInt_zero] at hs
  have hcount : i < (counted f l s).length ↔ i * s.toInt.natAbs ≤ (l.toInt - f.toInt).natAbs := by
    rw [counted, List.length_map, List.length_range, Nat.lt_add_one_iff, Nat.le_div_iff_mul_le]
    omega
  have hmul : ((i * s.toInt.natAbs : Nat) : Int) = i * s.toInt.natAbs := Int.natCast_mul _ _
  simp only [Int64.lt_iff_toInt_lt, Int64.le_iff_toInt_le, Builtin.toInt_ofInt hr, Int64.toInt_zero,
    hcount]
  rw [Int.mul_comm]
  rcases hs with ⟨hl, hs⟩ | ⟨hl, hs⟩
  · rw [Int.natAbs_of_nonneg (Int.le_of_lt hs)] at hmul
    rw [if_pos hs]
    exact decide_eq_decide.2 (by omega)
  · rw [Int.ofNat_natAbs_of_nonpos (Int.le_of_lt hs), Int.mul_neg] at hmul
    rw [if_neg (by omega)]
    exact decide_eq_decide.2 (by omega)

/-- What a counting loop works with is in place, and its variable stands for `n`. -/
structure CountsAt (c : Counting) (l s : Int64) (M : Machine σ) (n : Int64) : Prop where
  last : Denotes M.heap c.last l
  step : MovesBy c M.heap s
  current : ∃ y, M.vars.get? c.name = some y ∧ Denotes M.heap y n

theorem CountsAt.grow (hc : CountsAt c l s M n) (hM : Grows M M1) : CountsAt c l s M1 n :=
  ⟨hc.last.keep hM.2, hc.step.mono fun _ _ hb => hb.keep hM.2,
    hc.current.imp fun _ h => ⟨hM.1 ▸ h.1, h.2.keep hM.2⟩⟩

include hE

/-- One round evaluates the block, and then the variable takes the next value. -/
theorem countRound_run (htype : c.type ≠ TypeName.void)
    (hA : GoesOn S c.name (confined A)) (hS : S M) (hc : CountsAt c l s M n)
    (hr : InRange (n.toInt + s.toInt)) :
    ∃ M', (confined do
        match ← A with
        | .next =>
          assign c.name (← E.advance c (wayOf s))
          return .next
        | left => return left).run M = .ok (.ok .next) M' ∧
      Round c.name (confined A) (.integer n) M M' ∧ S M' ∧
      CountsAt c l s M' (Int64.ofInt (n.toInt + s.toInt)) := by
  obtain ⟨M2, hrun, hS2, hx2, hkeep⟩ := hA.ends M hS
  obtain ⟨M3, hblock, rfl⟩ := confined_eq_ok hrun
  have hinteger : ∀ b k, Denotes M.heap b k → Denotes M3.heap b k := fun b k hb =>
    hb.imp fun _ hb => ⟨hb.1, hkeep _ _ hb.2 (show TypeName.integer ≠ TypeName.list by decide)⟩
  obtain ⟨y, hx, hy⟩ := hc.current
  have hcontains : M.vars.contains c.name = true := by rw [FinMap.contains, hx]; rfl
  have hx3 : M3.vars.get? c.name = some y := by
    rwa [hx, FinMap.get?_within, if_pos hcontains] at hx2
  have hs3 := hc.step.mono hinteger
  obtain ⟨M4, z, hadvance, hM4, hz⟩ := advance_run hE htype hx3 (hinteger _ _ hy) hs3 hr
  have hx4 : (M4.vars.get? c.name).isSome := by rw [hM4.1, hx3]; rfl
  have hx5 : ((M4.vars.insert c.name (.object z)).within M.vars).get? c.name = some (.object z) := by
    rw [FinMap.get?_within, if_pos hcontains, FinMap.get?_insert_self]
  have hM : Proceeds c.name { M3 with vars := M3.vars.within M.vars }
      { M4 with vars := (M4.vars.insert c.name (.object z)).within M.vars } := by
    refine ⟨fun v hv => ?_, fun _ => Option.isSome_iff_exists.2 ⟨_, hx5⟩, hM4.2⟩
    rw [FinMap.get?_within, FinMap.get?_within, FinMap.get?_insert_ne _ hv.symm, hM4.1]
  obtain ⟨id, rfl, hv⟩ := hy
  exact ⟨_, confined_run ((bind_run hblock).trans ((bind_run hadvance).trans
    (bind_run (assign_run hx4)))), ⟨M, _, id, (Grows.refl M).proceeds _, hx, hv, hrun, hM⟩,
    hA.stable _ _ hS2 hM, (hinteger _ _ hc.last).keep hM4.2, hs3.mono fun _ _ hb => hb.keep hM4.2,
    .object z, hx5, z, rfl, hz⟩

/-- Counting in one direction takes the values up to the last one. -/
theorem count_run (htype : c.type ≠ TypeName.void)
    (hA : GoesOn S c.name (confined A)) (hS : S M) (hf : Denotes M.heap c.first f)
    (hc : CountsAt c l s M f) (hs : Towards f l s)
    (hpast : InRange (f.toInt + s.toInt * (counted f l s).length))
    (hn : (counted f l s).length < E.rounds) :
    ∃ M1 M2, (E.count c (wayOf s) A).run M = .ok (.ok .next) M2 ∧ Grows M M1 ∧
      Rounds c.name (confined A) (counted f l s) M1 M2 := by
  have hr : ∀ i ≤ (counted f l s).length, InRange (f.toInt + s.toInt * (i : Nat)) :=
    fun i hi => inRange_of_le (inRange_toInt f) hpast hi
  have hne : s ≠ 0 := by
    rintro rfl
    rcases hs with h | h <;> exact absurd h.2 (by decide)
  obtain ⟨M1, hcheck, hM1⟩ := checkStep_run hE htype hf hc.step
    (by simpa using hr 1 (by simp [counted])) hne
  suffices hrun : ∃ M2, (repeatWhile (E.inRange c (wayOf s)) _ E.rounds).run M1 = .ok (.ok .next) M2 ∧
      Rounds c.name (confined A) (counted f l s) M1 M2 by
    obtain ⟨M2, hrun, hrounds⟩ := hrun
    exact ⟨M1, M2, (bind_run hcheck).trans hrun, hM1, hrounds⟩
  -- after `i` rounds the variable has moved on by `i` steps
  refine repeatWhile_run (l := counted f l s) (k := 0) (I := fun i M => S M ∧
    i ≤ (counted f l s).length ∧ CountsAt c l s M (Int64.ofInt (f.toInt + s.toInt * i))) ?_ ?_ hn
    ⟨hA.stable _ _ hS (hM1.proceeds _), Nat.zero_le _, by simpa using hc.grow hM1⟩
  · rintro i M ⟨hS, hi, hc⟩
    obtain ⟨y, hx, hy⟩ := hc.current
    obtain ⟨M1, htest, hM⟩ := inRange_run hE hx hy hc.last s
    rw [inRange_iff hs (hr i hi)] at htest
    exact ⟨M1, htest, hM.proceeds _, hA.stable _ _ hS (hM.proceeds _), hi, hc.grow hM⟩
  · rintro i M hi ⟨hS, -, hc⟩
    have hnext : (Int64.ofInt (f.toInt + s.toInt * i)).toInt + s.toInt =
        f.toInt + s.toInt * ((i + 1 : Nat) : Int) := by
      rw [Builtin.toInt_ofInt (hr i (Nat.le_of_lt hi)), Int.natCast_add, Int.mul_add]
      omega
    obtain ⟨M', hrun, hround, hS', hc'⟩ := countRound_run hE htype hA hS hc (hnext ▸ hr (i + 1) hi)
    rw [hnext] at hc'
    exact ⟨M', hrun, by simpa [counted] using hround, hS', hi, hc'⟩

/-- The sign of the comparison chooses the direction. -/
theorem countTowards_run (ha : Denotes M.heap a n) :
    ∃ M', Grows M M' ∧ (E.countTowards c a A).run M = (confined (if n < 0 then E.count c .up A
      else if 0 < n then E.count c .down A else A)).run M' := by
  obtain ⟨M1, hup, hM1⟩ := goes_run hE ha .up (p := n < 0) (by rintro ⟨⟩ rfl; rfl)
  by_cases hn : n < 0
  · rw [decide_eq_true hn] at hup
    rw [if_pos hn]
    exact ⟨M1, hM1, bind_run hup⟩
  rw [decide_eq_false hn] at hup
  obtain ⟨M2, hdown, hM2⟩ := goes_run hE (ha.keep hM1.2) .down (p := 0 < n) (by rintro ⟨⟩ rfl; rfl)
  refine ⟨M2, hM1.trans hM2, (bind_run hup).trans ((bind_run hdown).trans ?_)⟩
  rw [if_neg hn]
  by_cases hn' : 0 < n <;> simp [hn']

/-- A counting loop takes the values from its first end to its last one. Unless the ends are equal, its
step leads from one to the other, and the value behind the last one is an integer of 64 bits. -/
theorem counts_run (htype : c.type ≠ TypeName.void)
    (hA : GoesOn S c.name (confined A)) (hS : S { M with vars := M.vars.insert c.name .null })
    (hf : Denotes M.heap c.first f) (hl : Denotes M.heap c.last l) (hstep : MovesBy c M.heap s)
    (hs : f ≠ l → Towards f l s ∧ InRange (f.toInt + s.toInt * (counted f l s).length))
    (hn : (counted f l s).length < E.rounds) :
    ∃ M1 M2, Proceeds c.name M M1 ∧ Rounds c.name (confined A) (counted f l s) M1 M2 ∧
      (E.counts c A).run M = .ok (.ok .next)
        { M2 with vars := M2.vars.within (M.vars.insert c.name .null) } := by
  have hnull : ((M.vars.insert c.name .null).get? c.name).isSome := by simp
  generalize hM0 : { M with vars := (M.vars.insert c.name .null).insert c.name c.first } = M0
  have hS0 : S M0 := hM0 ▸ hA.stable _ _ hS (.insert _ _ _)
  have hbegin : Proceeds c.name M M0 := hM0 ▸ .trans (.insert _ .null M) (.insert _ _ _)
  have hassign : (assign c.name c.first).run { M with vars := M.vars.insert c.name .null } =
      .ok (.ok ()) M0 := (assign_run hnull).trans (by rw [hM0])
  obtain ⟨M1, y, hcompare, hM1, hy⟩ := Denotes.ask_run (M := M0) hE [c.last] (hf.keep hbegin.objects)
    (c.method "_cmp" TypeName.integer [c.type]) (show TypeName.integer ≠ _ by decide)
    (hl.keep hbegin.objects).valuesOf_eq rfl
  obtain ⟨M2, hM2, htowards⟩ := countTowards_run (c := c) (A := A) hE ⟨y, rfl, hy⟩
  have hM := hM1.trans hM2
  have hrun : (E.counts c A).run M = _ :=
    (bind_run rfl).trans ((bind_run hassign).trans ((bind_run hcompare).trans htowards))
  have hvars : M2.vars = (M.vars.insert c.name .null).insert c.name c.first := by rw [hM.1, ← hM0]
  have hS2 := hA.stable _ _ hS0 (hM.proceeds _)
  have hkeeps := hbegin.objects.trans hM.2
  have hx2 : M2.vars.get? c.name = some c.first := by rw [hvars, FinMap.get?_insert_self]
  have hc : CountsAt c l s M2 f :=
    ⟨hl.keep hkeeps, hstep.mono fun _ _ hb => hb.keep hkeeps, _, hx2, hf.keep hkeeps⟩
  by_cases hne : f = l
  · -- equal ends are one round
    subst hne
    obtain ⟨M3, hend, -⟩ := hA.ends M2 hS2
    obtain ⟨M4, -, rfl⟩ := confined_eq_ok hend
    obtain ⟨id, hid, hv⟩ := hf.keep hkeeps
    have hone : counted f f s = [.integer f] := by simp [counted]
    rw [hone]
    refine ⟨M2, _, hbegin.trans (hM.proceeds _), ⟨_, ⟨M2, _, id, (Grows.refl _).proceeds _, hid ▸ hx2,
      hv, hend, (Grows.refl _).proceeds _⟩, (Grows.refl _).proceeds _⟩, ?_⟩
    have hchoice : Builtin.compareInt f f = 0 := by simp [Builtin.compareInt]
    rw [hrun, hchoice]
    refine hend.trans ?_
    rw [hvars, FinMap.within_insert hnull]
    simp [FinMap.within, List.filter_filter]
  · obtain ⟨hway, hpast⟩ := hs hne
    obtain ⟨M3, M4, hcount, hM3, hrounds⟩ := count_run hE htype hA hS2 (hf.keep hkeeps) hc hway hpast hn
    refine ⟨M3, M4, hbegin.trans ((hM.trans hM3).proceeds _), hrounds, ?_⟩
    have hchoice : (if Builtin.compareInt f l < 0 then E.count c .up A
        else if 0 < Builtin.compareInt f l then E.count c .down A else A) = E.count c (wayOf s) A := by
      rcases hway with ⟨hlt, hpos⟩ | ⟨hlt, hneg⟩
      · simp [Builtin.compareInt, wayOf, hlt, hpos]
      · simp [Builtin.compareInt, wayOf, Int64.lt_asymm hlt, hne, Int64.lt_asymm hneg]
    rw [hrun, hchoice, confined_run hcount, hvars, FinMap.within_insert hnull]

/-- So does the statement, which evaluates its ends and its step first. -/
theorem forRange_run {V : Visible} {first last : Expr} {step : Option Expr} {body : List Stmt}
    {t : Option Binding} {M2 M3 : Machine Nat} (htype : type ≠ TypeName.void)
    (hA : GoesOn S x (confined (E.block (V.insert x type) body)))
    (hfirst : (E.valueOf first).run M = .ok (.ok a) M1)
    (hlast : (E.valueOf last).run M1 = .ok (.ok b) M2)
    (hstep : (E.valueOf? step).run M2 = .ok (.ok t) M3)
    (hS : S { M3 with vars := M3.vars.insert x .null }) (hf : Denotes M3.heap a f)
    (hl : Denotes M3.heap b l) (ht : MovesBy ⟨x, type, a, b, t⟩ M3.heap s)
    (hs : f ≠ l → Towards f l s ∧ InRange (f.toInt + s.toInt * (counted f l s).length))
    (hn : (counted f l s).length < E.rounds) (token : Option Location) :
    ∃ M4 M5, Proceeds x M3 M4 ∧
      Rounds x (confined (E.block (V.insert x type) body)) (counted f l s) M4 M5 ∧
      (E.stmt V (.forRange token x type first last step body)).run M = .ok (.ok .next)
        { M5 with vars := (M5.vars.within (M3.vars.insert x .null)).within M.vars } := by
  obtain ⟨M4, M5, hM, hrounds, hrun⟩ :=
    counts_run (c := ⟨x, type, a, b, t⟩) hE htype hA hS hf hl ht hs hn
  refine ⟨M4, M5, hM, hrounds, ?_⟩
  have hall : (do
      let first ← E.valueOf first
      let last ← E.valueOf last
      let step ← E.valueOf? step
      E.counts { name := x, type, first, last, step } (E.block (V.insert x type) body)).run M = _ :=
    (bind_run hfirst).trans ((bind_run hlast).trans ((bind_run hstep).trans hrun))
  rw [stmt, confined_run hall]

end Evaluator

/-- A function that counts from one argument to the other. -/
def countUp : FunctionDef :=
  { name := "run"
    params := [⟨"a", TypeName.integer⟩, ⟨"b", TypeName.integer⟩]
    returnType := TypeName.void
    body := [.forRange none "i" TypeName.integer (.ofVar "a" TypeName.integer)
      (.ofVar "b" TypeName.integer) none []] }

/-- A loop that ends with the greatest integer counts on after its last round, and fails. -/
theorem Builtin.overflow_countUp :
    (countUp.answers fun op => (op.run { handler := Builtin.handler }
      [.integer (Int64.maxValue - 1), .integer Int64.maxValue] 0).1) =
        some [.error (.fault (.callFailed "`_temp14._inc()` overflowed"))] := by
  decide +kernel

/-- A counting loop whose block assigns the variable that it counts to. -/
def assignEnd (step : Option Expr) : FunctionDef :=
  { name := "run"
    returnType := TypeName.void
    body := [
      .declare none "last" TypeName.integer none,
      .assignUnset none "last" (.ofInt 2),
      .forRange none "i" TypeName.integer (.ofInt 1) (.ofVar "last" TypeName.integer) step
        [.assign none "last" (.ofInt 3)]] }

/-- The loop does not hold its end, and compares with it again after the assignment. -/
theorem useAfterFree_range :
    (assignEnd none).answers (·.runBoth) =
      some [(true, .error (.fault (.useAfterFree ⟨2⟩)))] := by
  decide +kernel

theorem useAfterFree_steppedRange :
    (assignEnd (some (.ofInt 2))).answers (·.runBoth) =
      some [(true, .error (.fault (.useAfterFree ⟨2⟩)))] := by
  decide +kernel

end ScopedIR
