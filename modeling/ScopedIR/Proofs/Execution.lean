import ScopedIR.Machine.Run
import ScopedIR.Proofs.Generation

/-!
# What running code leads to

A calculus for actions of a run: `Exec.Leads` says that an action, started in a given state, either
answers as a postcondition allows or halts with one of the faults allowed. There is one rule for
each action that the machine is put together from, so a proof about code follows the code.

Main definition: `Exec.Leads`.
-/

namespace ScopedIR

variable {σ α β : Type} {E : Fault → Prop} {m : Machine σ} {cfg : Config σ} {rounds : Nat}
  {post : Control → Machine σ → Prop} {leave : String → Exec σ Unit}

namespace Exec

/-- The action answers as `post` says, or halts with a fault that `faults` allows. It may also
diverge. -/
def Leads (faults : Fault → Prop) (a : Exec σ α) (m : Machine σ) (post : α → Machine σ → Prop) :
    Prop :=
  match a m with
  | .ok x m' => post x m'
  | .error (.fault f) _ => faults f
  | .error .diverged _ => True

theorem Leads.mono {a : Exec σ α} {post post' : α → Machine σ → Prop} (h : Leads E a m post)
    (hp : ∀ x m', post x m' → post' x m') : Leads E a m post' := by
  unfold Leads at *
  cases ha : a m with
  | ok x m' =>
    rw [ha] at h
    exact hp x m' h
  | error halt m' =>
    rw [ha] at h
    cases halt with
    | fault f => exact h
    | diverged => trivial

theorem Leads.and {E' : Fault → Prop} {a : Exec σ α} {P Q : α → Machine σ → Prop}
    (h : Leads E a m P) (h' : Leads E' a m Q) : Leads E a m fun x m' => P x m' ∧ Q x m' := by
  unfold Leads at *
  cases ha : a m with
  | ok x m' =>
    rw [ha] at h h'
    exact ⟨h, h'⟩
  | error halt m' =>
    rw [ha] at h
    cases halt with
    | fault f => exact h
    | diverged => trivial

theorem leads_congr {a : Exec σ α} {post post' : α → Machine σ → Prop}
    (h : ∀ x m', post x m' ↔ post' x m') : Leads E a m post ↔ Leads E a m post' :=
  ⟨fun ha => ha.mono fun x m' => (h x m').1, fun ha => ha.mono fun x m' => (h x m').2⟩

theorem leads_pure {x : α} {post : α → Machine σ → Prop} :
    Leads E (pure x) m post ↔ post x m := Iff.rfl

theorem leads_bind {a : Exec σ α} {f : α → Exec σ β} {post : β → Machine σ → Prop} :
    Leads E (a >>= f) m post ↔ Leads E a m fun x m' => Leads E (f x) m' post := by
  unfold Leads
  change (match EStateM.bind a f m with
    | .ok x m' => post x m'
    | .error (.fault f) _ => E f
    | .error .diverged _ => True) ↔ _
  unfold EStateM.bind
  cases a m with
  | ok x m' => rfl
  | error halt m' => cases halt <;> rfl

theorem leads_fail {f : Fault} {post : α → Machine σ → Prop} :
    Leads E (fail f) m post ↔ E f := Iff.rfl

theorem leads_get {post : Machine σ → Machine σ → Prop} :
    Leads E get m post ↔ post m m := Iff.rfl

theorem leads_modify {f : Machine σ → Machine σ} {post : Unit → Machine σ → Prop} :
    Leads E (modify f) m post ↔ post () (f m) := Iff.rfl

/-- The computation answers as `post` says, or fails with a fault that is allowed. -/
def Gives (faults : Fault → Prop) (e : Except Fault α) (post : α → Prop) : Prop :=
  match e with
  | .ok x => post x
  | .error f => faults f

variable {e : Except Fault α} {name : String} {a : Exec σ Control} {l : List (Exec σ Control)}

theorem gives_bind {f : α → Except Fault β} {post : β → Prop} :
    Gives E (e >>= f) post ↔ Gives E e fun x => Gives E (f x) post := by
  cases e <;> rfl

theorem gives_congr {post post' : α → Prop} (h : ∀ x, post x ↔ post' x) :
    Gives E e post ↔ Gives E e post' := by
  cases e with
  | ok x => exact h x
  | error f => rfl

theorem leads_ofExcept {post : α → Machine σ → Prop} :
    Leads E (ofExcept e) m post ↔ Gives E e (post · m) := by
  cases e <;> rfl

theorem leads_lookup {post : Binding → Machine σ → Prop} :
    Leads E (lookup name) m post ↔ Gives E (m.lookup name) (post · m) := by
  unfold lookup
  rw [leads_bind, leads_get, leads_ofExcept]

/-- What a name is bound to is read first. -/
theorem leads_lookup_bind {f : Binding → Exec σ α} {post : α → Machine σ → Prop} :
    Leads E (lookup name >>= f) m post ↔
      Gives E (m.lookup name) fun b => Leads E (f b) m post := by
  rw [leads_bind, leads_lookup]

theorem leads_assign {b : Binding} {post : Unit → Machine σ → Prop} :
    Leads E (assign name b) m post ↔ post () { m with vars := m.vars.insert name b } := Iff.rfl

theorem leads_onHeap {f : Heap → Heap.Update} {post : Unit → Machine σ → Prop} :
    Leads E (onHeap f) m post ↔
      Gives E (f m.heap).1 fun _ => post () { m with heap := (f m.heap).2 } := by
  obtain ⟨heap, vars, scopes, handlers, previous, steps, calls⟩ := m
  unfold Leads onHeap
  dsimp only
  rcases f heap with ⟨_ | _, heap'⟩ <;> rfl

theorem leads_allocate {f : Heap → Heap} {post : ObjectId → Machine σ → Prop} :
    Leads E (allocate f) m post ↔ post m.heap.next { m with heap := f m.heap } := Iff.rfl

/-- What holds when control goes on, and what holds when it leaves. -/
def Through (c : Control) (onward left : Prop) : Prop :=
  match c with
  | .next => onward
  | _ => left

theorem Through.throw {e : Binding} {onward left : Prop} (h : left) :
    Through (.throw e) onward left := h

theorem Through.left {c : Control} {onward left : Prop} (hc : c ≠ .next) (h : left) :
    Through c onward left := by
  cases c with
  | next => exact absurd rfl hc
  | _ => exact h

/-- Go on where control goes on, and keep what holds where it leaves. -/
theorem Leads.through {post' : Control → Machine σ → Prop} {onward : Machine σ → Prop}
    (h : Leads E a m post) (hnext : ∀ m', post .next m' → onward m')
    (hleft : ∀ c m', c ≠ .next → post c m' → post' c m') :
    Leads E a m fun c m' => Through c (onward m') (post' c m') := by
  refine h.mono fun c m' hc => ?_
  cases c with
  | next => exact hnext m' hc
  | jump l | ret v | throw e => exact hleft _ m' (by simp) hc

theorem leads_andThen {b : Exec σ Control} :
    Leads E (andThen a b) m post ↔
      Leads E a m fun c m' => Through c (Leads E b m' post) (post c m') := by
  unfold andThen
  rw [leads_bind]
  exact leads_congr fun c m' => by cases c <;> rfl

theorem leads_runAll_cons :
    Leads E (runAll (a :: l)) m post ↔
      Leads E a m fun c m' => Through c (Leads E (runAll l) m' post) (post c m') :=
  leads_andThen

theorem leads_runAll_append {r : List (Exec σ Control)} :
    Leads E (runAll (l ++ r)) m post ↔
      Leads E (runAll l) m fun c m' => Through c (Leads E (runAll r) m' post) (post c m') := by
  rw [runAll_append, leads_andThen]

theorem leads_runAll_single : Leads E (runAll [a]) m post ↔ Leads E a m post := by
  rw [leads_runAll_cons]
  exact leads_congr fun c m' => by cases c <;> rfl

/-- Count one instruction. -/
def ticked (m : Machine σ) : Machine σ := { m with steps := m.steps + 1 }

theorem leads_tick {limit : Nat} {post : Unit → Machine σ → Prop} (hE : E (.stepLimit limit))
    (h : post () (ticked m)) : Leads E (tick limit) m post := by
  unfold tick
  rw [leads_bind, leads_modify, leads_bind, leads_get]
  split
  · exact hE
  · exact h

/-- A callee's exception is refused where `refused` says so. -/
def permit (refused : Bool) : Control → Exec σ Unit
  | .throw _ => if refused then fail (.callFailed "an exception inside a finally block") else pure ()
  | _ => pure ()

@[simp] theorem permit_false (c : Control) : (permit false c : Exec σ Unit) = pure () := by
  cases c <;> rfl

end Exec

/-! ### Single instructions -/

/-- A fault of counting references or of closing scopes. -/
def Fault.isMemory : Fault → Bool
  | .doubleRelease _ | .useAfterFree _ | .unknownScope _ | .scopeMismatch _ _ => true
  | _ => false

/-- The handler answers some call with the fault. -/
def CallHandler.FailsWith (handler : CallHandler σ) (f : Fault) : Prop :=
  ∃ site receiver args s, (handler site receiver args s).1 = .error f

/-- The object of a binding, if it is one. -/
def Binding.objects : Binding → List ObjectId
  | .object id => [id]
  | .null | .primitive _ => []

namespace Exec

open Instr

variable {p : Payload (Exec σ Control)} {location : Option Location} {t x k : String}

theorem leads_load :
    Leads E (perform leave cfg rounds (simple location .load [x] (some t)) p) m post ↔
      Gives E (m.lookup x) fun b => post .next { m with vars := m.vars.insert t b } := by
  change Leads E (lookup x >>= fun b => yield (simple location .load [x] (some t)) b) m post ↔ _
  exact leads_lookup_bind

theorem leads_isNull :
    Leads E (perform leave cfg rounds (simple location .isNull [x] (some t)) p) m post ↔
      Gives E (m.lookup x) fun b =>
        post .next { m with vars := m.vars.insert t (.primitive (b = .null)) } := by
  change Leads E (lookup x >>= fun b =>
    yield (simple location .isNull [x] (some t)) (.primitive (b = .null))) m post ↔ _
  exact leads_lookup_bind

theorem leads_reference {type : String} :
    Leads E (perform leave cfg rounds (simple location .reference [x, type] none) p) m post ↔
      post .next { m with vars := m.vars.insert x .null } := Iff.rfl

theorem leads_store {v : String} :
    Leads E (perform leave cfg rounds (simple location .store [x, v] none) p) m post ↔
      Gives E (m.lookup v) fun b => Leads E (store x b) m fun _ m' => post .next m' := by
  change Leads E (lookup v >>= fun b => store x b >>= fun _ => pure .next) m post ↔ _
  rw [leads_lookup_bind]
  simp only [leads_bind, leads_pure]

theorem leads_onObject {i : Instr} {f : ObjectId → Heap → Heap.Update}
    (hx : i.operand? 0 = some x) :
    Leads E (onObject i f) m post ↔ Gives E (m.lookup x) fun b =>
      match b with
      | .object id => Gives E (f id m.heap).1 fun _ => post .next { m with heap := (f id m.heap).2 }
      | .null | .primitive _ => post .next m := by
  have ho : operand (σ := σ) i 0 = pure x := by
    unfold operand
    rw [hx]
    rfl
  unfold onObject
  rw [ho]
  change Leads E (lookup x >>= fun b => _) m post ↔ _
  refine leads_lookup_bind.trans (gives_congr fun b => ?_)
  cases b with
  | object id =>
    dsimp only
    rw [leads_bind, leads_onHeap]
    rfl
  | null | primitive _ => rfl

theorem leads_retain (hm : cfg.memory = .arc) :
    Leads E (perform leave cfg rounds (simple location .retain [x] none) p) m post ↔
      Gives E (m.lookup x) fun b =>
        match b with
        | .object id =>
          Gives E (m.heap.retain id).1 fun _ => post .next { m with heap := (m.heap.retain id).2 }
        | .null | .primitive _ => post .next m := by
  change Leads E (counted cfg (onObject _ _)) m post ↔ _
  unfold counted
  rw [hm, leads_onObject rfl]

/-- Releasing a name drops the object it is bound to, if it is one. -/
theorem leads_release (hm : cfg.memory = .arc) :
    Leads E (perform leave cfg rounds (simple location .release [x] none) p) m post ↔
      Gives E (m.lookup x) fun b => Gives E (m.heap.releaseAll b.objects).1 fun _ =>
        post .next { m with heap := (m.heap.releaseAll b.objects).2 } := by
  change Leads E (counted cfg (onObject _ _)) m post ↔ _
  unfold counted
  rw [hm, leads_onObject rfl]
  refine gives_congr fun b => ?_
  cases b with
  | object id => rfl
  | null | primitive _ =>
    unfold Binding.objects
    rw [Heap.releaseAll]
    rfl

theorem leads_assert :
    Leads E (perform leave cfg rounds (simple location .assert [x] none) p) m post ↔
      Leads E (primitive x) m fun b m' => if b then post .next m' else E (.assertionFailed x) := by
  change Leads E (primitive x >>= fun b =>
    if b then pure .next else fail (.assertionFailed x)) m post ↔ _
  rw [leads_bind]
  exact leads_congr fun b m' => by cases b <;> rfl

theorem leads_primitive {post : Bool → Machine σ → Prop} :
    Leads E (primitive x) m post ↔ Gives E (m.lookup x) fun b =>
      match b with
      | .primitive v => post v m
      | .null | .object _ => E (.notPrimitive x) := by
  unfold primitive
  exact leads_lookup_bind.trans (gives_congr fun b => by cases b <;> rfl)

theorem leads_ret :
    Leads E (perform leave cfg rounds (simple location .ret [x] none) p) m post ↔
      Gives E (m.lookup x) fun b => post (.ret (some b)) m := by
  change Leads E (lookup x >>= fun b => pure (.ret (some b))) m post ↔ _
  exact leads_lookup_bind

theorem leads_retNone :
    Leads E (perform leave cfg rounds (simple location .ret [] none) p) m post ↔ post (.ret none) m :=
  Iff.rfl

theorem leads_throw :
    Leads E (perform leave cfg rounds (simple location .throw [x] none) p) m post ↔
      Gives E (m.lookup x) fun b => post (.throw b) m := by
  change Leads E (lookup x >>= fun b => pure (.throw b)) m post ↔ _
  exact leads_lookup_bind

/-- An instruction that makes an object binds its result to it, or it is malformed. -/
theorem leads_create {opcode : Opcode} {operands : List String}
    (ho : opcode = .loadLiteral ∨ opcode = .allocObject) (hE : ∀ f, f.isMemory = false → E f)
    (h : ∀ v, post .next
      { m with
        heap := m.heap.alloc v false
        vars := m.vars.insert t (.object m.heap.next) }) :
    Leads E (perform leave cfg rounds (simple location opcode operands (some t)) p) m post := by
  rcases ho with rfl | rfl
  · change Leads E (required _ _ >>= fun part => required _ _ >>= fun v => create _ v) m post
    rw [leads_bind]
    cases (simple location .loadLiteral operands (some t)).literal? with
    | none => exact hE _ rfl
    | some part =>
      rw [required, leads_pure, leads_bind]
      cases Value.ofLiteral? part.1 part.2 with
      | none => exact hE _ rfl
      | some v => exact h v
  · change Leads E (required _ _ >>= fun type => create _ (.other type type)) m post
    rw [leads_bind]
    cases (simple location .allocObject operands (some t)).type? with
    | none => exact hE _ rfl
    | some type => exact h _

theorem leads_scopeEnter (hm : cfg.memory = .arc) :
    Leads E (perform leave cfg rounds (simple location .scopeEnter [k] none) p) m post ↔
      post .next { m with scopes := { id := k } :: m.scopes } := by
  change Leads E (counted cfg _) m post ↔ _
  unfold counted
  rw [hm]
  rfl

theorem leads_scopeExit (hm : cfg.memory = .arc) :
    Leads E (perform leave cfg rounds (simple location .scopeExit [k] none) p) m post ↔
      Leads E (leave k) m fun _ m' => post .next m' := by
  change Leads E (counted cfg (leave k >>= fun _ => pure .next)) m post ↔ _
  unfold counted
  rw [hm, leads_bind]
  rfl

theorem leads_scopeRegister (hm : cfg.memory = .arc) :
    Leads E (perform leave cfg rounds (simple location .scopeRegister [x, k] none) p) m post ↔
      match Machine.registerIn k x m.scopes with
      | some scopes => post .next { m with scopes }
      | none => E (.unknownScope k) := by
  change Leads E (counted cfg (get >>= fun m : Machine σ =>
    ofOption (.unknownScope k) (Machine.registerIn k x m.scopes) >>= fun scopes =>
    modify (fun m => { m with scopes }) >>= fun _ => pure .next)) m post ↔ _
  unfold counted
  rw [hm, leads_bind, leads_get, leads_bind]
  cases Machine.registerIn k x m.scopes <;> rfl

end Exec

/-! ### Calls -/

namespace Exec

/-- The end of a call: its outcome is bound, or on its way. -/
def concluding (result : Option String) : CallOutcome → Exec σ Control
  | .void => return .next
  | .object v => do
    bindResult result (.object (← allocate (·.alloc v false)))
    return .next
  | .primitive b => do
    bindResult result (.primitive b)
    return .next
  | .throw v => do return .throw (.object (← allocate (·.allocOwned v)))

/-- The receiver of a call gets the value that the call left in it. -/
def updating : Option ObjectId → Receiver → Exec σ Unit
  | some id, .object v => onHeap (·.setValue id v)
  | _, _ => return ()

/-- A call in steps. -/
theorem call_eq (cfg : Config σ) (i : Instr) (site : CallSite) :
    call cfg i site = receiver i site >>= fun target => arguments i site.args >>= fun args =>
      ask cfg.handler site target.1 args >>= fun reply =>
        updating target.2 reply.receiver >>= fun _ => concluding i.result reply.outcome := by
  unfold call
  congr 1
  funext ⟨r, target⟩
  dsimp only
  congr 1
  funext args
  congr 1
  funext reply
  obtain ⟨outcome, receiver⟩ := reply
  cases target with
  | none => cases outcome <;> rfl
  | some id => cases receiver <;> cases outcome <;> rfl
end Exec

end ScopedIR
