import ScopedIR.Proofs.Simulation

/-!
# What an action may change

Looking names up changes nothing, a call changes objects and binds its result, and leaving a scope
changes scopes and counts. `Exec.Confined` says what an action leaves of the state it finds, by a
relation between the two, and in which ways it may halt. There is one rule for each action that
instructions are made of, and it asks of the relation only that it allows what this action does.

Main definitions:

* `Exec.Confined`: every answer of an action is within bounds;
* `Exec.Bounds`: what a relation allows in any case;
* `Exec.Loose`: a relation that is about neither names nor objects.

Main statements: `Exec.Confined.perform_quiet`, `perform_call` and `perform_memory`.
-/

namespace ScopedIR

variable {σ α β : Type}

/-! ### The faults of objects -/

/-- A fault of opening or closing scopes. -/
def Fault.isScope : Fault → Bool
  | .unknownScope _ | .scopeMismatch _ _ => true
  | _ => false

/-- A fault of an object that is gone, or released once too often. -/
def Fault.isHeap : Fault → Bool
  | .useAfterFree _ | .doubleRelease _ => true
  | _ => false

theorem Fault.isScope_of_isHeap {f : Fault} (h : f.isHeap = true) : f.isScope = false := by
  cases f <;> first | rfl | cases h

namespace Heap

variable {h : Heap} {id : ObjectId} {f : Fault}

theorem live_error (he : h.live id = .error f) : f.isHeap = true := by
  unfold Heap.live at he
  split at he
  · split at he
    · cases he
      rfl
    · cases he
  · cases he
    rfl

theorem value_error (he : h.value id = .error f) : f.isHeap = true := by
  unfold Heap.value at he
  cases hl : h.live id with
  | ok o =>
    rw [hl] at he
    cases he
  | error f' =>
    rw [hl] at he
    cases he
    exact live_error hl

theorem updateLive_error {g : HeapObject → HeapObject} (he : (h.updateLive id g).1 = .error f) :
    f.isHeap = true := by
  unfold Heap.updateLive at he
  cases hl : h.live id with
  | ok o =>
    rw [hl] at he
    cases he
  | error f' =>
    rw [hl] at he
    cases he
    exact live_error hl

theorem releaseAll_error {pending : List ObjectId} (he : (h.releaseAll pending).1 = .error f) :
    f.isHeap = true := by
  fun_induction Heap.releaseAll h pending with
  | case1 => cases he
  | case2 | case4 => cases he; rfl
  | case3 _ _ _ _ _ _ ih | case5 _ _ _ _ _ _ _ _ ih | case6 _ _ _ _ _ _ _ _ ih => exact ih he

theorem cleanup_error (he : (h.cleanup id).1 = .error f) : f.isHeap = true := by
  unfold Heap.cleanup at he
  split at he
  · exact releaseAll_error he
  · next f' hf =>
    obtain rfl : f' = f := by injection he
    exact live_error hf

end Heap

namespace Machine

variable {m : Machine σ} {f : Fault}

theorem valueOf_error {b : Binding} (he : m.valueOf b = .error f) : f.isHeap = true := by
  cases b with
  | null | primitive _ => cases he
  | object id =>
    cases hv : m.heap.value id with
    | ok v =>
      rw [Machine.valueOf.eq_2, hv] at he
      cases he
    | error f' =>
      rw [Machine.valueOf.eq_2, hv] at he
      cases he
      exact Heap.value_error hv

/-- A name that is not bound, or a field of an object that is gone. -/
theorem lookup_error {x : String} (he : m.lookup x = .error f) :
    f.isHeap = true ∨ (f = .unbound x ∧ m.vars.get? x = none) := by
  unfold Machine.lookup at he
  split at he
  · cases he
  · next hx =>
    split at he
    · split at he
      · next holder field _ _ id _ =>
        cases hl : m.heap.live id with
        | ok o =>
          have hf : m.heap.field id field = .ok (o.fields.get? field) := by
            unfold Heap.field
            rw [hl]
            rfl
          rw [hf] at he
          generalize o.fields.get? field = target at he
          cases target <;> cases he
        | error f' =>
          have hf : m.heap.field id field = .error f' := by
            unfold Heap.field
            rw [hl]
            rfl
          rw [hf] at he
          cases he
          exact .inl (Heap.live_error hl)
      · cases he
        exact .inr ⟨rfl, hx⟩
    · cases he
      exact .inr ⟨rfl, hx⟩

end Machine

namespace Exec

/-- Control goes on, or an exception is on its way. -/
def Still.Going (c : Control) : Prop := c = .next ∨ ∃ e, c = .throw e

/-- Instructions that move objects around. -/
def Still.moves : Opcode → Bool
  | .loadLiteral | .allocObject | .load | .store | .reference | .retain | .release | .isNull
  | .assert => true
  | _ => false

/-- Instructions that leave the scopes alone and go on. -/
def Still.quiet : Opcode → Bool
  | .stackAlloc | .stackAllocLiteral | .stackCleanup | .phi | .label | .noRetain | .noRelease
  | .noScopeRegister => true
  | opcode => moves opcode

theorem Still.quiet_of_moves {o : Opcode} (h : moves o = true) : quiet o = true := by
  cases o <;> first | rfl | cases h

/-! ### Bounds -/

/-- An answer as `P` says in a state as `S` says, or a halt that `X` allows. -/
def Within (X : Halt → Prop) (S : Machine σ → Prop) (P : α → Prop) :
    EStateM.Result Halt (Machine σ) α → Prop
  | .ok x m => P x ∧ S m
  | .error halt _ => X halt

/-- From every state the action answers as `P` says and leaves what `R` allows, or halts as `X`
allows. -/
def Confined (X : Halt → Prop) (R : Machine σ → Machine σ → Prop) (P : α → Prop) (a : Exec σ α) :
    Prop := ∀ m, Within X (R m) P (a m)

/-- In any case an action may change nothing, be followed by another, and halt with a fault that is
none of scopes. -/
class Bounds (X : Halt → Prop) (R : Machine σ → Machine σ → Prop) : Prop where
  refl : ∀ m, R m m
  trans : ∀ {m m1 m2}, R m m1 → R m1 m2 → R m m2
  fault : ∀ {f : Fault}, f.isScope = false → X (.fault f)

/-- Names may be bound, objects changed and the handler asked. -/
class Loose (R : Machine σ → Machine σ → Prop) : Prop where
  vars : ∀ m vars, R m { m with vars }
  heap : ∀ m heap, R m { m with heap }
  calls : ∀ m calls, R m { m with calls }

theorem Bounds.heap {X : Halt → Prop} (R : Machine σ → Machine σ → Prop) [Bounds X R] {f : Fault}
    (h : f.isHeap = true) : X (.fault f) := Bounds.fault R (Fault.isScope_of_isHeap h)

theorem Within.mono {X : Halt → Prop} {S T : Machine σ → Prop} {P Q : α → Prop}
    {r : EStateM.Result Halt (Machine σ) α} (h : Within X S P r) (hp : ∀ x, P x → Q x)
    (hs : ∀ m, S m → T m) : Within X T Q r := by
  cases r with
  | ok x m => exact ⟨hp x h.1, hs m h.2⟩
  | error halt m => exact h

namespace Confined

variable {X : Halt → Prop} {R : Machine σ → Machine σ → Prop} {P : α → Prop} {Q : β → Prop}
  {a : Exec σ α} {f : Fault} {i : Instr} {u : Heap → Heap.Update}

theorem mono {P' : α → Prop} (h : Confined X R P a) (hp : ∀ x, P x → P' x) : Confined X R P' a :=
  fun m => (h m).mono hp fun _ => id

theorem halting (hf : X (.fault f)) : Confined X R P (Exec.fail f) := fun _ => hf

theorem get_bind {f : Machine σ → Exec σ β} (hf : ∀ m, Confined X R Q (f m)) :
    Confined X R Q (get >>= f) := fun m => hf m m

theorem modified {f : Machine σ → Machine σ} (hf : ∀ m, R m (f m)) :
    Confined X R (fun _ => True) (modify f) := fun m => ⟨trivial, hf m⟩

theorem allocate {f : Heap → Heap} (hf : ∀ m, R m { m with heap := f m.heap }) :
    Confined X R (fun _ => True) (Exec.allocate f) := fun m => ⟨trivial, hf m⟩

theorem assign [Loose R] (x : String) (b : Binding) :
    Confined X R (fun _ => True) (Exec.assign x b) := modified fun m => Loose.vars m _

variable [Bounds X R]

theorem pure {x : α} (hx : P x) : Confined X R P (Pure.pure x) := fun m => ⟨hx, Bounds.refl X m⟩

theorem fail (hf : f.isScope = false) : Confined X R P (Exec.fail f) := halting (Bounds.fault R hf)

theorem bind {f : α → Exec σ β} (h : Confined X R P a) (hf : ∀ x, P x → Confined X R Q (f x)) :
    Confined X R Q (a >>= f) := by
  intro m
  have hm := h m
  change Within X (R m) Q (EStateM.bind a f m)
  unfold EStateM.bind
  cases ha : a m with
  | error halt m' =>
    rw [ha] at hm
    exact hm
  | ok x m' =>
    rw [ha] at hm
    exact (hf x hm.1 m').mono (fun _ => id) fun _ => Bounds.trans X hm.2

theorem ofExcept {e : Except Fault α} (he : ∀ f, e = .error f → X (.fault f)) :
    Confined X R (fun _ => True) (Exec.ofExcept e) :=
  match e, he with
  | .ok _, _ => .pure trivial
  | .error f, he => .halting (he f rfl)

theorem ofOption {o : Option α} (hf : X (.fault f)) :
    Confined X R (fun _ => True) (Exec.ofOption f o) :=
  match o with
  | some _ => .pure trivial
  | none => .halting hf

theorem required (part : Option α) : Confined X R (fun _ => True) (Exec.required i part) :=
  match part with
  | some _ => .pure trivial
  | none => .fail rfl

theorem operand (k : Nat) : Confined X R (fun x => i.operand? k = some x) (Exec.operand i k) := by
  unfold Exec.operand
  cases i.operand? k with
  | none => exact .fail rfl
  | some x => exact .pure rfl

theorem lookup (x : String) : Confined X R (fun _ => True) (Exec.lookup x) := by
  refine get_bind fun m => ?_
  cases hx : m.lookup x with
  | ok b => exact .pure trivial
  | error f =>
    refine .fail ?_
    rcases Machine.lookup_error hx with hf | ⟨rfl, -⟩
    · exact Fault.isScope_of_isHeap hf
    · rfl

theorem primitive (x : String) : Confined X R (fun _ => True) (Exec.primitive x) :=
  (lookup x).bind fun b _ => match b with
    | .primitive _ => .pure trivial
    | .null => .fail rfl
    | .object _ => .fail rfl

theorem onHeap (hr : ∀ m, R m { m with heap := (u m.heap).2 })
    (hu : ∀ h e, (u h).1 = .error e → e.isHeap = true) :
    Confined X R (fun _ => True) (Exec.onHeap u) := by
  intro m
  have hm := hr m
  have he := hu m.heap
  obtain ⟨heap, vars, scopes, handlers, previous, steps, calls⟩ := m
  unfold Exec.onHeap
  dsimp only at hm he ⊢
  rcases hu : u heap with ⟨_ | _, heap'⟩
  · rw [hu] at he
    exact Bounds.heap R (he _ rfl)
  · rw [hu] at hm
    exact ⟨trivial, hm⟩

theorem onObject {u : ObjectId → Heap → Heap.Update}
    (hu : ∀ id, Confined X R (fun _ => True) (Exec.onHeap (u id))) :
    Confined X R (· = .next) (Exec.onObject i u) := by
  refine (required _).bind fun x _ => (lookup x).bind fun b _ => ?_
  cases b with
  | object id => exact (hu id).bind fun _ _ => .pure rfl
  | null | primitive _ => exact .pure rfl

variable {cfg : Config σ} {rounds : Nat} {p : Payload (Exec σ Control)}
  {leave : String → Exec σ Unit}

theorem counted {a : Exec σ Control} (h : Confined X R (· = .next) a) :
    Confined X R (· = .next) (Exec.counted cfg a) := by
  unfold Exec.counted
  split
  · exact h
  · exact .pure rfl

/-! ### Scopes -/

theorem releaseNames (hr : ∀ m id, R m { m with heap := (m.heap.release id).2 })
    (names : List String) : Confined X R (fun _ => True) (Exec.releaseNames names) := by
  induction names with
  | nil => exact .pure trivial
  | cons x rest ih =>
    refine (lookup x).bind fun b _ => ?_
    cases b with
    | object id =>
      exact (onHeap (hr · id) fun _ _ => Heap.releaseAll_error).bind fun _ _ => ih
    | null | primitive _ => exact ih

theorem exitScope (hX : ∀ f, X (.fault f)) (hs : ∀ m scopes, R m { m with scopes })
    (hr : ∀ m id, R m { m with heap := (m.heap.release id).2 }) (scope : String) :
    Confined X R (fun _ => True) (Exec.exitScope scope) := by
  refine get_bind fun m => ?_
  split
  · exact .halting (hX _)
  · refine (modified fun m => hs m _).bind fun _ _ => ?_
    split
    · exact releaseNames hr _
    · exact .halting (hX _)

theorem unwind (h : ∀ k, Confined X R (fun _ => True) (leave k)) (depth : Nat) :
    Confined X R (fun _ => True) (Exec.unwind leave depth) := by
  refine get_bind fun m => ?_
  generalize m.scopes.length - depth = k
  induction k with
  | zero => exact .pure trivial
  | succ k ih =>
    refine get_bind fun m => ?_
    split
    · exact .pure trivial
    · exact (h _).bind fun _ _ => ih

/-- Counting references, and opening and closing scopes. -/
theorem perform_memory (hX : ∀ f, X (.fault f)) (hs : ∀ m scopes, R m { m with scopes })
    (hl : ∀ k, Confined X R (fun _ => True) (leave k))
    (hretain : ∀ id m, R m { m with heap := (m.heap.retain id).2 })
    (hrelease : ∀ id m, R m { m with heap := (m.heap.release id).2 })
    (hcleanup : i.opcode = .stackCleanup → ∀ id m, R m { m with heap := (m.heap.cleanup id).2 })
    (hm : i.opcode.managesMemory = true) :
    Confined X R (· = .next) (Exec.perform leave cfg rounds i p) := by
  obtain ⟨opcode, operands, result, location, escape, payload⟩ := i
  cases opcode with
  | retain => exact counted (onObject fun id => onHeap (hretain id) fun _ _ => Heap.updateLive_error)
  | release =>
    exact counted (onObject fun id => onHeap (hrelease id) fun _ _ => Heap.releaseAll_error)
  | stackCleanup =>
    exact counted (onObject fun id => onHeap (hcleanup rfl id) fun _ _ => Heap.cleanup_error)
  | scopeEnter =>
    exact counted ((required _).bind fun _ _ => (modified fun m => hs m _).bind fun _ _ => .pure rfl)
  | scopeExit => exact counted ((required _).bind fun id _ => (hl id).bind fun _ _ => .pure rfl)
  | scopeRegister =>
    refine counted ((required _).bind fun _ _ => (required _).bind fun _ _ => get_bind fun m => ?_)
    exact (ofOption (hX _)).bind fun _ _ => (modified fun m => hs m _).bind fun _ _ => .pure rfl
  | _ => cases hm

/-! ### Calls -/

theorem receiver (i : Instr) (site : CallSite) :
    Confined X R (fun _ => True) (Exec.receiver i site) := by
  unfold Exec.receiver
  split
  · exact .pure trivial
  · refine (lookup _).bind fun b _ => ?_
    cases b with
    | null => exact .pure trivial
    | primitive _ => exact .fail rfl
    | object id =>
      exact get_bind fun m => (ofExcept fun _ he => Bounds.heap R (Heap.value_error he)).bind
        fun _ _ => .pure trivial

theorem arguments (i : Instr) (names : List String) :
    Confined X R (fun _ => True) (Exec.arguments i names) := by
  induction names with
  | nil => exact .pure trivial
  | cons x rest ih =>
    have hvalue : ∀ b, Confined X R (fun _ => True) (get >>= fun m : Machine σ =>
        Exec.ofExcept (m.valueOf b) >>= fun v => Exec.arguments i rest >>= fun vs =>
          Pure.pure (v :: vs)) :=
      fun b => get_bind fun m => (ofExcept fun _ he => Bounds.heap R (Machine.valueOf_error he)).bind
        fun _ _ => ih.bind fun _ _ => .pure trivial
    refine (lookup x).bind fun b _ => ?_
    cases b with
    | primitive _ => exact .fail rfl
    | null | object id => exact hvalue _

/-- Whatever the handler fails with is its own. -/
theorem ask (hX : ∀ f, cfg.handler.FailsWith f → X (.fault f))
    (hc : ∀ m calls, R m { m with calls }) (site : CallSite) (r : Receiver)
    (args : List (Option Value)) :
    Confined X R (fun reply => ∃ calls, (cfg.handler site r args calls).1 = .ok reply)
      (Exec.ask cfg.handler site r args) := by
  refine get_bind fun m => (modified fun m' => hc m' _).bind fun _ _ => ?_
  cases hr : (cfg.handler site r args m.calls).1 with
  | ok reply => exact .pure ⟨_, hr⟩
  | error f => exact .halting (hX f ⟨site, r, args, m.calls, hr⟩)

theorem updating (hv : ∀ m id v, R m { m with heap := (m.heap.setValue id v).2 })
    (target : Option ObjectId) (r : Receiver) :
    Confined X R (fun _ => True) (Exec.updating target r) :=
  match target, r with
  | some id, .object v => onHeap (u := (·.setValue id v)) (hv · id v) fun _ _ => Heap.updateLive_error
  | some _, .static => .pure trivial
  | some _, .null => .pure trivial
  | none, _ => .pure trivial

/-! ### Instructions that leave all else alone -/

variable [Loose R]

theorem bindResult (result : Option String) (b : Binding) :
    Confined X R (fun _ => True) (Exec.bindResult result b) :=
  match result with
  | some x => .assign x b
  | none => .pure trivial

theorem yield (i : Instr) (b : Binding) : Confined X R (· = .next) (Exec.yield i b) :=
  (bindResult _ b).bind fun _ _ => .pure rfl

theorem yieldName (i : Instr) (x : String) : Confined X R (· = .next)
    (Exec.lookup x >>= fun b => Exec.bindResult i.result b >>= fun _ => Pure.pure Control.next) :=
  (lookup x).bind fun b _ => yield i b

theorem create (i : Instr) (v : Value) : Confined X R (· = .next) (Exec.create i v) :=
  (allocate fun m => Loose.heap m _).bind fun _ _ => yield i _

theorem changing (hu : ∀ h e, (u h).1 = .error e → e.isHeap = true) :
    Confined X R (fun _ => True) (Exec.onHeap u) := onHeap (fun m => Loose.heap m _) hu

theorem store (target : String) (b : Binding) :
    Confined X R (fun _ => True) (Exec.store target b) := by
  unfold Exec.store
  split
  · exact assign target b
  · refine (lookup _).bind fun holder _ => ?_
    cases holder with
    | null | primitive _ => exact .fail rfl
    | object id =>
      cases b with
      | null | object _ => exact changing fun _ _ => Heap.updateLive_error
      | primitive _ => exact .fail rfl

theorem call (hX : ∀ f, cfg.handler.FailsWith f → X (.fault f)) (i : Instr) (site : CallSite) :
    Confined X R Still.Going (Exec.call cfg i site) := by
  rw [call_eq]
  refine (receiver i site).bind fun _ _ => (arguments i _).bind fun _ _ => ?_
  refine (ask hX Loose.calls _ _ _).bind fun reply _ => ?_
  refine (updating (fun m _ _ => Loose.heap m _) _ _).bind fun _ _ => ?_
  cases reply.outcome with
  | void => exact .pure (.inl rfl)
  | object v =>
    refine (allocate fun m => Loose.heap m _).bind fun _ _ => ?_
    exact (bindResult _ _).bind fun _ _ => .pure (.inl rfl)
  | primitive b => exact (bindResult _ _).bind fun _ _ => .pure (.inl rfl)
  | throw v => exact (allocate fun m => Loose.heap m _).bind fun _ _ => .pure (.inr ⟨_, rfl⟩)

/-- The end of a chain. -/
theorem finishChain (i : Instr) (returning : Option (ChainVariable (Exec σ Control)))
    (result : Option String) : Confined X R (· = .next) (Exec.finishChain i returning result) := by
  cases returning with
  | none =>
    cases result with
    | none => exact yield i _
    | some x => exact yieldName i x
  | some v =>
    cases result with
    | none => exact yieldName i v.name
    | some x => exact (lookup x).bind fun b _ => (assign v.name b).bind fun _ _ => yieldName i v.name

theorem perform_quiet (h : Still.quiet i.opcode = true) :
    Confined X R (· = .next) (Exec.perform leave cfg rounds i p) := by
  obtain ⟨opcode, operands, result, location, escape, payload⟩ := i
  cases opcode with
  | loadLiteral | stackAllocLiteral =>
    exact (required _).bind fun _ _ => (required _).bind fun _ _ => create _ _
  | allocObject | stackAlloc => exact (required _).bind fun _ _ => create _ _
  | load => exact (required _).bind fun x _ => yieldName _ x
  | store =>
    exact (required _).bind fun _ _ => (lookup _).bind fun _ _ => (store _ _).bind fun _ _ =>
      .pure rfl
  | reference => exact (required _).bind fun x _ => (assign x .null).bind fun _ _ => .pure rfl
  | retain => exact counted (onObject fun _ => changing fun _ _ => Heap.updateLive_error)
  | release => exact counted (onObject fun _ => changing fun _ _ => Heap.releaseAll_error)
  | stackCleanup => exact counted (onObject fun _ => changing fun _ _ => Heap.cleanup_error)
  | isNull => exact (required _).bind fun _ _ => (lookup _).bind fun _ _ => yield _ _
  | assert =>
    refine (required _).bind fun _ _ => (primitive _).bind fun holds _ => ?_
    cases holds with
    | true => exact .pure rfl
    | false => exact .fail rfl
  | phi =>
    refine (required _).bind fun incoming _ => get_bind fun m => ?_
    dsimp only
    split
    · exact yieldName _ _
    · exact .fail rfl
  | label | noRetain | noRelease | noScopeRegister => exact .pure rfl
  | _ => cases h

theorem perform_call (hX : ∀ f, cfg.handler.FailsWith f → X (.fault f))
    (h : i.opcode.isCall = true) :
    Confined X R Still.Going (Exec.perform leave cfg rounds i p) := by
  obtain ⟨opcode, operands, result, location, escape, payload⟩ := i
  cases opcode with
  | call | callVirtual | callStatic | callDispatcher => exact (required _).bind fun _ _ => call hX _ _
  | _ => cases h

omit [Loose R]

theorem perform_ret (h : i.opcode = .ret) :
    Confined X R (fun c => ∃ v, c = .ret v) (Exec.perform leave cfg rounds i p) := by
  obtain ⟨opcode, operands, result, location, escape, payload⟩ := i
  cases h
  unfold Exec.perform
  dsimp only
  split
  · exact (lookup _).bind fun _ _ => .pure ⟨_, rfl⟩
  · exact .pure ⟨_, rfl⟩

theorem perform_throw (h : i.opcode = .throw) :
    Confined X R (fun c => ∃ e, c = .throw e) (Exec.perform leave cfg rounds i p) := by
  obtain ⟨opcode, operands, result, location, escape, payload⟩ := i
  cases h
  exact (required _).bind fun _ _ => (lookup _).bind fun _ _ => .pure ⟨_, rfl⟩

/-- A branch goes on or jumps to its target. -/
theorem perform_branch (h : i.opcode.isBranch = true) :
    Confined X R (fun c => (c = .next ∧ i.opcode ≠ .branch) ∨
      ∃ label, c = .jump label ∧ i.targetLabel? = some label)
      (Exec.perform leave cfg rounds i p) := by
  obtain ⟨opcode, operands, result, location, escape, payload⟩ := i
  cases opcode with
  | branch => exact (operand 0).bind fun label hlabel => .pure (.inr ⟨label, rfl, hlabel⟩)
  | branchTrue | branchFalse =>
    refine (operand 0).bind fun x _ => (primitive x).bind fun holds _ => ?_
    dsimp only
    split
    · exact (operand 1).bind fun label hlabel => .pure (.inr ⟨label, rfl, hlabel⟩)
    · exact .pure (.inl ⟨rfl, by simp⟩)
  | _ => cases h

end Confined

end Exec

end ScopedIR
