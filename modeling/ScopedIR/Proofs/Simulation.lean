import ScopedIR.Proofs.NestedExecution

/-!
# One run follows another

A calculus for pairs of actions: `Exec.Follows` says that whenever one action answers, the other
answers the same from a related state, or halts in a way that is excused. There is one rule for each
way in which actions are put together.

A relation between actions that is kept when they are put together holds of chains and logical blocks
once it holds of what is nested in them. A relation between states that the basic actions keep is kept
by every instruction, apart from those that count references or open and close scopes, and these are
left to the relation at hand.

Main definitions:

* `Exec.Congruence`: a relation between actions is kept when they are put together;
* `Exec.Follows`: the second action does what the first does;
* `Exec.Relates`: the second action follows the first from all related states;
* `Exec.Primitives`: a relation is kept by the basic actions;
* `Instr.writes`: the names that code may bind;
* `CallHandler.recorded`: a handler that also lists the calls it receives.

Main statements: `Exec.Congruence.runChain`, `Exec.Primitives.perform`, and `Instr.frame_watchedIn`,
that running code changes no other names.
-/

namespace ScopedIR

variable {σ τ α β : Type}

namespace Exec

variable {a : Exec σ α} {b : Exec τ α} {post : α → Machine σ → Machine τ → Prop}

theorem bind_eq_ok {f : α → Exec σ β} {m m'' : Machine σ} {y : β} :
    (a >>= f) m = .ok y m'' ↔ ∃ x m', a m = .ok x m' ∧ f x m' = .ok y m'' := by
  change EStateM.bind a f m = .ok y m'' ↔ _
  unfold EStateM.bind
  cases ha : a m with
  | ok x m' =>
    constructor
    · exact fun h => ⟨x, m', rfl, h⟩
    · rintro ⟨x', m1, h, hf⟩
      cases h
      exact hf
  | error halt m' =>
    constructor
    · exact fun h => nomatch h
    · rintro ⟨x, m1, h, -⟩
      cases h

theorem answer_eq_ok {m : Machine σ} {x : α} {calls : σ} (h : answer a m = (.ok x, calls)) :
    ∃ m', a m = .ok x m' ∧ m'.calls = calls := by
  unfold answer at h
  cases ha : a m with
  | error halt m' =>
    rw [ha] at h
    cases h
  | ok y m' =>
    rw [ha] at h
    cases h
    exact ⟨m', rfl, rfl⟩

/-- Whenever `a` answers from `m`, so does `b` from `n`, the same and as `post` says; otherwise `b`
halts in a way that is excused. -/
def Follows (excused : Halt → Prop) (a : Exec σ α) (b : Exec τ α) (m : Machine σ) (n : Machine τ)
    (post : α → Machine σ → Machine τ → Prop) : Prop :=
  ∀ x m', a m = .ok x m' →
    match b n with
    | .ok y n' => y = x ∧ post x m' n'
    | .error halt _ => excused halt

variable {X : Halt → Prop} {m : Machine σ} {n : Machine τ}

/-- Where no halt is excused, the second action answers. -/
theorem Follows.ok {x : α} {m' : Machine σ} (h : Follows (fun _ => False) a b m n post)
    (ha : a m = .ok x m') : ∃ n', b n = .ok x n' ∧ post x m' n' := by
  have hx := h x m' ha
  cases hb : b n with
  | ok y n' =>
    rw [hb] at hx
    exact ⟨n', by rw [hx.1], hx.2⟩
  | error halt n' =>
    rw [hb] at hx
    exact hx.elim

theorem Follows.pure {x : α} (h : post x m n) : Follows X (pure x) (pure x) m n post := by
  intro y m' ha
  cases ha
  exact ⟨rfl, h⟩

theorem Follows.fail {f : Fault} : Follows X (fail f) b m n post := by
  intro x m' ha
  cases ha

theorem Follows.diverged : Follows X (throw .diverged) b m n post := by
  intro x m' ha
  cases ha

theorem Follows.modify {f : Machine σ → Machine σ} {g : Machine τ → Machine τ}
    {post : Unit → Machine σ → Machine τ → Prop} (h : post () (f m) (g n)) :
    Follows X (modify f) (modify g) m n post := by
  intro x m' ha
  cases ha
  exact ⟨rfl, h⟩

theorem Follows.bind {a : Exec σ α} {b : Exec τ α} {f : α → Exec σ β} {g : α → Exec τ β}
    {Q : α → Machine σ → Machine τ → Prop} {post : β → Machine σ → Machine τ → Prop}
    (h : Follows X a b m n Q)
    (hf : ∀ x m' n', Q x m' n' → Follows X (f x) (g x) m' n' post) :
    Follows X (a >>= f) (b >>= g) m n post := by
  intro y m'' hab
  obtain ⟨x, m', ha, hy⟩ := bind_eq_ok.1 hab
  have hx := h x m' ha
  change match EStateM.bind b g n with
    | .ok y' n' => y' = y ∧ post y m'' n'
    | .error halt _ => X halt
  unfold EStateM.bind
  cases hb : b n with
  | error halt n' =>
    rw [hb] at hx
    exact hx
  | ok x' n' =>
    rw [hb] at hx
    obtain ⟨rfl, hmid⟩ := hx
    exact hf x' m' n' hmid y m'' hy

/-- Both actions read their own state. -/
theorem Follows.get_bind {f : Machine σ → Exec σ β} {g : Machine τ → Exec τ β}
    {post : β → Machine σ → Machine τ → Prop} (h : Follows X (f m) (g n) m n post) :
    Follows X (get >>= f) (get >>= g) m n post := h

theorem Follows.ofExcept {e e' : Except Fault α} (h : ∀ x, e = .ok x → e' = .ok x ∧ post x m n) :
    Follows X (ofExcept e) (ofExcept e') m n post := by
  intro x m' ha
  cases e with
  | error f => cases ha
  | ok y =>
    cases ha
    obtain ⟨rfl, hp⟩ := h _ rfl
    exact ⟨rfl, hp⟩

theorem Follows.andThen {a a' : Exec σ Control} {b b' : Exec τ Control}
    {Q post : Control → Machine σ → Machine τ → Prop} (h : Follows X a b m n Q)
    (hnext : ∀ m' n', Q .next m' n' → Follows X a' b' m' n' post)
    (hleft : ∀ c m' n', c ≠ .next → Q c m' n' → post c m' n') :
    Follows X (andThen a a') (andThen b b') m n post := by
  unfold Exec.andThen
  refine h.bind fun c m' n' hmid => ?_
  cases c with
  | next => exact hnext m' n' hmid
  | jump l | ret v | throw e => exact .pure (hleft _ _ _ (by simp) hmid)

/-! ### Relations between actions -/

/-- A relation between the actions of two runs is kept when actions are put together, as long as they
bind names in `W`. The states that they read are related by `Q`. -/
structure Congruence (Q : Machine σ → Machine τ → Prop) (W : String → Prop)
    (S : {α : Type} → Exec σ α → Exec τ α → Prop) : Prop where
  pure : ∀ {α : Type} (x : α), S (pure x) (pure x)
  fail : ∀ {α : Type} (f : Fault), S (fail f : Exec σ α) (fail f)
  bind : ∀ {α β : Type} {a : Exec σ α} {b : Exec τ α} {f : α → Exec σ β} {g : α → Exec τ β},
    S a b → (∀ x, S (f x) (g x)) → S (a >>= f) (b >>= g)
  read : ∀ {α : Type} {f : Machine σ → Exec σ α} {g : Machine τ → Exec τ α},
    (∀ m n, Q m n → S (f m) (g n)) → S (get >>= f) (get >>= g)
  lookup : ∀ x, S (lookup x) (lookup x)
  assign : ∀ x b, W x → S (assign x b) (assign x b)
  typeOf : ∀ b, S (get >>= fun m => ofExcept (m.typeOf b)) (get >>= fun n => ofExcept (n.typeOf b))

namespace Congruence

variable {Q : Machine σ → Machine τ → Prop} {W : String → Prop}
  {S : {α : Type} → Exec σ α → Exec τ α → Prop} (C : Congruence Q W S) {result : Option String}
  {i : Instr} {c : Chain Instr} {f g : Instr → Exec σ Control} {f' g' : Instr → Exec τ Control}
  {leave : String → Exec σ Unit} {leave' : String → Exec τ Unit} {a a' : Exec σ Control}
  {b b' : Exec τ Control}

include C

theorem primitive (x : String) : S (primitive x) (primitive x) := C.bind (C.lookup x) fun b => by
  cases b with
  | primitive _ => exact C.pure _
  | null | object _ => exact C.fail _

theorem bindResult (h : ∀ x ∈ result, W x) (b : Binding) :
    S (bindResult result b) (bindResult result b) := by
  cases result with
  | some x => exact C.assign x b (h x rfl)
  | none => exact C.pure ()

theorem yield (h : ∀ x ∈ i.result, W x) (b : Binding) : S (yield i b) (yield i b) :=
  C.bind (C.bindResult h b) fun _ => C.pure _

/-- The result of an instruction is bound to what a name is bound to. -/
theorem yieldName (h : ∀ x ∈ i.result, W x) (x : String) : S
    (Exec.lookup x >>= fun b => Exec.bindResult i.result b >>= fun _ => Pure.pure Control.next)
    (Exec.lookup x >>= fun b => Exec.bindResult i.result b >>= fun _ => Pure.pure Control.next) :=
  C.bind (C.lookup x) fun b => C.yield h b

theorem andThen (h : S a b) (h' : S a' b') : S (andThen a a') (andThen b b') :=
  C.bind h fun c => by
    cases c with
    | next => exact h'
    | _ => exact C.pure _

theorem choose {k : Exec σ Choice} {k' : Exec τ Choice} (h : S a b) (hk : S k k') :
    S (choose a k) (choose b k') := C.bind h fun c => by
  cases c with
  | next => exact hk
  | _ => exact C.pure _

theorem tryCases {cases : List (Case Instr)}
    (h : ∀ e ∈ cases, ∀ l ∈ e.lists, S (runAll (l.map f)) (runAll (l.map f'))) :
    S (tryCases (cases.map (·.map f))) (tryCases (cases.map (·.map f'))) := by
  induction cases with
  | nil => exact C.pure _
  | cons e rest ih =>
    have he := h e List.mem_cons_self
    refine C.choose (he _ (by simp [Case.lists])) (C.bind (C.primitive _) fun holds => ?_)
    cases holds with
    | true =>
      exact C.choose (C.andThen (he _ (by simp [Case.lists])) (he _ (by simp [Case.lists]))) (C.pure _)
    | false => exact ih fun e he => h e (List.mem_cons_of_mem _ he)

theorem select (h : ∀ l ∈ c.lists, S (runAll (l.map f)) (runAll (l.map f'))) :
    S (select (c.mapWith f g)) (select (c.mapWith f' g')) := by
  refine C.bind (C.tryCases fun e he l hl => h l (Chain.mem_lists_of_case he hl)) fun choice => ?_
  cases choice with
  | left _ | taken _ => exact C.pure _
  | refused =>
    cases hb : c.fallback with
    | none =>
      simp only [Chain.mapWith, Chain.map, hb, Option.map_none]
      exact C.pure _
    | some b =>
      simp only [Chain.mapWith, Chain.map, hb, Option.map_some]
      exact C.choose (h b.evaluation (by simp [Chain.lists, hb])) (C.pure _)

theorem finishChain (hi : ∀ x ∈ i.result, W x) (returning : Option (ChainVariable Instr))
    (hv : ∀ v ∈ returning, W v.name) (result : Option String) :
    S (finishChain i (returning.map (·.map f)) result)
      (finishChain i (returning.map (·.map f')) result) := by
  cases returning with
  | none =>
    cases result with
    | none => exact C.yield hi _
    | some x => exact C.yieldName hi x
  | some v =>
    cases result with
    | none => exact C.yieldName hi v.name
    | some x =>
      have hall := C.bind (C.lookup x) fun b => C.bind (C.assign v.name b (hv v rfl)) fun _ =>
        C.yieldName hi v.name
      exact hall

theorem handle {name : String} {depth depth' : Nat} {exception : Binding}
    (hu : S (Exec.unwind leave depth) (Exec.unwind leave' depth')) (hn : W name)
    (h : ∀ l ∈ c.lists, S (runAll (l.map f)) (runAll (l.map f'))) :
    S (handle leave (c.mapWith f g) name depth exception)
      (handle leave' (c.mapWith f' g') name depth' exception) := by
  refine C.bind hu fun _ => ?_
  have hrest : ∀ type, S
      (handleBy leave name depth exception ((c.mapWith f g).handlerFor type TypeName.exception))
      (handleBy leave' name depth' exception
        ((c.mapWith f' g').handlerFor type TypeName.exception)) := by
    intro type
    rw [Chain.handlerFor_mapWith, Chain.handlerFor_mapWith]
    cases hc : c.handlerFor type TypeName.exception with
    | none => exact C.pure _
    | some e =>
      have hbody : e.body.evaluation ∈ c.lists :=
        Chain.mem_lists_of_case (List.mem_of_find?_eq_some hc) (by simp [Case.lists])
      refine C.bind (C.assign name exception hn) fun _ => C.bind (h _ hbody) fun outcome => ?_
      cases outcome with
      | throw _ => exact C.bind hu fun _ => C.pure _
      | next | jump _ | ret _ => exact C.pure _
  have := C.bind (C.typeOf exception) hrest
  rwa [bind_assoc, bind_assoc] at this

section

variable (hu : ∀ m n, Q m n →
    S (Exec.unwind leave m.scopes.length) (Exec.unwind leave' n.scopes.length))
  (h : ∀ l ∈ c.lists, S (runAll (l.map f)) (runAll (l.map f')))
  (hg : ∀ l ∈ c.lists, S (runAll (l.map g)) (runAll (l.map g')))

include hu h hg

theorem runTry {b : TryBlock Instr} (hb : c.tryBlock = some b) (hn : W b.exception) :
    S (runTry leave (c.mapWith f g) (b.map f)) (runTry leave' (c.mapWith f' g') (b.map f')) := by
  refine C.read fun m n hr => ?_
  have hlast : ∀ pending, S (settle (c.mapWith f g) pending) (settle (c.mapWith f' g') pending) := by
    intro pending
    cases hf : c.finallyBlock with
    | none =>
      simp only [settle, Chain.mapWith, hf, Option.map_none]
      exact C.pure _
    | some last =>
      simp only [settle, Chain.mapWith, hf, Option.map_some]
      exact C.andThen (hg last.evaluation (by simp [Chain.lists, hf])) (C.pure _)
  refine C.bind (h b.evaluation (by simp [Chain.lists, hb])) fun control => ?_
  cases control with
  | throw e => exact C.bind (C.handle (hu m n hr) hn h) hlast
  | next | jump _ | ret _ => exact hlast _

/-- A chain, given what its loop does if it is one. -/
theorem runChain {rounds rounds' : Nat} (hi : ∀ x ∈ i.result, W x)
    (hv : ∀ v ∈ c.returning, W v.name) (hn : ∀ b ∈ c.tryBlock, W b.exception)
    (hloop : c.kind.isLoop = true → ∀ e ∈ c.cases.head?, ∀ bodyFirst,
      S (loop rounds bodyFirst (e.map f)) (loop rounds' bodyFirst (e.map f'))) :
    S (runChain leave rounds i (c.mapWith f g)) (runChain leave' rounds' i (c.mapWith f' g')) := by
  have hsetup : ∀ v : Option (ChainVariable Instr), (∀ x ∈ v, x.setup ∈ c.lists) →
      S (runSetup (v.map (·.map f))) (runSetup (v.map (·.map f'))) := by
    intro v hv
    cases v with
    | none => exact C.pure _
    | some x => exact h _ (hv x rfl)
  unfold Exec.runChain
  change S (if c.kind = .tryCatchFinally then _ else _) (if c.kind = .tryCatchFinally then _ else _)
  split
  · cases hb : c.tryBlock with
    | none =>
      simp only [Chain.mapWith, Chain.map, hb, Option.map_none]
      exact C.fail _
    | some b =>
      have := C.runTry hu h hg hb (hn b hb)
      simp only [Chain.mapWith, Chain.map, hb, Option.map_some] at this ⊢
      exact this
  · refine C.andThen (hsetup c.subject fun x hx => ?_) (C.andThen (hsetup c.returning fun x hx => ?_) ?_)
    · simp [Chain.lists, Option.mem_def.1 hx]
    · simp [Chain.lists, Option.mem_def.1 hx]
    · change S (if c.kind.isLoop then _ else _) (if c.kind.isLoop then _ else _)
      split
      · next hkind =>
        cases hc : c.cases with
        | nil =>
          simp only [Chain.mapWith, Chain.map, hc, List.map_nil]
          exact C.fail _
        | cons e rest =>
          simp only [Chain.mapWith, Chain.map, hc, List.map_cons]
          exact hloop hkind e (by rw [hc]; rfl) _
      · refine C.bind (C.select h) fun choice => ?_
        cases choice with
        | left _ => exact C.pure _
        | taken _ | refused => exact C.finishChain hi c.returning hv _

end

theorem runLogical {b : LogicalBlock Instr} (hi : ∀ x ∈ i.result, W x)
    (h : ∀ l ∈ b.lists, S (runAll (l.map f)) (runAll (l.map f'))) :
    S (runLogical i (b.map f)) (runLogical i (b.map f')) := by
  refine C.andThen (h _ (by simp [LogicalBlock.lists])) (C.bind (C.primitive _) fun holds => ?_)
  change S (if decides b.op holds then _ else _) (if decides b.op holds then _ else _)
  split
  · exact C.yieldName hi _
  · exact C.andThen (h _ (by simp [LogicalBlock.lists]))
      (C.andThen (h _ (by simp [LogicalBlock.lists])) (C.yieldName hi _))

end Congruence

/-! ### Relations between states that actions keep -/

/-- The second action follows the first from related states, and leaves related states. -/
def Relates (X : Halt → Prop) (R : Machine σ → Machine τ → Prop) (a : Exec σ α) (b : Exec τ α) :
    Prop :=
  ∀ m n, R m n → Follows X a b m n fun _ => R

namespace Relates

variable {R : Machine σ → Machine τ → Prop}

theorem pure (x : α) : Relates X R (pure x) (pure x) := fun _ _ h => .pure h

theorem fail {f : Fault} {b : Exec τ α} : Relates X R (fail f) b := fun _ _ _ => .fail

theorem bind {a : Exec σ α} {b : Exec τ α} {f : α → Exec σ β} {g : α → Exec τ β}
    (h : Relates X R a b) (hf : ∀ x, Relates X R (f x) (g x)) :
    Relates X R (a >>= f) (b >>= g) :=
  fun m n hr => (h m n hr).bind fun x m' n' hr' => hf x m' n' hr'

variable {a : Exec σ Control} {b : Exec τ Control}

theorem andThen {a' : Exec σ Control} {b' : Exec τ Control} (h : Relates X R a b)
    (h' : Relates X R a' b') : Relates X R (andThen a a') (Exec.andThen b b') :=
  fun m n hr => (h m n hr).andThen (fun m' n' hr' => h' m' n' hr') fun _ _ _ _ hr' => hr'

theorem required {i : Instr} (part : Option α) :
    Relates X R (required i part) (required i part) :=
  match part with
  | some _ => .pure _
  | none => .fail

theorem operand (i : Instr) (k : Nat) : Relates X R (operand i k) (operand i k) := required _

theorem runAll {ι : Type} {f : ι → Exec σ Control} {g : ι → Exec τ Control} {l : List ι}
    (h : ∀ i ∈ l, Relates X R (f i) (g i)) : Relates X R (runAll (l.map f)) (runAll (l.map g)) := by
  induction l with
  | nil => exact .pure _
  | cons i rest ih =>
    exact (h i List.mem_cons_self).andThen (ih fun j hj => h j (List.mem_cons_of_mem _ hj))

theorem repeatUntil {a : Exec σ (Option Control)} {b : Exec τ (Option Control)}
    (h : Relates X R a b) (k : Nat) : Relates X R (repeatUntil a k) (repeatUntil b k) := by
  induction k with
  | zero => exact fun _ _ _ => .diverged
  | succ k ih =>
    refine h.bind fun r => ?_
    cases r with
    | some c => exact .pure _
    | none => exact ih

theorem stayInside (i : Instr) (c : Control) :
    Relates X R (stayInside i c) (stayInside i c) :=
  match c with
  | .jump _ => .fail
  | .next => .pure _
  | .ret _ => .pure _
  | .throw _ => .pure _

end Relates

/-- The relation `R` is kept by the basic actions of two runs, as long as they bind names in `W`. -/
structure Primitives (X : Halt → Prop) (R : Machine σ → Machine τ → Prop) (W : String → Prop)
    (cfg : Config σ) (cfg' : Config τ) (leave : String → Exec σ Unit)
    (leave' : String → Exec τ Unit) : Prop where
  lookup : ∀ x, Relates X R (lookup x) (lookup x)
  value : ∀ id, Relates X R (get >>= fun m => ofExcept (m.heap.value id))
    (get >>= fun n => ofExcept (n.heap.value id))
  assign : ∀ x b, W x → Relates X R (assign x b) (assign x b)
  setValue : ∀ id v, Relates X R (onHeap (·.setValue id v)) (onHeap (·.setValue id v))
  setField : ∀ id name target,
    Relates X R (onHeap (·.setField id name target)) (onHeap (·.setField id name target))
  alloc : ∀ v onStack, Relates X R (allocate (·.alloc v onStack)) (allocate (·.alloc v onStack))
  allocOwned : ∀ v, Relates X R (allocate (·.allocOwned v)) (allocate (·.allocOwned v))
  ask : ∀ site r args, Relates X R (ask cfg.handler site r args) (ask cfg'.handler site r args)
  tick : Relates X R (tick cfg.maxSteps) (tick cfg'.maxSteps)
  unwind : ∀ m n, R m n →
    Relates X R (unwind leave m.scopes.length) (unwind leave' n.scopes.length)
  handlers : ∀ m n, R m n → n.handlers = m.handlers
  setHandlers : ∀ m n l, R m n → R { m with handlers := l } { n with handlers := l }
  previous : ∀ m n, R m n → n.previous = m.previous
  setPrevious : ∀ m n b, R m n → R { m with previous := b } { n with previous := b }

namespace Primitives

variable {R : Machine σ → Machine τ → Prop} {W : String → Prop} {cfg : Config σ} {cfg' : Config τ}
  {leave : String → Exec σ Unit} {leave' : String → Exec τ Unit} {rounds : Nat}
  (P : Primitives X R W cfg cfg' leave leave')

include P

variable {result : Option String} {i : Instr} {c : Chain Instr}

/-- What is read off the value of an object. -/
theorem value_map (id : ObjectId) (f : Value → α) :
    Relates X R (get >>= fun m => ofExcept (f <$> m.heap.value id))
      (get >>= fun n => ofExcept (f <$> n.heap.value id)) := by
  have hread : ∀ {ρ : Type}, (get >>= fun m : Machine ρ => ofExcept (f <$> m.heap.value id)) =
      (get >>= fun m : Machine ρ => ofExcept (m.heap.value id)) >>= fun v => Pure.pure (f v) := by
    intro ρ
    funext m
    change ofExcept (f <$> m.heap.value id) m = (ofExcept (m.heap.value id) >>= fun v => _) m
    cases m.heap.value id <;> rfl
  rw [hread, hread]
  exact (P.value id).bind fun _ => .pure _

theorem valueOf (b : Binding) : Relates X R (get >>= fun m => ofExcept (m.valueOf b))
    (get >>= fun n => ofExcept (n.valueOf b)) := by
  cases b with
  | null | primitive v => exact .pure _
  | object id => exact P.value_map id some

theorem typeOf (b : Binding) : Relates X R (get >>= fun m => ofExcept (m.typeOf b))
    (get >>= fun n => ofExcept (n.typeOf b)) := by
  cases b with
  | null | primitive v => exact .pure _
  | object id => exact P.value_map id Value.typeName

/-- The relation between actions goes along with how they are put together. -/
theorem congruence : Congruence R W (Relates X R) where
  pure := .pure
  fail _ := .fail
  bind := .bind
  read h m n hr := .get_bind (h m n hr m n hr)
  lookup := P.lookup
  assign := P.assign
  typeOf := P.typeOf

theorem create (h : ∀ x ∈ i.result, W x) (v : Value) : Relates X R (create i v) (create i v) :=
  (P.alloc v _).bind fun id => P.congruence.yield h (.object id)

theorem store {target : String} (h : W target)
    (b : Binding) : Relates X R (store target b) (store target b) := by
  unfold Exec.store
  split
  · exact P.assign target b h
  · refine (P.lookup _).bind fun holder => ?_
    cases holder with
    | null | primitive _ => exact .fail
    | object id =>
      cases b with
      | null => exact P.setField id _ none
      | primitive _ => exact .fail
      | object value => exact P.setField id _ (some value)

/-! ### Calls -/

theorem receiver (i : Instr) (site : CallSite) :
    Relates X R (receiver i site) (receiver i site) := by
  unfold Exec.receiver
  split
  · exact .pure _
  · refine (P.lookup _).bind fun b => ?_
    cases b with
    | null => exact .pure _
    | primitive _ => exact .fail
    | object id =>
      have := (P.value id).bind fun v => Relates.pure (X := X) (R := R) (Receiver.object v, some id)
      rwa [bind_assoc, bind_assoc] at this

theorem arguments (i : Instr) (names : List String) :
    Relates X R (arguments i names) (arguments i names) := by
  induction names with
  | nil => exact .pure _
  | cons x rest ih =>
    refine (P.lookup x).bind fun b => ?_
    have hvalue := (P.valueOf b).bind fun v => ih.bind fun vs => Relates.pure (v :: vs)
    rw [bind_assoc, bind_assoc] at hvalue
    cases b with
    | null | object id => exact hvalue
    | primitive _ => exact .fail

theorem updating (target : Option ObjectId)
    (r : Receiver) : Relates X R (updating target r) (updating target r) :=
  match target, r with
  | some id, .object v => P.setValue id v
  | some _, .static => .pure ()
  | some _, .null => .pure ()
  | none, _ => .pure ()

theorem concluding (h : ∀ x ∈ result, W x)
    (outcome : CallOutcome) : Relates X R (concluding result outcome) (concluding result outcome) :=
  match outcome with
  | .void => .pure _
  | .object v => (P.alloc v false).bind fun _ => (P.congruence.bindResult h _).bind fun _ => .pure _
  | .primitive _ => (P.congruence.bindResult h _).bind fun _ => .pure _
  | .throw v => (P.allocOwned v).bind fun _ => .pure _

theorem call {i : Instr} (h : ∀ x ∈ i.result, W x)
    (site : CallSite) : Relates X R (call cfg i site) (call cfg' i site) := by
  rw [call_eq, call_eq]
  exact (P.receiver i site).bind fun _ => (P.arguments i _).bind fun _ => (P.ask _ _ _).bind fun _ =>
    (P.updating _ _).bind fun _ => P.concluding h _

/-! ### Chains and logical blocks -/

variable {f g : Instr → Exec σ Control} {f' g' : Instr → Exec τ Control}

theorem loop {e : Case Instr} (bodyFirst : Bool)
    (h : ∀ l ∈ e.lists, ∀ i ∈ l, Relates X R (f i) (f' i)) :
    Relates X R (loop rounds bodyFirst (e.map f)) (loop rounds bodyFirst (e.map f')) := by
  have hlist : ∀ l ∈ e.lists, Relates X R (runAll (l.map f)) (runAll (l.map f')) := fun l hl =>
    .runAll (h l hl)
  have htest : Relates X R (loopTest (e.map f)) (loopTest (e.map f')) := by
    refine (hlist _ (by simp [Case.lists])).bind fun c => ?_
    cases c with
    | next =>
      refine (P.congruence.primitive _).bind fun holds => ?_
      cases holds <;> exact .pure _
    | jump _ | ret _ | throw _ => exact .pure _
  have hround : Relates X R (loopRound (e.map f)) (loopRound (e.map f')) := by
    refine ((hlist _ (by simp [Case.lists])).andThen (hlist _ (by simp [Case.lists]))).bind
      fun c => ?_
    cases c with
    | next => exact htest
    | jump _ | ret _ | throw _ => exact .pure _
  cases bodyFirst with
  | true => exact hround.repeatUntil rounds
  | false =>
    refine htest.bind fun r => ?_
    cases r with
    | some c => exact .pure _
    | none => exact hround.repeatUntil rounds

end Primitives

end Exec

/-! ### Instructions -/

/-- The opcodes that count references, and those that open and close scopes. -/
def Opcode.managesMemory : Opcode → Bool
  | .retain | .release | .stackCleanup | .scopeEnter | .scopeExit | .scopeRegister => true
  | _ => false

namespace Instr

/-- The names that an instruction itself may bind: its result, the exception of a try chain, the
variable that a chain returns, and a variable that it declares or stores to. -/
def ownWrites (i : Instr) : List String :=
  i.result.toList ++ ((i.chain?.bind (·.tryBlock)).map (·.exception)).toList ++
    ((i.chain?.bind (·.returning)).map (·.name)).toList ++
    if i.opcode = .store ∨ i.opcode = .reference then (i.operand? 0).toList else []

end Instr

namespace Exec.Primitives

variable {X : Halt → Prop} {R : Machine σ → Machine τ → Prop} {W : String → Prop} {cfg : Config σ}
  {cfg' : Config τ} {leave : String → Exec σ Unit} {leave' : String → Exec τ Unit} {rounds : Nat}
  {f g : Instr → Exec σ Control} {f' g' : Instr → Exec τ Control}

open Instr

/-- The effect of an instruction, given the effects of its nested lists. -/
theorem perform (P : Primitives X R W cfg cfg' leave leave') {i : Instr}
    (hw : ∀ x ∈ i.ownWrites, W x)
    (hm : i.opcode.managesMemory = true →
      Relates X R (perform leave cfg rounds i (i.payload.mapWith f g))
        (perform leave' cfg' rounds i (i.payload.mapWith f' g')))
    (h : ∀ l ∈ i.lists, ∀ j ∈ l, Relates X R (f j) (f' j) ∧ Relates X R (g j) (g' j)) :
    Relates X R (perform leave cfg rounds i (i.payload.mapWith f g))
      (perform leave' cfg' rounds i (i.payload.mapWith f' g')) := by
  have hresult : ∀ x ∈ i.result, W x := by
    intro x hx
    exact hw x (by simp [ownWrites, Option.mem_def.1 hx])
  obtain ⟨opcode, operands, result, location, escape, payload⟩ := i
  cases opcode with
  | loadLiteral | stackAllocLiteral =>
    exact (Relates.required _).bind fun _ => (Relates.required _).bind fun _ => P.create hresult _
  | allocObject | stackAlloc => exact (Relates.required _).bind fun _ => P.create hresult _
  | load | isNull =>
    exact (Relates.operand _ _).bind fun _ => (P.lookup _).bind fun _ => P.congruence.yield hresult _
  | store =>
    unfold Exec.perform
    dsimp only
    cases hs : storeParts? ⟨.store, operands, result, location, escape, payload⟩ with
    | none => exact .fail
    | some parts =>
      obtain ⟨target, value⟩ := parts
      have ht : W target := by
        refine hw target ?_
        unfold storeParts? at hs
        cases h0 : operand? ⟨.store, operands, result, location, escape, payload⟩ 0 with
        | none => simp [h0] at hs
        | some a =>
          cases h1 : operand? ⟨.store, operands, result, location, escape, payload⟩ 1 with
          | none => simp [h1] at hs
          | some b =>
            simp only [h0, h1] at hs
            cases hs
            simp [ownWrites, h0]
      exact (P.lookup value).bind fun b => (P.store ht b).bind fun _ => .pure _
  | reference =>
    unfold Exec.perform operand
    dsimp only
    cases ho : operand? ⟨.reference, operands, result, location, escape, payload⟩ 0 with
    | none => exact .fail
    | some x =>
      exact (P.assign x .null (hw x (by simp [ownWrites, ho]))).bind fun _ => .pure _
  | retain | release | stackCleanup | scopeEnter | scopeExit | scopeRegister => exact hm rfl
  | call | callVirtual | callStatic | callDispatcher =>
      exact (Relates.required _).bind fun _ => P.call hresult _
  | branch => exact (Relates.operand _ _).bind fun _ => .pure _
  | branchTrue | branchFalse =>
    refine (Relates.operand _ _).bind fun _ => (P.congruence.primitive _).bind fun holds => ?_
    split
    · exact (Relates.operand _ _).bind fun _ => .pure _
    · exact .pure _
  | assert =>
    refine (Relates.operand _ _).bind fun _ => (P.congruence.primitive _).bind fun holds => ?_
    split
    · exact .pure _
    · exact .fail
  | ret =>
    unfold Exec.perform
    dsimp only
    split
    · exact (P.lookup _).bind fun _ => .pure _
    · exact .pure _
  | throw => exact (Relates.operand _ _).bind fun _ => (P.lookup _).bind fun _ => .pure _
  | setupHandler =>
    refine (Relates.operand _ _).bind fun label => ?_
    refine .bind (fun m n hr => .modify ?_) fun _ => .pure _
    rw [P.handlers m n hr]
    exact P.setHandlers m n _ hr
  | phi =>
    refine (Relates.required _).bind fun incoming => fun m n hr => .get_bind ?_
    dsimp only
    rw [P.previous m n hr]
    split
    · exact (P.lookup _).bind (fun _ => P.congruence.yield hresult _) m n hr
    · exact .fail
  | chain =>
    cases payload with
    | plain | call _ | logical _ => exact .fail
    | chain c =>
      refine P.congruence.runChain P.unwind (fun l hl => .runAll fun j hj => (h l hl j hj).1)
        (fun l hl => .runAll fun j hj => (h l hl j hj).2) hresult (fun v hv => hw _ ?_)
        (fun b hb => hw _ ?_) fun _ e he bodyFirst => P.loop bodyFirst fun l hl j hj => (h l ?_ j hj).1
      · simp [ownWrites, chain?, Option.mem_def.1 hv]
      · simp [ownWrites, chain?, Option.mem_def.1 hb]
      · exact Chain.mem_lists_of_case (List.mem_of_mem_head? he) hl
  | logicalAnd | logicalOr =>
    cases payload with
    | plain | call _ | chain _ => exact .fail
    | logical b =>
      exact P.congruence.runLogical hresult fun l hl => .runAll fun j hj => (h l hl j hj).1
  | label | noRetain | noRelease | noScopeRegister => exact .pure _

/-! ### Blocks -/

theorem blockAt (body : Body) (label : String) :
    Relates X R (blockAt body label) (blockAt body label) := by
  unfold Exec.blockAt
  cases body.find? label with
  | some b => exact .pure b
  | none => exact .fail

theorem runBlock (P : Primitives X R W cfg cfg' leave leave') (hw : ∀ x, W x) (body : Body) (b : Nat)
    {block : Block} (h : ∀ i ∈ block.instrs, Relates X R (f i) (f' i)) :
    Relates X R (runBlock f body b block) (runBlock f' body b block) := by
  refine (Relates.runAll h).bind fun c => ?_
  cases c with
  | next =>
    dsimp only
    split
    · exact .pure _
    · exact .pure _
  | jump label => exact (blockAt body label).bind fun _ => .pure _
  | ret _ => exact .pure _
  | throw e =>
    refine fun m n hr => .get_bind ?_
    rw [P.handlers m n hr]
    split
    · refine .bind (Q := fun _ => R) (.modify (P.setHandlers m n _ hr)) ?_
      exact fun _ m' n' hr' =>
        (P.assign _ _ (hw _)).bind (fun _ => (blockAt body _).bind fun _ => .pure _) m' n' hr'
    · exact .pure hr

/-- The walk from block to block. -/
theorem runBlocks (P : Primitives X R W cfg cfg' leave leave') (hw : ∀ x, W x) {body : Body}
    (h : ∀ i ∈ body.instrs, Relates X R (f i) (f' i)) (k b : Nat) :
    Relates X R (runBlocks f body k b) (runBlocks f' body k b) := by
  induction k generalizing b with
  | zero => exact fun _ _ _ => .diverged
  | succ k ih =>
    unfold Exec.runBlocks
    cases hblock : body.blocks.get? b with
    | none => exact .pure _
    | some block =>
      have hmem : block ∈ body.toList := by
        have : body.blocks.slots[b]? = some block := hblock
        exact Array.mem_toList_iff.2 (Array.mem_of_getElem? this)
      refine (P.runBlock hw body b fun i hi => h i (List.mem_flatMap.2 ⟨block, hmem, hi⟩)).bind
        fun r => ?_
      cases r with
      | inr c => exact .pure _
      | inl next => exact .bind (fun m n hr => .modify (P.setPrevious m n _ hr)) fun _ => ih next

end Exec.Primitives

/-- What holds of an instruction once it holds of everything nested in it, holds of every one. -/
theorem Instr.nested_induction {P : Instr → Prop}
    (h : ∀ i : Instr, (∀ l ∈ i.lists, ∀ j ∈ l, P j) → P i) (i : Instr) : P i := by
  induction hk : i.preorder.length using Nat.strongRecOn generalizing i with
  | ind k ih =>
    refine h i fun l hl j hj => ih j.preorder.length ?_ j rfl
    have hinner : j.preorder.Sublist (l.flatMap preorder) :=
      List.sublist_flatten_of_mem (List.mem_map_of_mem hj)
    have houter : (l.flatMap preorder).Sublist (i.lists.flatMap fun l => l.flatMap preorder) :=
      List.sublist_flatten_of_mem (List.mem_map_of_mem hl)
    have hlength := (hinner.trans houter).length_le
    rw [preorder_eq i, List.length_cons] at hk
    omega

theorem Instr.mem_preorder_self (i : Instr) : i ∈ i.preorder := by
  rw [preorder_eq]
  exact List.mem_cons_self

theorem Instr.mem_preorder_of_nested {i j k : Instr} {l : List Instr} (hl : l ∈ i.lists) (hj : j ∈ l)
    (hk : k ∈ j.preorder) : k ∈ i.preorder := by
  rw [preorder_eq]
  exact List.mem_cons_of_mem _ (List.mem_flatMap.2 ⟨l, hl, List.mem_flatMap.2 ⟨j, hj, hk⟩⟩)

/-! ### The calls of a run -/

/-- A call as its handler receives it. -/
structure HandledCall where
  site : CallSite
  receiver : Receiver
  args : List (Option Value)

/-- A handler that also lists the calls it receives, the latest last. -/
def CallHandler.recorded (handler : CallHandler σ) : CallHandler (σ × List HandledCall) :=
  fun site receiver args (s, calls) =>
    let (reply, s) := handler site receiver args s
    (reply, s, calls ++ [{ site, receiver, args }])

/-- Run an operation, and list the calls that its handler receives. -/
def Operation.runRecorded (cfg : Config σ) (op : Operation) (args : List Value) (calls : σ) :
    Except Halt RunResult × σ × List HandledCall :=
  op.run { cfg with handler := cfg.handler.recorded } args (calls, [])

end ScopedIR
