import ScopedIR.Proofs.ConfinedActions
import ScopedIR.Proofs.CountedHeap

/-!
# Counting references changes no result

A run that counts references and one that does not go through the same states, but for the counts,
the open scopes and the objects that were freed. An object that the counting run may still look at
shows the same value and the same fields in both. So whatever the counting run answers, the other one
answers too.

Main statement: `runRecorded_gc_of_arc`, for every operation that cleans up no object on the stack.
-/

namespace ScopedIR

variable {σ α β : Type}

/-! ### Heaps that show the same -/

namespace Heap

/-- What is live in `h` is live in `g`, with the same value and the same fields. -/
structure ShownBy (h g : Heap) : Prop where
  next : g.next = h.next
  shown : ∀ id o, h.get? id = some o → o.freed = false →
    ∃ o', g.get? id = some o' ∧ o'.freed = false ∧ o'.value = o.value ∧ o'.fields = o.fields

theorem ShownBy.refl (h : Heap) : h.ShownBy h := ⟨rfl, fun _ o ho hf => ⟨o, ho, hf, rfl, rfl⟩⟩

variable {g h : Heap} {id : ObjectId}

theorem ShownBy.fade {h' : Heap} (hs : h.ShownBy g) (hf : h.Fades h') : h'.ShownBy g where
  next := hs.next.trans hf.next.symm
  shown := by
    intro id o' ho' hl'
    obtain ⟨o, ho, hl, hv, hfields⟩ := hf.live id o' ho' hl'
    obtain ⟨o1, ho1, hl1, hv1, hfields1⟩ := hs.shown id o ho hl
    exact ⟨o1, ho1, hl1, hv1.trans hv.symm, hfields1.trans hfields.symm⟩

theorem ShownBy.add (hs : h.ShownBy g) (o : HeapObject) :
    (h.add o).ShownBy (g.add o) where
  next := by
    have := hs.next
    simp only [Heap.next, size, Heap.add, Arena.size_push, ObjectId.mk.injEq] at this ⊢
    omega
  shown := by
    intro id o' ho' hl'
    rw [get?_add] at ho'
    split at ho'
    · next hid =>
      cases ho'
      exact ⟨o, by rw [get?_add, if_pos (hid.trans hs.next.symm)], hl', rfl, rfl⟩
    · obtain ⟨o1, ho1, h1⟩ := hs.shown id o' ho' hl'
      exact ⟨o1, get?_add_of_some ho1, h1⟩

theorem ShownBy.live {o : HeapObject} (hs : h.ShownBy g) (hl : h.live id = .ok o) :
    ∃ o', g.live id = .ok o' ∧ o'.value = o.value ∧ o'.fields = o.fields := by
  unfold Heap.live at hl
  split at hl
  · next o1 ho1 =>
    cases hf : o1.freed with
    | true =>
      rw [hf] at hl
      cases hl
    | false =>
      rw [hf] at hl
      cases hl
      obtain ⟨o', ho', hl', hv, hfields⟩ := hs.shown id o ho1 hf
      exact ⟨o', live_eq_ok ho' hl', hv, hfields⟩
  · cases hl

/-- Both heaps change a live object in the same way. -/
theorem ShownBy.updateLive {f : HeapObject → HeapObject} (hs : h.ShownBy g)
    (hok : (h.updateLive id f).1 = .ok ()) (hf : ∀ o, (f o).freed = o.freed)
    (hsame : ∀ o o', o'.value = o.value → o'.fields = o.fields →
      (f o').value = (f o).value ∧ (f o').fields = (f o).fields) :
    (g.updateLive id f).1 = .ok () ∧ (h.updateLive id f).2.ShownBy (g.updateLive id f).2 := by
  unfold Heap.updateLive at hok ⊢
  cases hl : h.live id with
  | error fault =>
    rw [hl] at hok
    cases hok
  | ok o =>
    obtain ⟨o', hl', hv, hfields⟩ := hs.live hl
    rw [hl']
    refine ⟨rfl, (next_modify g id f).trans (hs.next.trans (next_modify h id f).symm), ?_⟩
    intro a o1 ho1 hl1
    rw [get?_modify] at ho1 ⊢
    split at ho1
    · next ha =>
      rw [if_pos ha]
      obtain ⟨o2, ho2, rfl⟩ := Option.map_eq_some_iff.1 ho1
      rw [hf] at hl1
      obtain ⟨o3, ho3, hl3, hv3, hfields3⟩ := hs.shown a o2 ho2 hl1
      rw [ho3]
      exact ⟨f o3, rfl, (hf o3).trans hl3, hsame o2 o3 hv3 hfields3⟩
    · next ha =>
      rw [if_neg ha]
      exact hs.shown a o1 ho1 hl1

end Heap

/-! ### States of the two runs -/

/-- The state `n` of a run that does not count references, next to the state `m` of one that does. -/
structure Uncounted (m n : Machine σ) : Prop where
  heap : m.heap.ShownBy n.heap
  vars : n.vars = m.vars
  scopes : n.scopes = []
  handlers : n.handlers = m.handlers
  previous : n.previous = m.previous
  steps : n.steps = m.steps
  calls : n.calls = m.calls

namespace Uncounted

variable {m n : Machine σ}

theorem value (h : Uncounted m n) {id : ObjectId} {v : Value} (hv : m.heap.value id = .ok v) :
    n.heap.value id = .ok v := by
  obtain ⟨o, hl, hv⟩ := except_bind_eq_ok.1 hv
  obtain ⟨o', hl', hv', -⟩ := h.heap.live hl
  cases hv
  exact except_bind_eq_ok.2 ⟨o', hl', congrArg Except.ok hv'⟩

variable {b : Binding}

theorem valueOf (h : Uncounted m n) {v : Option Value} (hv : m.valueOf b = .ok v) :
    n.valueOf b = .ok v := by
  cases b with
  | null | primitive _ => exact hv
  | object id =>
    obtain ⟨w, hw, hv⟩ := except_bind_eq_ok.1 hv
    exact except_bind_eq_ok.2 ⟨w, h.value hw, hv⟩

theorem lookup (h : Uncounted m n) {x : String} (hb : m.lookup x = .ok b) : n.lookup x = .ok b := by
  unfold Machine.lookup at *
  rw [h.vars]
  split at hb
  · exact hb
  · split at hb
    · next holder field _ =>
      split at hb
      · next id hid =>
        obtain ⟨target, ht, hb⟩ := except_bind_eq_ok.1 hb
        obtain ⟨o, hl, ht⟩ := except_bind_eq_ok.1 ht
        obtain ⟨o', hl', -, hfields⟩ := h.heap.live hl
        cases ht
        rw [← hfields] at hb
        exact except_bind_eq_ok.2 ⟨_, except_bind_eq_ok.2 ⟨o', hl', rfl⟩, hb⟩
      · cases hb
    · cases hb

/-- Both runs bind a name. -/
theorem bind (h : Uncounted m n) (x : String) (b : Binding) :
    Uncounted { m with vars := m.vars.insert x b } { n with vars := n.vars.insert x b } :=
  { h with vars := by rw [h.vars] }

/-- The counting run alone drops references or opens and closes scopes. -/
theorem fade (h : Uncounted m n) {heap : Heap} {scopes : List OpenScope}
    (hf : m.heap.Fades heap) : Uncounted { m with heap, scopes } n :=
  { h with heap := h.heap.fade hf }

end Uncounted

namespace Exec

/-! ### What counting alone does -/

/-- An action that only drops references or opens and closes scopes, and answers as `P` says. -/
def Fading (P : α → Prop) (a : Exec σ α) : Prop :=
  ∀ m x m', a m = .ok x m' →
    P x ∧ ∃ heap scopes, m' = { m with heap, scopes } ∧ m.heap.Fades heap

/-- The state after dropping references or opening and closing scopes. -/
def Fades (m m' : Machine σ) : Prop := ∃ heap scopes, m' = { m with heap, scopes } ∧ m.heap.Fades heap

instance : Bounds (fun _ => True) (Fades (σ := σ)) where
  refl m := ⟨m.heap, m.scopes, rfl, .refl _⟩
  trans := by
    rintro m _ _ ⟨heap, scopes, rfl, h⟩ ⟨heap', scopes', rfl, h'⟩
    exact ⟨heap', scopes', rfl, h.trans h'⟩
  fault _ := trivial

theorem Fades.setScopes (m : Machine σ) (scopes : List OpenScope) : Fades m { m with scopes } :=
  ⟨m.heap, scopes, rfl, .refl _⟩

theorem Fades.setHeap {m : Machine σ} {heap : Heap} (h : m.heap.Fades heap) : Fades m { m with heap } :=
  ⟨heap, m.scopes, rfl, h⟩

namespace Confined

theorem fading {P : α → Prop} {a : Exec σ α} (h : Confined (fun _ => True) Fades P a) : Fading P a := by
  intro m x m' ha
  have hm := h m
  rw [ha] at hm
  exact hm

theorem leave_fades (scope : String) :
    Confined (fun _ => True) Fades (fun _ => True) (Exec.exitScope (σ := σ) scope) :=
  exitScope (fun _ => trivial) Fades.setScopes
    (fun m id => Fades.setHeap (m.heap.fades_releaseAll [id])) scope

end Confined

/-- The instructions of counting and of scopes, but those that clean up on the stack. -/
theorem Fading.performMemory {cfg : Config σ} {rounds : Nat} {i : Instr}
    (hi : i.opcode ≠ .stackCleanup) (hm : i.opcode.managesMemory = true)
    (p : Payload (Exec σ Control)) :
    Fading (· = .next) (Exec.perform Exec.exitScope cfg rounds i p) :=
  (Confined.perform_memory (fun _ => trivial) Fades.setScopes Confined.leave_fades
    (fun id m => .setHeap (m.heap.fades_retain id))
    (fun id m => .setHeap (m.heap.fades_releaseAll [id])) (fun h => absurd h hi) hm).fading

variable {cfg : Config σ} {rounds : Nat}

/-- Where references are not counted, nothing is done about them. -/
theorem performMemory_gc {leave : String → Exec σ Unit} (hgc : cfg.memory = .gc) {i : Instr}
    (hm : i.opcode.managesMemory = true) (p : Payload (Exec σ Control)) :
    Exec.perform leave cfg rounds i p = Pure.pure .next := by
  have hcounted : ∀ a : Exec σ Control, Exec.counted cfg a = Pure.pure .next := by
    intro a
    unfold Exec.counted
    rw [hgc]
  obtain ⟨opcode, operands, result, location, escape, payload⟩ := i
  cases opcode with
  | retain | release | stackCleanup | scopeEnter | scopeExit | scopeRegister => exact hcounted _
  | _ => cases hm

/-! ### Both runs -/

/-- The first action in a counting run, the second in one that does not count. -/
abbrev Mirrors (a b : Exec σ α) : Prop := Relates (fun _ => False) Uncounted a b

namespace Mirrors

/-- Both runs make a new object. -/
theorem allocate {f : Heap → Heap} {o : HeapObject} (hf : ∀ h, f h = h.add o) :
    Mirrors (σ := σ) (allocate f) (allocate f) := by
  intro m n h x m' ha
  cases ha
  refine ⟨h.heap.next, { h with heap := ?_ }⟩
  rw [hf, hf]
  exact h.heap.add o

/-- Both runs change a live object. -/
theorem onHeap {f : Heap → Heap.Update} {id : ObjectId} {g : HeapObject → HeapObject}
    (hf : ∀ h, f h = h.updateLive id g) (hfreed : ∀ o, (g o).freed = o.freed)
    (hsame : ∀ o o', o'.value = o.value → o'.fields = o.fields →
      (g o').value = (g o).value ∧ (g o').fields = (g o).fields) :
    Mirrors (σ := σ) (onHeap f) (onHeap f) := by
  intro m n h x m' ha
  obtain ⟨heap, vars, scopes, handlers, previous, steps, calls⟩ := m
  obtain ⟨heap', vars', scopes', handlers', previous', steps', calls'⟩ := n
  unfold Exec.onHeap at ha ⊢
  dsimp only at ha ⊢
  rw [hf] at ha ⊢
  rcases hu : heap.updateLive id g with ⟨_ | _, heap1⟩
  · rw [hu] at ha
    cases ha
  · rw [hu] at ha
    cases ha
    have hok : (heap.updateLive id g).1 = .ok () := by rw [hu]
    have := h.heap.updateLive hok hfreed hsame
    rw [hu] at this
    dsimp only at this
    rcases hu' : heap'.updateLive id g with ⟨_ | _, heap1'⟩
    · rw [hu'] at this
      cases this.1
    · rw [hu'] at this
      exact ⟨rfl, { h with heap := this.2 }⟩

theorem setField (id : ObjectId) (name : String) (target : Option ObjectId) :
    Mirrors (σ := σ) (Exec.onHeap (·.setField id name target))
      (Exec.onHeap (·.setField id name target)) := by
  refine onHeap (fun _ => rfl) (fun _ => rfl) fun o o' hv hfields => ⟨hv, ?_⟩
  dsimp only
  rw [hfields]

/-- What only counting does, the other run need not do. -/
theorem of_fading {a : Exec σ α} {x : α} (h : Fading (· = x) a) : Mirrors a (Pure.pure x) := by
  intro m n hu y m' ha
  obtain ⟨rfl, heap, scopes, rfl, hfade⟩ := h m y m' ha
  exact ⟨rfl, hu.fade hfade⟩

theorem ask (handler : CallHandler σ) (site : CallSite) (r : Receiver)
    (args : List (Option Value)) : Mirrors (ask handler site r args) (ask handler site r args) := by
  intro m n h
  refine .get_bind ?_
  rw [h.calls]
  refine .bind (Q := fun _ => Uncounted) (.modify { h with calls := rfl }) fun _ m' n' h' => ?_
  exact .ofExcept fun _ hr => ⟨hr, h'⟩

/-- An exception finds nothing to unwind in the run that does not count. -/
theorem unwind (depth depth' : Nat) :
    Mirrors (σ := σ) (unwind Exec.exitScope depth) (Exec.unwind Exec.exitScope depth') := by
  intro m n h x m' ha
  have hb : Exec.unwind Exec.exitScope depth' n = .ok () n := by
    change exitScopes Exec.exitScope (n.scopes.length - depth') n = _
    rw [h.scopes, List.length_nil, Nat.zero_sub]
    rfl
  rw [hb]
  obtain ⟨-, heap, scopes, rfl, hfade⟩ := (Confined.unwind Confined.leave_fades depth).fading m x m' ha
  exact ⟨rfl, h.fade hfade⟩

theorem tick (limit : Nat) : Mirrors (σ := σ) (tick limit) (tick limit) := by
  refine .bind (fun m n hu => .modify { hu with steps := ?_ }) fun _ m n hu => .get_bind ?_
  · change n.steps + 1 = m.steps + 1
    rw [hu.steps]
  · rw [hu.steps]
    split
    · exact .fail
    · exact .pure hu

/-- The rules of the two runs: one counts references, the other does not, and all else agrees. -/
structure Rules (cfg cfg' : Config σ) : Prop where
  arc : cfg.memory = .arc
  gc : cfg'.memory = .gc
  handler : cfg'.handler = cfg.handler
  maxSteps : cfg'.maxSteps = cfg.maxSteps

variable {cfg cfg' : Config σ} {rounds : Nat}

theorem primitives (hr : Rules cfg cfg') :
    Primitives (fun _ => False) Uncounted (fun _ => True) cfg cfg' Exec.exitScope
      Exec.exitScope where
  lookup x := fun _ _ h => .get_bind (.ofExcept fun _ hb => ⟨h.lookup hb, h⟩)
  value id := fun _ _ h => .get_bind (.ofExcept fun _ hv => ⟨h.value hv, h⟩)
  assign x b _ := fun _ _ h => .modify (h.bind x b)
  setValue id v := onHeap (fun _ => rfl) (fun _ => rfl) fun _ _ _ hfields => ⟨rfl, hfields⟩
  setField := setField
  alloc v onStack := allocate fun _ => rfl
  allocOwned v := allocate fun _ => rfl
  ask site r args := by
    rw [hr.handler]
    exact ask _ site r args
  tick := by
    rw [hr.maxSteps]
    exact tick _
  unwind m n _ := unwind _ _
  handlers _ _ h := h.handlers
  setHandlers _ _ _ h := { h with handlers := rfl }
  previous _ _ h := h.previous
  setPrevious _ _ _ h := { h with previous := rfl }

/-! ### Instructions -/

/-- The instructions of counting and of scopes, but those that clean up on the stack. -/
theorem performMemory (hr : Rules cfg cfg') {i : Instr} (hi : i.opcode ≠ .stackCleanup)
    (hm : i.opcode.managesMemory = true) (p p' : Payload (Exec σ Control)) :
    Mirrors (perform Exec.exitScope cfg rounds i p) (perform Exec.exitScope cfg' rounds i p') := by
  rw [performMemory_gc hr.gc hm]
  exact of_fading (.performMemory hi hm p)

theorem exec (hr : Rules cfg cfg') {i : Instr} (hi : i.opcode ≠ .stackCleanup)
    (h : ∀ l ∈ i.lists, ∀ j ∈ l, Mirrors (j.nested cfg rounds) (j.nested cfg' rounds)) :
    Mirrors (i.exec cfg rounds) (i.exec cfg' rounds) := by
  refine (primitives hr).tick.bind fun _ => ?_
  rw [← Payload.mapWith_self, ← Payload.mapWith_self]
  exact (primitives hr).perform (fun _ _ => trivial) (fun hm => performMemory hr hi hm _ _)
    fun l hl j hj => ⟨h l hl j hj, h l hl j hj⟩

theorem nested (hr : Rules cfg cfg') (i : Instr)
    (hi : ∀ j ∈ i.preorder, j.opcode ≠ .stackCleanup) :
    Mirrors (i.nested cfg rounds) (i.nested cfg' rounds) := by
  induction i using Instr.nested_induction with
  | h i ih =>
    rw [Instr.preorder_eq] at hi
    have hnested : ∀ l ∈ i.lists, ∀ j ∈ l, Mirrors (j.nested cfg rounds) (j.nested cfg' rounds) :=
      fun l hl j hj => ih l hl j hj fun k hk => hi k (List.mem_cons_of_mem _
        (List.mem_flatMap.2 ⟨l, hl, List.mem_flatMap.2 ⟨j, hj, hk⟩⟩))
    rw [Instr.nested_eq, Instr.nested_eq]
    exact (exec hr (hi i List.mem_cons_self) hnested).bind fun c => .stayInside i c

theorem runBlocks (hr : Rules cfg cfg') {body : Body}
    (hb : ∀ i ∈ Instr.preorderAll body.instrs, i.opcode ≠ .stackCleanup) (k b : Nat) :
    Mirrors (runBlocks (Instr.exec cfg rounds) body k b)
      (runBlocks (Instr.exec cfg' rounds) body k b) := by
  refine (primitives hr).runBlocks (fun _ => trivial) (fun i hi => ?_) k b
  have hin : ∀ j ∈ i.preorder, j.opcode ≠ .stackCleanup := fun j hj =>
    hb j (List.mem_flatMap.2 ⟨i, hi, hj⟩)
  rw [Instr.preorder_eq] at hin
  refine exec hr (hin i List.mem_cons_self) fun l hl j hj => nested hr j fun x hx => ?_
  exact hin x (List.mem_cons_of_mem _
    (List.mem_flatMap.2 ⟨l, hl, List.mem_flatMap.2 ⟨j, hj, hx⟩⟩))

theorem ending (c : Control) :
    Mirrors (σ := σ) (ending Exec.exitScope c) (ending Exec.exitScope c) :=
  match c with
  | .throw _ => unwind 0 0
  | .next => .pure ()
  | .jump _ => .pure ()
  | .ret _ => .pure ()

/-- What an operation answers is read off the final states alike, leaks apart. -/
theorem result {m n : Machine σ} (h : Uncounted m n) {c : Control} {r : RunResult}
    (hr : m.result .arc c = .ok r) : n.result .gc c = .ok { r with leaks := [] } := by
  unfold Machine.result at hr ⊢
  obtain ⟨returned, hret, hr⟩ := except_bind_eq_ok.1 hr
  obtain ⟨thrown, hthr, hr⟩ := except_bind_eq_ok.1 hr
  cases hr
  refine except_bind_eq_ok.2 ⟨returned, ?_, except_bind_eq_ok.2 ⟨thrown, ?_, ?_⟩⟩
  · obtain _ | _ | (_ | b) | _ := c
    case ret.some => exact h.valueOf hret
    all_goals exact hret
  · cases c with
    | throw b => exact h.valueOf hthr
    | _ => exact hthr
  · rw [h.steps]
    rfl

end Mirrors

/-- Whatever an operation answers with counting, it answers without. -/
theorem runOperation_gc_of_arc {cfg' : Config σ} {op : Operation} {m n m' : Machine σ}
    {r : RunResult} (hr : Mirrors.Rules cfg cfg')
    (hop : ∀ i ∈ op.preorder, i.opcode ≠ .stackCleanup) (hu : Uncounted m n)
    (h : runOperation cfg rounds op m = .ok r m') :
    ∃ n', runOperation cfg' rounds op n = .ok { r with leaks := [] } n' ∧ n'.calls = m'.calls := by
  rw [runOperation, runSteps_eq] at h ⊢
  obtain ⟨c, m1, hblocks, h⟩ := bind_eq_ok.1 h
  obtain ⟨⟨⟩, m2, hend, h⟩ := bind_eq_ok.1 h
  obtain ⟨n1, hblocks', hu1⟩ := (Mirrors.runBlocks hr hop rounds 0 m n hu).ok hblocks
  obtain ⟨n2, hend', hu2⟩ := (Mirrors.ending c m1 n1 hu1).ok hend
  rw [hr.arc] at h
  have hresult : m2.result .arc c = .ok r ∧ m' = m2 := by
    change Exec.ofExcept (m2.result .arc c) m2 = .ok r m' at h
    cases hm : m2.result .arc c with
    | error f =>
      rw [hm] at h
      cases h
    | ok r' =>
      rw [hm] at h
      cases h
      exact ⟨rfl, rfl⟩
  refine ⟨n2, bind_eq_ok.2 ⟨c, n1, hblocks', bind_eq_ok.2 ⟨(), n2, hend', ?_⟩⟩, ?_⟩
  · rw [hr.gc]
    change Exec.ofExcept (n2.result .gc c) n2 = _
    rw [Mirrors.result hu2 hresult.1]
    rfl
  · rw [hresult.2, hu2.calls]

end Exec

/-- Whatever a counting run answers, a run without counting answers too, after as many steps. -/
theorem Operation.run_gc_of_arc (cfg : Config σ) {op : Operation} {args : List Value} {calls s : σ}
    {r : RunResult} (hop : ∀ i ∈ op.preorder, i.opcode ≠ .stackCleanup)
    (h : op.run { cfg with memory := .arc } args calls = (.ok r, s)) :
    op.run { cfg with memory := .gc } args calls = (.ok { r with leaks := [] }, s) := by
  have hr : Exec.Mirrors.Rules { cfg with memory := .arc } { cfg with memory := .gc } :=
    ⟨rfl, rfl, rfl, rfl⟩
  have hstart : Uncounted (Machine.start op args calls) (Machine.start op args calls) :=
    { heap := .refl _, vars := rfl, scopes := (Machine.start_nothingOpen op args _).1, handlers := rfl,
      previous := rfl, steps := rfl, calls := rfl }
  obtain ⟨m', hrun, rfl⟩ := Exec.answer_eq_ok h
  obtain ⟨n', hrun', hcalls⟩ := Exec.runOperation_gc_of_arc hr hop hstart hrun
  unfold Operation.run Operation.runWithin Exec.answer
  rw [hrun', ← hcalls]

/-- Whatever a counting run answers, a run without counting answers too, after as many steps, and its
handler receives the same calls in the same order. -/
theorem runRecorded_gc_of_arc {cfg : Config σ} {op : Operation} {args : List Value} {calls s : σ}
    {r : RunResult} {made : List HandledCall} (hop : ∀ i ∈ op.preorder, i.opcode ≠ .stackCleanup)
    (h : op.runRecorded { cfg with memory := .arc } args calls = (.ok r, s, made)) :
    op.runRecorded { cfg with memory := .gc } args calls =
      (.ok { r with leaks := [] }, s, made) :=
  Operation.run_gc_of_arc { cfg with handler := cfg.handler.recorded } hop h

/-- An object with a field is freed in one block, and the operation goes on in another. -/
def freeAndReturn : Operation :=
  { name := "run"
    returnType := "String"
    body := { index := ⟨[("end", 1), ("entry", 0)]⟩, blocks := ⟨#[
      { label := "entry"
        instrs := [
          { opcode := .scopeEnter, operands := ["s"] },
          { opcode := .allocObject, operands := ["Box"], result := some "box" },
          { opcode := .retain, operands := ["box"] },
          { opcode := .scopeRegister, operands := ["box", "s"] },
          { opcode := .loadLiteral, operands := ["7", TypeName.integer], result := some "seven" },
          { opcode := .retain, operands := ["seven"] },
          { opcode := .store, operands := ["box.value", "seven"] },
          { opcode := .scopeExit, operands := ["s"] },
          { opcode := .branch, operands := ["end"] }] },
      { label := "end"
        instrs := [
          { opcode := .callStatic
            result := some "r"
            payload := .call
              { target := "Boxes", targetType := "Boxes", method := "count", returnType := "String" } },
          { opcode := .ret, operands := ["r"] }] }]⟩ } }

/-- A handler that answers every call with the number of calls before it. -/
def counter : Config Nat :=
  { handler := fun _ receiver _ n => (.ok ⟨.object (.string (Nat.repr n)), receiver⟩, n + 1) }

theorem runRecorded_gc_freeAndReturn :
    ∃ r s made, freeAndReturn.runRecorded { counter with memory := .arc } [] 4 = (.ok r, s, made) ∧
      freeAndReturn.runRecorded { counter with memory := .gc } [] 4 =
        (.ok { r with leaks := [] }, s, made) := by
  have hok : (freeAndReturn.runRecorded { counter with memory := .arc } [] 4).1.toOption.isSome =
      true := by decide +kernel
  have hop : ∀ i ∈ freeAndReturn.preorder, i.opcode ≠ .stackCleanup := by decide +kernel
  rcases hrun : freeAndReturn.runRecorded { counter with memory := .arc } [] 4 with ⟨_ | r, s, made⟩
  · rw [hrun] at hok
    cases hok
  · exact ⟨r, s, made, rfl, runRecorded_gc_of_arc hop hrun⟩

end ScopedIR
