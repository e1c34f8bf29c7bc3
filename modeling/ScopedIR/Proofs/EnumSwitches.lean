import Mathlib.Algebra.Group.Nat.Defs
import ScopedIR.Machine.Builtin
import ScopedIR.Proofs.LoweringSucceeds
import ScopedIR.Proofs.RealizedChoice

/-!
# Switches over enumerations

A switch over an enumeration tests its constants one after the other: it makes an object of the
constant, compares the subject with it and asks the answer for its truth, in a scope of its own. The
dispatch hints of the chain lead to the same case by the ordinal of the subject alone.

Main definitions: `EnumDispatch.caseFor?`, the case that the hints lead to, and `Exec.jump`, which runs a
chain from a given case on. Main statement: `switchEnum_jumps`.
-/

namespace ScopedIR

open Exec Instr Layout

variable {σ : Type}

/-! ### Code that runs to its end -/

theorem Exec.counted_arc {cfg : Config σ} {a : Exec σ Control} (hmemory : cfg.memory = .arc) :
    counted cfg a = a := by
  rw [counted, hmemory]

/-- The code runs to its end, from the first state to the second, unless the limit on steps forbids. -/
structure Passes (cfg : Config σ) (rounds : Nat) (l : List Instr) (m m' : Machine σ) : Prop where
  steps : m'.steps = m.steps + l.length
  run : m'.steps ≤ cfg.maxSteps → runAll (l.map (nested cfg rounds)) m = .ok .next m'

namespace Passes

variable {cfg : Config σ} {rounds : Nat} {l r : List Instr} {m m1 m2 : Machine σ}

theorem append (h : Passes cfg rounds l m m1) (h' : Passes cfg rounds r m1 m2) :
    Passes cfg rounds (l ++ r) m m2 := by
  have hl := h.steps
  have hr := h'.steps
  refine ⟨by rw [List.length_append]; omega, fun hlimit => ?_⟩
  rw [List.map_append, runAll_append]
  exact (Exec.bind_ok (h.run (by omega))).trans (h'.run hlimit)

/-- One instruction, given what it does once it is counted. -/
theorem single {i : Instr} (hsteps : m1.steps = m.steps + 1)
    (h : ∀ payload, perform exitScope cfg rounds i payload (ticked m) = .ok .next m1) :
    Passes cfg rounds [i] m m1 := by
  refine ⟨hsteps, fun hlimit => ?_⟩
  have htick : tick cfg.maxSteps m = .ok () (ticked m) := by
    show (if cfg.maxSteps < m.steps + 1 then fail (.stepLimit cfg.maxSteps) else pure () :
      Exec σ Unit) (ticked m) = _
    rw [if_neg (by omega)]
    rfl
  have hexec : i.exec cfg rounds m = .ok .next m1 := (Exec.bind_ok htick).trans (h _)
  have hnested : nested cfg rounds i m = .ok .next m1 := by
    rw [nested_eq, Exec.bind_ok hexec]
    rfl
  exact Exec.bind_ok hnested

/-- A scope or counting instruction without counting. -/
theorem idle {i : Instr} (hmemory : cfg.memory = .gc)
    (hi : ∀ payload, ∃ a, perform exitScope cfg rounds i payload = counted cfg a) :
    Passes cfg rounds [i] m (ticked m) := by
  refine .single rfl fun payload => ?_
  obtain ⟨a, ha⟩ := hi payload
  rw [ha, counted, hmemory]
  rfl

end Passes

/-! ### Objects of one owner -/

namespace Heap

variable {h : Heap} {id : ObjectId}

/-- An object with one reference to it, and none from it. -/
def Sole (h : Heap) (id : ObjectId) : Prop :=
  ∃ value, h.get? id = some { value, refcount := 1 }

theorem release_sole (hs : h.Sole id) : ∃ h', h.release id = (.ok (), h') ∧
    ∀ a, a ≠ id → h'.get? a = h.get? a := by
  obtain ⟨value, ho⟩ := hs
  refine ⟨h.modify id fun o => { o with refcount := 0, freed := true, fields := .empty }, ?_,
    fun a ha => get?_modify_ne ha.symm⟩
  have hheld : heldBy { value, refcount := 1 } = [] := by simp [heldBy, FinMap.values, FinMap.empty]
  rw [release, releaseAll_cons ho, hheld]
  simp [releaseAll]

end Heap

/-- Names of objects with one reference each can be released. -/
theorem releaseNames_sole {owned : List (String × ObjectId)} {m : Machine σ}
    (hvars : ∀ e ∈ owned, m.vars.get? e.1 = some (.object e.2))
    (hsole : ∀ e ∈ owned, m.heap.Sole e.2) (hnodup : (owned.map (·.2)).Nodup) :
    ∃ heap, releaseNames (owned.map (·.1)) m = .ok () { m with heap } ∧
      ∀ id, id ∉ owned.map (·.2) → heap.get? id = m.heap.get? id := by
  induction owned generalizing m with
  | nil => exact ⟨m.heap, rfl, fun _ _ => rfl⟩
  | cons e rest ih =>
    rw [List.forall_mem_cons] at hvars hsole
    rw [List.map_cons, List.nodup_cons] at hnodup
    obtain ⟨heap1, hrelease, hkeep1⟩ := Heap.release_sole hsole.1
    have hrest : ∀ f ∈ rest, heap1.Sole f.2 := by
      intro f hf
      obtain ⟨value, ho⟩ := hsole.2 f hf
      refine ⟨value, (hkeep1 _ ?_).trans ho⟩
      rintro heq
      exact hnodup.1 (heq ▸ List.mem_map_of_mem hf)
    obtain ⟨heap2, hrun, hkeep2⟩ := ih (m := { m with heap := heap1 }) hvars.2 hrest hnodup.2
    refine ⟨heap2, ?_, fun id hid => ?_⟩
    · have hheap : onHeap (·.release e.2) m = .ok () { m with heap := heap1 } := by
        simp [onHeap, hrelease]
      show (Exec.lookup e.1 >>= fun b => _) m = _
      rw [Exec.bind_ok (Completes.lookup_ok (lookup_eq_ok hvars.1))]
      exact (Exec.bind_ok hheap).trans hrun
    · rw [List.map_cons, List.mem_cons, not_or] at hid
      exact (hkeep2 id hid.2).trans (hkeep1 id hid.1)

/-! ### The inside of a test -/

/-- The second state is the first one apart from temporaries numbered after `n` and new objects. -/
structure Aside (n : Nat) (m m' : Machine σ) : Prop where
  vars : ∀ x, (IsTemp x → TempUpTo n x) → m'.vars.get? x = m.vars.get? x
  objects : ∀ id o, m.heap.get? id = some o → m'.heap.get? id = some o
  scopes : m'.scopes = m.scopes
  handlers : m'.handlers = m.handlers
  previous : m'.previous = m.previous

namespace Aside

variable {n : Nat} {m m1 m2 : Machine σ}

theorem refl (n : Nat) (m : Machine σ) : Aside n m m :=
  ⟨fun _ _ => rfl, fun _ _ h => h, rfl, rfl, rfl⟩

theorem trans (h : Aside n m m1) (h' : Aside n m1 m2) : Aside n m m2 where
  vars x hx := (h'.vars x hx).trans (h.vars x hx)
  objects id o ho := h'.objects id o (h.objects id o ho)
  scopes := h'.scopes.trans h.scopes
  handlers := h'.handlers.trans h.handlers
  previous := h'.previous.trans h.previous

theorem value {id : ObjectId} {v : Value} (h : Aside n m m1) (hv : m.heap.value id = .ok v) :
    m1.heap.value id = .ok v := by
  obtain ⟨o, ho, hf, rfl⟩ := Heap.value_eq_ok_iff.1 hv
  exact Heap.value_eq_ok_iff.2 ⟨o, h.objects id o ho, hf, rfl⟩

end Aside

/-- The open scopes when one of them holds objects; without counting there are none. -/
def holding (cfg : Config σ) (k : String) (owned : List (String × ObjectId))
    (outer : List OpenScope) : List OpenScope :=
  match cfg.memory with
  | .arc => ⟨k, owned.map (·.1)⟩ :: outer
  | .gc => outer

/-- In the scope `k`, which was entered in the state `m0`, new objects were made and registered. -/
structure Testing (cfg : Config σ) (n : Nat) (k : String) (m0 : Machine σ)
    (owned : List (String × ObjectId)) (m : Machine σ) : Prop where
  aside : Aside n { m0 with scopes := m.scopes } m
  scopes : m.scopes = holding cfg k owned m0.scopes
  vars : ∀ e ∈ owned, m.vars.get? e.1 = some (.object e.2)
  new : ∀ e ∈ owned, m0.heap.get? e.2 = none
  nodup : (owned.map (·.2)).Nodup
  counts : ∀ e ∈ owned, ∃ value refcount, m.heap.get? e.2 = some { value, refcount } ∧
    (cfg.memory = .arc → refcount = 1)

/-- The state in which an instruction has bound a new object. -/
def making (t : String) (v : Value) (calls : σ) (m : Machine σ) : Machine σ :=
  { ticked m with
    heap := m.heap.alloc v false, vars := m.vars.insert t (.object m.heap.next), calls }

namespace Testing

variable {cfg : Config σ} {rounds n : Nat} {k t : String} {m0 m : Machine σ}
  {owned : List (String × ObjectId)}

theorem enter (cfg : Config σ) (rounds n : Nat) (k : String) (m : Machine σ) :
    ∃ m', Passes cfg rounds [entering k] m m' ∧ Testing cfg n k m [] m' := by
  refine ⟨{ ticked m with scopes := holding cfg k [] m.scopes }, .single rfl fun _ => ?_,
    ⟨fun _ _ => rfl, fun _ _ h => h, rfl, rfl, rfl⟩, rfl, nofun, nofun, List.nodup_nil, nofun⟩
  show counted cfg _ _ = _
  unfold counted holding
  cases cfg.memory <;> rfl

variable {id : ObjectId} {outer : List OpenScope} {v : Value}

/-- A new object is retained and registered, where references are counted. -/
theorem register_arc {names : List String} (rounds : Nat) (hmemory : cfg.memory = .arc)
    (ht : m.vars.get? t = some (.object id)) (ho : m.heap.get? id = some { value := v })
    (hscopes : m.scopes = ⟨k, names⟩ :: outer) :
    ∃ heap, Passes cfg rounds (registering none t k) m
        { ticked (ticked m) with heap, scopes := ⟨k, t :: names⟩ :: outer } ∧
      heap.get? id = some { value := v, refcount := 1 } ∧
      ∀ a, a ≠ id → heap.get? a = m.heap.get? a := by
  let heap := m.heap.modify id fun o => if o.onStack then o else { o with refcount := o.refcount + 1 }
  have hretain : m.heap.retain id = (.ok (), heap) := Heap.updateLive_eq ho rfl _
  have hretained : Passes cfg rounds [simple none .retain [t] none] m { ticked m with heap } := by
    refine .single rfl fun _ => ?_
    show counted cfg (Exec.lookup t >>= fun b => _) (ticked m) = _
    rw [counted_arc hmemory, Exec.bind_ok (Completes.lookup_ok (m := ticked m) (lookup_eq_ok ht))]
    have hheap : onHeap (·.retain id) (ticked m) = .ok () { ticked m with heap } := by
      simp [onHeap, ticked, hretain]
    exact Exec.bind_ok hheap
  refine ⟨heap, hretained.append (.single rfl fun _ => ?_), Heap.get?_modify_self ho,
    fun a ha => Heap.get?_modify_ne ha.symm⟩
  · show counted cfg (get >>= fun m : Machine σ => ofOption _ (Machine.registerIn k t m.scopes) >>=
      fun scopes => modify (fun m => { m with scopes }) >>= fun _ => pure .next) _ = _
    have hregister : Machine.registerIn k t m.scopes = some (⟨k, t :: names⟩ :: outer) := by
      simp [hscopes, Machine.registerIn]
    rw [counted_arc hmemory]
    show (ofOption _ (Machine.registerIn k t m.scopes) >>= fun scopes => _) _ = _
    rw [hregister]
    rfl

/-- Counting or not, registering gives a new object the count it needs and leaves the others alone. -/
theorem register (rounds : Nat) (ht : m.vars.get? t = some (.object id))
    (ho : m.heap.get? id = some { value := v }) (hscopes : m.scopes = holding cfg k owned outer) :
    ∃ heap, Passes cfg rounds (registering none t k) m
        { ticked (ticked m) with heap, scopes := holding cfg k ((t, id) :: owned) outer } ∧
      (∃ refcount, heap.get? id = some { value := v, refcount } ∧ (cfg.memory = .arc → refcount = 1)) ∧
      ∀ a, a ≠ id → heap.get? a = m.heap.get? a := by
  cases hmemory : cfg.memory with
  | gc =>
    rw [holding, hmemory] at hscopes
    refine ⟨m.heap, ?_, ⟨0, ho, nofun⟩, fun _ _ => rfl⟩
    have hidle : Passes cfg rounds (registering none t k) m (ticked (ticked m)) :=
      .append (l := [_]) (r := [_]) (.idle hmemory fun _ => ⟨_, rfl⟩) (.idle hmemory fun _ => ⟨_, rfl⟩)
    convert hidle using 1
    rw [holding, hmemory, ← hscopes]
    rfl
  | arc =>
    rw [holding, hmemory] at hscopes ⊢
    obtain ⟨heap, hpasses, hobject, hothers⟩ := register_arc rounds hmemory ht ho hscopes
    exact ⟨heap, hpasses, ⟨1, hobject, fun _ => rfl⟩, hothers⟩

/-- Other temporaries may be bound. -/
theorem assign (h : Testing cfg n k m0 owned m) (ht : IsTemp t) (hfresh : ¬ TempUpTo n t)
    (hown : t ∉ owned.map (·.1)) (b : Binding) (calls : σ) :
    Testing cfg n k m0 owned { ticked m with vars := m.vars.insert t b, calls } where
  aside := by
    refine ⟨fun x hx => (FinMap.get?_insert_ne _ ?_ _).trans (h.aside.vars x hx), h.aside.objects, rfl,
      h.aside.handlers, h.aside.previous⟩
    rintro rfl
    exact hfresh (hx ht)
  scopes := h.scopes
  vars e he := by
    refine (FinMap.get?_insert_ne _ ?_ _).trans (h.vars e he)
    rintro rfl
    exact hown (List.mem_map_of_mem he)
  new := h.new
  nodup := h.nodup
  counts := h.counts

/-- A new object is made and registered to the scope of the test. -/
theorem make {i : Instr} {calls : σ} (h : Testing cfg n k m0 owned m) (ht : IsTemp t)
    (hfresh : ¬ TempUpTo n t) (hown : t ∉ owned.map (·.1))
    (hi : Passes cfg rounds [i] m (making t v calls m)) :
    ∃ m', Passes cfg rounds ([i] ++ registering none t k) m m' ∧
      Testing cfg n k m0 ((t, m.heap.next) :: owned) m' ∧
      m'.vars = m.vars.insert t (.object m.heap.next) ∧ m'.heap.value m.heap.next = .ok v := by
  have hmade : (making t v calls m).heap.get? m.heap.next = some { value := v } := by
    show (m.heap.add _).get? _ = _
    rw [Heap.get?_add, if_pos rfl]
  obtain ⟨heap, hpasses, ⟨refcount, hobject, hcount⟩, hothers⟩ := register rounds
    (m := making t v calls m) (FinMap.get?_insert_self ..) hmade h.scopes
  have hother : ∀ a o, m.heap.get? a = some o → a ≠ m.heap.next ∧ heap.get? a = some o := by
    intro a o ho
    have ha : a ≠ m.heap.next := by
      rintro rfl
      rw [Heap.get?_next] at ho
      cases ho
    exact ⟨ha, (hothers a ha).trans (Heap.get?_add_of_some ho)⟩
  have hassign := h.assign ht hfresh hown (.object m.heap.next) calls
  refine ⟨_, hi.append hpasses,
    ⟨⟨hassign.aside.vars, ?_, rfl, h.aside.handlers, h.aside.previous⟩, rfl, ?_, ?_, ?_, ?_⟩, rfl, ?_⟩
  · exact fun a o ho => (hother a o (h.aside.objects a o ho)).2
  · exact List.forall_mem_cons.2 ⟨FinMap.get?_insert_self .., hassign.vars⟩
  · refine List.forall_mem_cons.2 ⟨?_, h.new⟩
    by_contra hne
    obtain ⟨o, ho⟩ := Option.ne_none_iff_exists'.1 hne
    exact (hother _ o (h.aside.objects _ o ho)).1 rfl
  · refine List.nodup_cons.2 ⟨fun hmem => ?_, h.nodup⟩
    obtain ⟨e, he, heq⟩ := List.mem_map.1 hmem
    obtain ⟨value, refcount, ho, -⟩ := h.counts e he
    exact (hother _ _ ho).1 heq
  · refine List.forall_mem_cons.2 ⟨⟨v, refcount, hobject, hcount⟩, fun e he => ?_⟩
    obtain ⟨value, refcount, ho, hc⟩ := h.counts e he
    exact ⟨value, refcount, (hother _ _ ho).2, hc⟩
  · exact Heap.value_eq_ok_iff.2 ⟨_, hobject, rfl, rfl⟩

/-- The scope of the test is left, and its objects with it. -/
theorem exit (h : Testing cfg n k m0 owned m) (rounds : Nat) :
    ∃ m', Passes cfg rounds [exiting k] m m' ∧ m'.vars = m.vars ∧ Aside n m0 m' := by
  have hscopes := h.scopes
  cases hmemory : cfg.memory with
  | gc =>
    rw [holding, hmemory] at hscopes
    refine ⟨ticked m, .idle hmemory fun _ => ⟨_, rfl⟩, rfl, ?_⟩
    exact ⟨h.aside.vars, h.aside.objects, hscopes, h.aside.handlers, h.aside.previous⟩
  | arc =>
    rw [holding, hmemory] at hscopes
    obtain ⟨heap, hrun, hothers⟩ := releaseNames_sole
      (m := { ticked m with scopes := m0.scopes }) h.vars (fun e he => by
        obtain ⟨value, refcount, ho, hc⟩ := h.counts e he
        exact ⟨value, hc hmemory ▸ ho⟩) h.nodup
    refine ⟨{ ticked m with scopes := m0.scopes, heap }, .single rfl fun _ => ?_, rfl,
      h.aside.vars, ?_, rfl, h.aside.handlers, h.aside.previous⟩
    · show counted cfg (exitScope k >>= fun _ => pure .next) _ = _
      have hexit : exitScope k (ticked m) = .ok () { ticked m with scopes := m0.scopes, heap } := by
        unfold exitScope
        rw [Exec.bind_ok (rfl : (get : Exec σ (Machine σ)) _ = .ok (ticked m) _),
          show (ticked m).scopes = _ from hscopes]
        show (if k = k then releaseNames (owned.map (·.1)) else _ : Exec σ Unit) _ = _
        rw [if_pos rfl]
        exact hrun
      rw [counted_arc hmemory, Exec.bind_ok hexit]
      rfl
    · intro id o ho
      refine (hothers id fun hmem => ?_).trans (h.aside.objects id o ho)
      obtain ⟨e, he, rfl⟩ := List.mem_map.1 hmem
      rw [h.new e he] at ho
      cases ho

end Testing

/-! ### A test -/

variable {cfg : Config Nat} {id : ObjectId} {m : Machine Nat} {n : Nat} {subject text : String}
  {cases : List (Case Instr)} {enum : EnumType} {tests : List SwitchTest}

/-- A call of a built-in method that leaves its receiver as it is. -/
theorem call_builtin (hcfg : cfg.handler = Builtin.handler) {i : Instr} {site : CallSite}
    {v : Value} {args : List (Option Value)} {outcome : CallOutcome} (hi : i.opcode ≠ .callStatic)
    (htarget : m.vars.get? site.target = some (.object id)) (hv : m.heap.value id = .ok v)
    (hargs : arguments i site.args m = .ok args m)
    (hreply : Builtin.respond site (.object v) args = .ok ⟨outcome, .object v⟩) :
    call cfg i site m = concluding i.result outcome { m with calls := m.calls + 1 } := by
  have hreceiver : receiver i site m = .ok (.object v, some id) m := by
    unfold receiver
    rw [if_neg hi, Exec.bind_ok (Completes.lookup_ok (lookup_eq_ok htarget))]
    show (Exec.ofExcept (m.heap.value id) >>= fun v => _) m = _
    rw [hv]
    rfl
  have hask : ask cfg.handler site (.object v) args m =
      .ok ⟨outcome, .object v⟩ { m with calls := m.calls + 1 } := by
    rw [hcfg]
    show Exec.ofExcept (Builtin.respond site (.object v) args) { m with calls := m.calls + 1 } = _
    rw [hreply]
    rfl
  have hupdate : updating (some id) (.object v) { m with calls := m.calls + 1 } =
      .ok () { m with calls := m.calls + 1 } := by
    simp [updating, onHeap, Heap.setValue_self hv]
  rw [call_eq, Exec.bind_ok hreceiver, Exec.bind_ok hargs, Exec.bind_ok hask, Exec.bind_ok hupdate]

/-- Code that compares a subject with a constant: `t` is the constant, `u` the answer to `equal`, and
`p` the primitive that `truth` asks `u` for. -/
def comparing (k constant type t u p : String) (equal truth : CallSite) : List Instr :=
  scoping k false
    (([simple none .loadLiteral [constant, type] (some t)] ++ registering none t k) ++
      ([calling none .call (some u) equal] ++ registering none u k) ++
      [calling none .call (some p) truth])

/-- The condition compares the subject of a switch with a constant. Its temporaries are numbered after
`n`. -/
def Compares (n : Nat) (subject type constant : String) (c : CaseCondition Instr) : Prop :=
  ∃ k t u equal truth, c.evaluation = comparing k constant type t u c.primitive equal truth ∧
    (equal.target = subject ∧ equal.args = [t] ∧ equal.method = "_eq") ∧
    (truth.target = u ∧ truth.args = [] ∧ truth.method = "_true") ∧
    [t, u, c.primitive].Nodup ∧ ∀ x ∈ [t, u, c.primitive], IsTemp x ∧ ¬ TempUpTo n x

/-- A test tells whether the subject is the constant. -/
theorem Compares.passes {type constant : String} {c : CaseCondition Instr}
    (h : Compares n subject type constant c) (hcfg : cfg.handler = Builtin.handler) (rounds : Nat)
    (htype : type ∉ [TypeName.integer, TypeName.boolean, TypeName.string])
    (hsubject : TempUpTo n subject) (hbound : m.vars.get? subject = some (.object id))
    (hvalue : m.heap.value id = .ok (.other type text)) :
    ∃ m', Passes cfg rounds c.evaluation m m' ∧ c.evaluation.length = 9 ∧ Aside n m m' ∧
      m'.vars.get? c.primitive = some (.primitive (constant = text)) := by
  obtain ⟨k, t, u, equal, truth, hcode, ⟨hsub, hargs, heq⟩, ⟨hu, hno, htrue⟩, hnodup, hfresh⟩ := h
  simp only [List.nodup_cons, List.mem_cons, List.not_mem_nil, or_false, not_or] at hnodup
  simp only [List.forall_mem_cons] at hfresh
  obtain ⟨m1, hpasses1, h1⟩ := Testing.enter cfg rounds n k m
  -- the constant
  have hload : Passes cfg rounds [simple none .loadLiteral [constant, type] (some t)] m1
      (making t (.other type constant) m1.calls m1) := by
    refine .single rfl fun _ => ?_
    have hliteral : Value.ofLiteral? constant type = some (.other type constant) := by
      simp only [List.mem_cons, List.not_mem_nil, or_false, not_or] at htype
      simp [Value.ofLiteral?, htype]
    show (required _ (Value.ofLiteral? constant type) >>= fun v => _) (ticked m1) = _
    rw [hliteral]
    rfl
  obtain ⟨m2, hpasses2, h2, hvars2, hvalue2⟩ := h1.make hfresh.1.1 hfresh.1.2 (by simp) hload
  -- the comparison
  have hequal : Passes cfg rounds [calling none .call (some u) equal] m2
      (making u (.boolean (constant = text)) (m2.calls + 1) m2) := by
    refine .single rfl fun _ => ?_
    have hbound2 : m2.vars.get? equal.target = some (.object id) := by
      rw [hsub, h2.aside.vars subject fun _ => hsubject]
      exact hbound
    have hargs2 : arguments (calling none .call (some u) equal) equal.args (ticked m2) =
        .ok [some (.other type constant)] (ticked m2) := by
      rw [hargs]
      have ht : m2.vars.get? t = some (.object m1.heap.next) := hvars2 ▸ FinMap.get?_insert_self ..
      show (Exec.lookup t >>= fun b => _) (ticked m2) = _
      rw [Exec.bind_ok (Completes.lookup_ok (m := ticked m2) (lookup_eq_ok ht))]
      show (Exec.ofExcept (m2.heap.value m1.heap.next >>= fun v => pure (some v)) >>= fun v => _)
        (ticked m2) = _
      rw [hvalue2]
      rfl
    have hreply : Builtin.respond equal (.object (.other type text)) [some (.other type constant)] =
        .ok ⟨.object (.boolean (constant = text)), .object (.other type text)⟩ := by
      simp [Builtin.respond, Builtin.objectCall, Builtin.otherCall, heq]
    exact call_builtin (m := ticked m2) hcfg (by simp [calling]) hbound2 (h2.aside.value hvalue) hargs2
      hreply
  obtain ⟨m3, hpasses3, h3, hvars3, hvalue3⟩ := h2.make hfresh.2.1.1 hfresh.2.1.2
    (by simpa using Ne.symm hnodup.1.1) hequal
  -- its truth
  have htruth : Passes cfg rounds [calling none .call (some c.primitive) truth] m3
      { ticked m3 with
        vars := m3.vars.insert c.primitive (.primitive (constant = text)), calls := m3.calls + 1 } := by
    refine .single rfl fun _ => ?_
    have hbound3 : m3.vars.get? truth.target = some (.object m2.heap.next) := by
      rw [hu, hvars3]
      exact FinMap.get?_insert_self ..
    have hargs3 : arguments (calling none .call (some c.primitive) truth) truth.args (ticked m3) =
        .ok [] (ticked m3) := by
      rw [hno]
      rfl
    have hreply : Builtin.respond truth (.object (.boolean (constant = text))) [] =
        .ok ⟨.primitive (constant = text), .object (.boolean (constant = text))⟩ := by
      simp [Builtin.respond, Builtin.objectCall, Builtin.booleanCall, htrue]
    exact call_builtin (m := ticked m3) hcfg (by simp [calling]) hbound3 hvalue3 hargs3 hreply
  -- the primitive is no name that the scope releases
  have h4 := h3.assign hfresh.2.2.1.1 hfresh.2.2.1.2
    (by simpa using ⟨Ne.symm hnodup.2.1, Ne.symm hnodup.1.2⟩) (.primitive (constant = text))
    (m3.calls + 1)
  obtain ⟨m5, hpasses5, hvars5, h5⟩ := h4.exit rounds
  refine ⟨m5, ?_, by simp [hcode, comparing, scoping, registering], h5, ?_⟩
  · rw [hcode]
    exact (hpasses1.append ((hpasses2.append hpasses3).append htruth)).append hpasses5
  · rw [hvars5]
    exact FinMap.get?_insert_self ..

/-! ### Jumping to a case -/

/-- The first case for an ordinal. -/
def EnumDispatch.caseFor? (d : EnumDispatch) (ordinal : UInt32) : Option Nat :=
  d.ordinals.findIdx? (· = ordinal)

/-- The number of cases that are tested until there is one for an ordinal. -/
def EnumDispatch.tested (d : EnumDispatch) (ordinal : UInt32) : Nat :=
  min (d.ordinals.findIdx (· = ordinal) + 1) d.ordinals.length

namespace Exec

/-- Run a case without its test. -/
def takeCase : Option (Case (Exec σ Control)) → Exec σ Choice
  | some e => choose (andThen (runAll e.body.evaluation) (runAll e.updates)) (return .taken e.body.result)
  | none => return .refused

/-- Run the case with a given index, or else the default, if there is one. -/
def selectAt (c : Chain (Exec σ Control)) (k : Option Nat) : Exec σ Choice := do
  match ← takeCase (k.bind (c.cases[·]?)) with
  | .refused =>
    match c.fallback with
    | some body => choose (runAll body.evaluation) (return .taken body.result)
    | none => return .refused
  | choice => return choice

/-- Run a chain from a given case on, without any test. -/
def jump (i : Instr) (c : Chain (Exec σ Control)) (k : Option Nat) : Exec σ Control := do
  match ← selectAt c k with
  | .left control => return control
  | .taken result => finishChain i c.returning result
  | .refused => finishChain i c.returning none

end Exec

/-- The case tests for a constant of the enumeration and knows its ordinal. -/
def Tests (enum : EnumType) (n : Nat) (subject : String) (test : SwitchTest) (e : Case Instr) : Prop :=
  ∃ x o, test = .enumConstant x ∧ enum.ordinal? x = some o ∧ e.kind = .enumConstant x o ∧
    Compares n subject enum.name x e.condition

/-- The ordinals that cases know. -/
def ordinalsOf (cases : List (Case Instr)) : List UInt32 :=
  (cases.filterMap fun e => e.kind.enumConstant?).map (·.2)

/-- Up to as many constants as there are ordinals, different constants have different ones. -/
theorem EnumType.ordinal?_inj {e : EnumType} (he : e.constants.length ≤ 2 ^ 32) {x y : String}
    {o : UInt32} (hx : e.ordinal? x = some o) (hy : e.ordinal? y = some o) : x = y := by
  obtain ⟨i, hi, rfl⟩ := Option.map_eq_some_iff.1 hx
  obtain ⟨j, hj, heq⟩ := Option.map_eq_some_iff.1 hy
  obtain ⟨hi, hx, -⟩ := List.findIdx?_eq_some_iff_getElem.1 hi
  obtain ⟨hj, hy, -⟩ := List.findIdx?_eq_some_iff_getElem.1 hj
  have hij : i = j := by
    have := congrArg UInt32.toNat heq
    rw [UInt32.toNat_ofNat_of_lt' (by simpa [UInt32.size] using by omega),
      UInt32.toNat_ofNat_of_lt' (by simpa [UInt32.size] using by omega)] at this
    exact this.symm
  subst hij
  simp only [decide_eq_true_eq] at hx hy
  exact hx.symm.trans hy

theorem Exec.bind_eq_of_eq {α β : Type} {a b : Exec σ α} {f : α → Exec σ β} {m m' : Machine σ}
    (h : a m = b m') : (a >>= f) m = (b >>= f) m' := by
  show EStateM.bind a f m = EStateM.bind b f m'
  unfold EStateM.bind
  rw [h]

/-- Testing the cases in order comes to the first one with the ordinal of the subject. -/
theorem tryCases_tests {o : UInt32} (rounds : Nat) (hcfg : cfg.handler = Builtin.handler)
    (hfew : enum.constants.length ≤ 2 ^ 32)
    (hname : enum.name ∉ [TypeName.integer, TypeName.boolean, TypeName.string])
    (hsubject : TempUpTo n subject) (ho : enum.ordinal? text = some o)
    (hcases : List.Forall₂ (Tests enum n subject) tests cases)
    (hbound : m.vars.get? subject = some (.object id))
    (hvalue : m.heap.value id = .ok (.other enum.name text))
    (hsteps : m.steps + 9 * min ((ordinalsOf cases).findIdx (· = o) + 1) (ordinalsOf cases).length ≤
      cfg.maxSteps) :
    ∃ m', Aside n m m' ∧ tryCases (cases.map (·.map (nested cfg rounds))) m =
      takeCase (((ordinalsOf cases).findIdx? (· = o)).bind
        ((cases.map (·.map (nested cfg rounds)))[·]?)) m' := by
  induction hcases generalizing m with
  | nil => exact ⟨m, .refl n m, rfl⟩
  | @cons test e tests rest he _ ih =>
    obtain ⟨x, o', -, hx, hkind, hcompares⟩ := he
    obtain ⟨m1, hpasses, hlength, haside, hprimitive⟩ :=
      hcompares.passes hcfg rounds hname hsubject hbound hvalue
    have hsteps1 := hpasses.steps
    have hordinals : ordinalsOf (e :: rest) = o' :: ordinalsOf rest := by
      simp [ordinalsOf, hkind, CaseKind.enumConstant?]
    rw [hordinals, List.findIdx_cons, List.length_cons] at hsteps
    have hsame : o' = o ↔ x = text := by
      constructor
      · rintro rfl
        exact EnumType.ordinal?_inj hfew hx ho
      · rintro rfl
        exact Option.some_inj.1 (hx.symm.trans ho)
    have htest : tryCases ((e :: rest).map (·.map (nested cfg rounds))) m =
        (if x = text then takeCase (some (e.map (nested cfg rounds)))
          else tryCases (rest.map (·.map (nested cfg rounds)))) m1 := by
      refine (Exec.bind_ok (hpasses.run (by omega))).trans ?_
      show (Exec.primitive e.condition.primitive >>= fun b => _) m1 = _
      have hp : Exec.primitive e.condition.primitive m1 = .ok (decide (x = text)) m1 :=
        Exec.bind_ok (Completes.lookup_ok (lookup_eq_ok hprimitive))
      rw [Exec.bind_ok hp]
      by_cases hxt : x = text
      · rw [decide_eq_true hxt, if_pos hxt]
        rfl
      · rw [decide_eq_false hxt, if_neg hxt]
        rfl
    rw [htest, hordinals, List.findIdx?_cons]
    by_cases hxt : x = text
    · rw [if_pos hxt, hsame.2 hxt]
      exact ⟨m1, haside, by simp⟩
    · have hne : decide (o' = o) = false := decide_eq_false fun h => hxt (hsame.1 h)
      obtain ⟨m2, haside2, hrun⟩ := ih ((haside.vars subject fun _ => hsubject).trans hbound)
        (haside.value hvalue) (by rw [hne, cond_false] at hsteps; omega)
      refine ⟨m2, haside.trans haside2, ?_⟩
      rw [if_neg hxt, hrun, hne]
      cases (ordinalsOf rest).findIdx? (· = o) <;> rfl

/-! ### Generated switches -/

namespace Lowering

open Gen

variable {α : Type} {setting : Setting} {s : State} {n : Nat}

/-- Every generator keeps the temporaries that are taken. -/
theorem Gen.ensures_temps (g : Gen α) (setting : Setting) (s : State) :
    g.Ensures setting s fun _ s' _ => s.temps ≤ s'.temps := fun _ hr => g.temps_le hr

variable {subject : String} {cases : List (SwitchCase BlockCode)} {location : Option Location}
  {otherwise : Option BlockCode}

/-- The code that compares with a constant. -/
theorem genTest_compares {type constant : String} (hn : n ≤ s.temps) :
    (genTest subject type (.enumConstant constant)).Ensures setting s fun a _ _ =>
      Compares n subject type constant a.1 := by
  have hfresh : ∀ i, s.temps < i → IsTemp (numbered "_temp" i) ∧ ¬ TempUpTo n (numbered "_temp" i) := by
    refine fun i hi => ⟨⟨i, rfl⟩, ?_⟩
    rintro ⟨j, hj, heq⟩
    have := numbered_injective _ heq
    omega
  unfold genTest
  refine ensures_scopedCondition ?_
  rw [ensures_bind]
  refine genLiteral_emits fun k hk => ?_
  cases hk
  rw [ensures_bind, operatorMethod_equal, ensures_ofExcept]
  rintro _ ⟨⟩
  rw [ensures_bind]
  refine genCallValue_emits rfl fun equal _ htarget hargs hequal => ?_
  rw [ensures_bind]
  refine genPrimitive_emits ?_
  rw [ensures_pure]
  intro s' _
  refine ⟨_, numbered "_temp" (s.temps + 1), numbered "_temp" (s.temps + 2), equal, _, rfl,
    ⟨htarget, hargs, hequal⟩, ⟨rfl, rfl, rfl⟩, ?_, ?_⟩
  · have hnodup : [s.temps + 1, s.temps + 2, s.temps + 3].Nodup := by simp
    exact hnodup.map fun _ _ => numbered_injective "_temp"
  · refine List.forall_mem_cons.2 ⟨hfresh _ (by omega), List.forall_mem_cons.2 ⟨hfresh _ (by omega), ?_⟩⟩
    exact List.forall_mem_singleton.2 (hfresh (s.temps + 3) (by omega))

/-- The cases of a switch over an enumeration test its constants in order. -/
theorem genSwitchCases_tests {enum : EnumType} (hn : n ≤ s.temps)
    (hconstants : ∀ c ∈ cases, ∃ x, c.test = .enumConstant x) :
    (genSwitchCases subject enum.name (some enum) cases).Ensures setting s fun out _ _ =>
      List.Forall₂ (Tests enum n subject) (cases.map (·.test)) out := by
  induction cases generalizing s with
  | nil => exact .pure .nil
  | cons c rest ih =>
    rw [List.forall_mem_cons] at hconstants
    obtain ⟨⟨x, hx⟩, hrest⟩ := hconstants
    unfold genSwitchCases
    rw [ensures_bind, hx]
    refine ((genTest_compares hn).and (ensures_temps _ _ _)).mono ?_
    rintro ⟨condition, conditionScope⟩ s1 _ ⟨hcompares, htemps1⟩
    -- the block may take any number of temporaries, all of them new
    refine (ensures_temps _ _ _).bind ?_
    rintro ⟨bodyScope, evaluation⟩ s2 _ htemps2
    refine .ofExcept fun e he => (ih (Nat.le_trans hn (Nat.le_trans htemps1 htemps2)) hrest).bind
      fun out s3 _ hout => .pure (.cons ?_ hout)
    unfold switchCase Case.enumConstant at he
    dsimp only at he
    split at he
    · next o ho =>
      split at he <;> cases he
      exact ⟨x, o, hx, ho, rfl, hcompares⟩
    · cases he

/-- The chain of a switch over an enumeration. -/
structure EnumChain (enum : EnumType) (tests : List SwitchTest) (n : Nat) (c : Chain Instr) : Prop where
  dispatch : ∃ d hasFallback, c.dispatch = some d ∧ dispatchOf enum c.cases hasFallback = .ok d
  tests : ∃ v, c.subject = some v ∧ TempUpTo n v.name ∧
    List.Forall₂ (Tests enum n v.name) tests c.cases

/-- The end of a switch places its chain. -/
theorem closeSwitch_placed {guards : Option (GuardVariables Instr)}
    (chain : Option (CaseBody Instr) → Chain Instr) {k : String} :
    (genFallback otherwise >>= fun fallback => Gen.exitScope k >>= fun _ => closeGuard? guards >>=
      fun _ => Gen.ofExcept (chain fallback).validate >>= fun c =>
      Gen.emitAll (c.place guards location)).Ensures setting s fun _ _ l =>
        ∃ fallback, (chain fallback).placed guards location <:+ l := by
  refine (ensures_temps _ _ _).bind fun fallback s1 _ _ => .exitScope fun s2 _ =>
    (ensures_temps _ _ _).bind fun _ s3 _ _ => .check Chain.validate_eq_ok
      (.lastAll Chain.place_eq_ok ⟨fallback, ?_⟩)
  simp only [← List.append_assoc, List.suffix_append]

/-- What a switch is lowered to. -/
theorem genSwitch_placed {guard returning : Option GuardCode} {subject : Expr} :
    (genSwitch location guard subject.lower cases otherwise returning).Ensures setting s fun _ _ l =>
      ∃ c guards, Chain.placed c guards location <:+ l ∧ (c.kind = .switchEnum → ∃ enum n,
        setting.enumType? subject.type = some enum ∧ s.temps ≤ n ∧
          EnumChain enum (cases.map (·.test)) n c) := by
  refine (ensures_temps _ _ _).bind fun returning s1 _ htemps1 =>
    (ensures_temps _ _ _).bind fun guards s2 _ htemps2 => .scopeId (.enterScope (.captured ?_))
  -- in whatever way calls are answered, the value of the subject is a temporary
  let E : Evaluator Unit := ⟨setting.types, fun _ _ _ c => (.error (.callFailed ""), c), 0⟩
  have hE : E.Agrees setting := ⟨rfl, fun _ _ _ _ _ _ h => h⟩
  refine Ensures.mono (value_realizes (subject.lower_realizes hE) _) ?_
  rintro name s3 setup ⟨hlater, hnew, -⟩
  have htemps3 : s2.temps ≤ s3.temps := hlater.temps
  refine .ofSetting ?_
  dsimp only
  rw [Expr.type_lower]
  cases hfound : (if overConstants cases then setting.enumType? subject.type else none) with
  | none =>
    refine (ensures_temps _ _ _).bind fun chainCases s4 _ _ => .check Chain.start_eq_ok
      (ensures_bind.2 (.pure ((closeSwitch_placed fun fallback => _).mono ?_)))
    rintro _ _ l ⟨fallback, hl⟩
    exact ⟨_, guards, hl.trans (by simp only [← List.append_assoc, List.suffix_append]), nofun⟩
  | some enum =>
    split at hfound
    · next hover =>
      have hname : enum.name = subject.type := by simpa using List.find?_some hfound
      have hconstants : ∀ c ∈ cases, ∃ x, c.test = .enumConstant x := by
        intro c hc
        simp only [overConstants, Bool.and_eq_true, List.all_eq_true] at hover
        have := hover.2 c hc
        unfold isConstantCase at this
        split at this
        · exact ⟨_, ‹_›⟩
        · cases this
      rw [← hname]
      refine (genSwitchCases_tests (Nat.le_refl _) hconstants).bind fun chainCases s4 _ htests =>
        .check Chain.start_eq_ok (.ofExcept fun d hd =>
          ensures_bind.2 (.pure ((closeSwitch_placed fun fallback => _).mono ?_)))
      rintro _ _ l ⟨fallback, hl⟩
      refine ⟨_, guards, hl.trans (by simp only [← List.append_assoc, List.suffix_append]), fun _ => ?_⟩
      exact ⟨enum, s3.temps, hname ▸ hfound, by omega, ⟨d, _, rfl, hd⟩, _, rfl, hnew.upTo, htests⟩
    · cases hfound

end Lowering

open Lowering Gen

/-- The constants and ordinals that cases know are those of their tests. -/
theorem Tests.constants (h : List.Forall₂ (Tests enum n subject) tests cases) :
    ∃ l : List (String × UInt32), cases.filterMap (fun e => e.kind.enumConstant?) = l ∧
      tests = l.map (fun p => .enumConstant p.1) ∧
      cases.map (·.kind) = l.map (fun p => .enumConstant p.1 p.2) ∧
      l.map (fun p => enum.ordinal? p.1) = l.map (fun p => some p.2) := by
  induction h with
  | nil => exact ⟨[], rfl, rfl, rfl, rfl⟩
  | cons he _ ih =>
    obtain ⟨x, o, rfl, ho, hkind, -⟩ := he
    obtain ⟨l, hl, rfl, hkinds, hordinals⟩ := ih
    refine ⟨(x, o) :: l, ?_, rfl, by simp [hkind, hkinds], by simp [ho, hordinals]⟩
    rw [List.filterMap_cons, hkind, ← hl]
    rfl

/-- The hints name the constants that the cases test for, in their order and with their ordinals. -/
structure EnumDispatch.Describes (d : EnumDispatch) (enum : EnumType) (tests : List SwitchTest)
    (c : Chain Instr) : Prop where
  enumType : d.enumType = enum.name
  tests : tests = d.values.map .enumConstant
  ordinals : d.values.map enum.ordinal? = d.ordinals.map some
  cases : c.cases.map (·.kind) = List.zipWith .enumConstant d.values d.ordinals
  length : d.values.length = c.cases.length ∧ d.ordinals.length = c.cases.length

/-- The setups of the chain come to the state `m1`. There its subject is an object of a constant, and
there are steps left for as many tests, of nine instructions each. -/
structure Chain.SwitchesOn (c : Chain Instr) (cfg : Config σ) (rounds : Nat) (type constant : String)
    (tests : Nat) (m m1 : Machine σ) : Prop where
  setup : andThen (runSetup (c.map (nested cfg rounds)).subject)
    (runSetup (c.map (nested cfg rounds)).returning) m = .ok .next m1
  subject : ∃ v id, c.subject = some v ∧ m1.vars.get? v.name = some (.object id) ∧
    m1.heap.value id = .ok (.other type constant)
  steps : m1.steps + 9 * tests ≤ cfg.maxSteps

namespace Lowering.EnumChain

variable {enum : EnumType} {tests : List SwitchTest} {n : Nat} {c : Chain Instr} {d : EnumDispatch}

theorem describes (h : EnumChain enum tests n c) (hd : c.dispatch = some d) :
    d.Describes enum tests c ∧ d.ordinals = ordinalsOf c.cases ∧
      (d.exhaustive = true → ∀ x ∈ enum.constants, x ∈ d.values) := by
  obtain ⟨v, -, -, htests⟩ := h.tests
  obtain ⟨d', hasFallback, hd', hbuild⟩ := h.dispatch
  obtain rfl : d = d' := Option.some_inj.1 (hd.symm.trans hd')
  obtain ⟨l, hl, rfl, hkinds, hordinals⟩ := Tests.constants htests
  unfold dispatchOf EnumDispatch.build at hbuild
  rw [hl] at hbuild
  dsimp only at hbuild
  split at hbuild <;> cases hbuild
  have hlength : l.length = c.cases.length := by simpa using (congrArg List.length hkinds).symm
  refine ⟨⟨rfl, by simp, by simpa using hordinals, ?_, by simpa using hlength⟩, by rw [ordinalsOf, hl], ?_⟩
  · rw [hkinds, List.zipWith_map, List.zipWith_self]
  · intro hex x hx
    simp only [Bool.and_eq_true, List.all_eq_true, decide_eq_true_eq] at hex
    exact hex.2 x hx

/-- A run of the chain jumps to the case that the hints lead to. -/
theorem jumps (h : EnumChain enum tests n c) (hkind : c.kind = .switchEnum) (hd : c.dispatch = some d)
    (hfew : enum.constants.length ≤ 2 ^ 32)
    (hname : enum.name ∉ [TypeName.integer, TypeName.boolean, TypeName.string]) {cfg : Config Nat}
    (hcfg : cfg.handler = Builtin.handler) {rounds : Nat} {i : Instr} {m m1 : Machine Nat} {x : String}
    {o : UInt32} (ho : enum.ordinal? x = some o)
    (hon : c.SwitchesOn cfg rounds enum.name x (d.tested o) m m1) :
    ∃ m', Aside n m1 m' ∧ runChain exitScope rounds i (c.map (nested cfg rounds)) m =
      jump i (c.map (nested cfg rounds)) (d.caseFor? o) m' := by
  obtain ⟨v, hv, hold, htests⟩ := h.tests
  obtain ⟨v', id, hv', hbound, hvalue⟩ := hon.subject
  obtain rfl : v = v' := Option.some_inj.1 (hv.symm.trans hv')
  have hsteps := hon.steps
  rw [EnumDispatch.tested, (h.describes hd).2.1] at hsteps
  obtain ⟨m', haside, hrun⟩ := tryCases_tests rounds hcfg hfew hname hold ho
    htests hbound hvalue hsteps
  refine ⟨m', haside, ?_⟩
  have hkind : (c.map (nested cfg rounds)).kind = .switchEnum := hkind
  have hselect : select (c.map (nested cfg rounds)) m1 =
      selectAt (c.map (nested cfg rounds)) (d.caseFor? o) m' := by
    rw [EnumDispatch.caseFor?, (h.describes hd).2.1]
    exact bind_eq_of_eq hrun
  unfold runChain
  rw [if_neg (by rw [hkind]; nofun), if_neg (by rw [hkind]; nofun), ← andThen_assoc]
  exact (Exec.bind_ok hon.setup).trans (bind_eq_of_eq hselect)

end Lowering.EnumChain

/-- Code ends with one chain at most. -/
theorem Chain.eq_of_placed_suffix {c c' : Chain Instr} {guards guards' : Option (GuardVariables Instr)}
    {location : Option Location} {l : List Instr} (h : c.placed guards location <:+ l)
    (h' : c'.placed guards' location <:+ l) : c = c' := by
  obtain ⟨front, rfl⟩ := h
  obtain ⟨front', heq⟩ := h'
  have hreverse := congrArg List.reverse heq
  cases guards <;> cases guards' <;> simp [Chain.placed, chained, simple] at hreverse
  · exact hreverse.2.1.2.2.symm
  · exact hreverse.2.2.1.2.2.symm

/-- A switch over a declared enumeration is lowered to a chain that finds its case by the ordinal of the
subject. The hints list the constants of the cases with their ordinals, in the order of the cases, and
exhaustive hints have a case for every constant. For a subject that is a constant of the enumeration, a run
of the chain comes to the first case with its ordinal, or to the default if there is none; up to there it
has left everything but new temporaries and new objects as it was. Ordinals are words of 32 bits, so the
enumeration has at most as many constants as there are such words. -/
theorem switchEnum_jumps {token : Option Location} {guard returning : Option Guard} {subject : Expr}
    {cases : List (SwitchCase (List Stmt))} {otherwise : Option (List Stmt)} {setting : Setting}
    {s : State} {r : Generated Unit} {chain : Chain Instr} {guards : Option (GuardVariables Instr)}
    {enum : EnumType}
    (h : (Stmt.switch token guard subject cases otherwise returning).lower.run setting s = .ok r)
    (hcode : chain.placed guards (setting.location token) <:+ r.instrs) (hkind : chain.kind = .switchEnum)
    (henum : setting.enumType? subject.type = some enum) (hfew : enum.constants.length ≤ 2 ^ 32)
    (hname : enum.name ∉ [TypeName.integer, TypeName.boolean, TypeName.string]) :
    ∃ d n, chain.dispatch = some d ∧ s.temps ≤ n ∧ d.Describes enum (cases.map (·.test)) chain ∧
      ∀ x ∈ enum.constants, ∃ o, enum.ordinal? x = some o ∧
        (d.exhaustive = true → (d.caseFor? o).isSome) ∧
        ∀ (cfg : Config Nat) (rounds : Nat) (m m1 : Machine Nat), cfg.handler = Builtin.handler →
          chain.SwitchesOn cfg rounds enum.name x (d.tested o) m m1 →
          ∃ m', Aside n m1 m' ∧
            runChain exitScope rounds (chained (setting.location token) chain)
                (chain.map (nested cfg rounds)) m =
              jump (chained (setting.location token) chain) (chain.map (nested cfg rounds))
                (d.caseFor? o) m' := by
  unfold Stmt.lower at h
  obtain ⟨a, b, ha, hb, rfl⟩ := (run_bind_eq_ok_iff _ _ _ _ _).1 h
  cases ha
  rw [Stmt.lowerCases_eq_map] at hb
  obtain ⟨c, guards', hplaced, hchain⟩ := genSwitch_placed b hb
  obtain rfl := Chain.eq_of_placed_suffix hcode hplaced
  obtain ⟨enum', n, henum', hn, hchain⟩ := hchain hkind
  obtain rfl : enum = enum' := Option.some_inj.1 (henum.symm.trans henum')
  obtain ⟨d, -, hd, -⟩ := hchain.dispatch
  obtain ⟨hdescribes, -, hall⟩ := hchain.describes hd
  rw [List.map_map, Function.comp_def] at hdescribes
  simp only [Stmt.lowerCase_test] at hdescribes
  refine ⟨d, n, hd, hn, hdescribes, fun x hx => ?_⟩
  have hfound : (enum.ordinal? x).isSome := by
    rw [EnumType.ordinal?, Option.isSome_map, List.findIdx?_isSome, List.any_eq_true]
    exact ⟨x, hx, decide_eq_true rfl⟩
  obtain ⟨o, ho⟩ := Option.isSome_iff_exists.1 hfound
  refine ⟨o, ho, fun hex => ?_, fun cfg rounds m m1 hcfg hon => ?_⟩
  · have hmem : some o ∈ d.ordinals.map some := by
      rw [← hdescribes.ordinals, ← ho]
      exact List.mem_map_of_mem (hall hex x hx)
    rw [EnumDispatch.caseFor?, List.findIdx?_isSome, List.any_eq_true]
    exact ⟨o, by simpa using hmem, decide_eq_true rfl⟩
  · exact hchain.jumps hkind hd hfew hname hcfg ho hon

/-- A switch over a color, with two cases for one constant. -/
def paint : Stmt :=
  .switch none none (.var ⟨"Color", none⟩ "color")
    [⟨.enumConstant "BLUE", []⟩, ⟨.enumConstant "RED", []⟩, ⟨.enumConstant "RED", []⟩] none none

def colors : EnumType := ⟨"Color", ["RED", "GREEN", "BLUE"]⟩

def palette : Setting := { types := fun _ _ => false, enums := [colors] }

/-- A state in which the color is red. -/
def red : Machine Nat :=
  { heap := Heap.empty.allocExternal (.other "Color" "RED")
    vars := FinMap.empty.insert "color" (.object ⟨0⟩)
    calls := 0 }

-- The operator of the tests is looked up in the whole table of operators.
set_option maxRecDepth 2000

/-- The generated chain, its hints and the state in which red is found. -/
theorem paint_switches : ∃ (r : Generated Unit) (chain : Chain Instr) (d : EnumDispatch)
    (m1 : Machine Nat), paint.lower.run palette { scopes := [{ id := "_scope_0" }] } = .ok r ∧
    r.instrs = chain.placed none none ∧ chain.kind = .switchEnum ∧
    chain.dispatch = some d ∧ d.caseFor? 0 = some 1 ∧
    chain.SwitchesOn { handler := Builtin.handler } 0 colors.name "RED" (d.tested 0) red m1 :=
  ⟨_, _, _, _, rfl, rfl, rfl, rfl, rfl, rfl, ⟨_, _, rfl, rfl, rfl⟩, by decide⟩

/-- Red has the least ordinal, which leads to the second case. -/
theorem switchEnum_jumps_paint : ∃ (r : Generated Unit) (chain : Chain Instr) (d : EnumDispatch)
    (m1 m' : Machine Nat), paint.lower.run palette { scopes := [{ id := "_scope_0" }] } = .ok r ∧
    r.instrs = chain.placed none none ∧ chain.kind = .switchEnum ∧
    chain.SwitchesOn { handler := Builtin.handler } 0 colors.name "RED" (d.tested 0) red m1 ∧
    runChain exitScope 0 (chained none chain) (chain.map (nested { handler := Builtin.handler } 0)) red =
      jump (chained none chain) (chain.map (nested { handler := Builtin.handler } 0)) (some 1) m' := by
  obtain ⟨r, chain, d, m1, h, hcode, hkind, hd, hcase, hon⟩ := paint_switches
  have hplaced : chain.placed none (palette.location none) <:+ r.instrs := hcode ▸ List.suffix_refl _
  have hcolors : palette.enumType? "Color" = some colors := rfl
  obtain ⟨d', n, hd', -, -, hjumps⟩ :=
    switchEnum_jumps h hplaced hkind hcolors (by decide) (by decide)
  obtain rfl : d = d' := Option.some_inj.1 (hd.symm.trans hd')
  obtain ⟨o, ho, -, hrun⟩ := hjumps "RED" (by decide)
  obtain rfl : 0 = o := Option.some_inj.1 ho
  obtain ⟨m', -, hrun⟩ := hrun { handler := Builtin.handler } 0 red m1 rfl hon
  rw [hcase] at hrun
  exact ⟨r, chain, d, m1, m', h, hcode, hkind, hon, hrun⟩

end ScopedIR
