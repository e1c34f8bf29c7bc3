import ScopedIR.Machine.Heap

/-!
# Exact reference counts

A heap is counted exactly when every object has one reference per field that points to it and one
per entry of a list `base`, which stands for everything else that holds references: registered
names, exceptions on their way, the caller. What is done to such a heap is then a matter of lists:
retaining an object adds it to `base`, and releasing objects takes them away again, whatever is
freed on the way.

Main definition: `Heap.Counts`.

Main statements: `Counts.releaseAll`, that references which are there can be dropped, and
`leaks_eq_nil`, that a heap which is counted exactly leaks nothing but what the base holds.
-/

namespace ScopedIR.Heap

variable {h : Heap} {id : ObjectId} {base : List ObjectId}

/-! ### Looking up objects -/

theorem get?_modify (h : Heap) (id a : ObjectId) (f : HeapObject → HeapObject) :
    (h.modify id f).get? a = if id = a then (h.get? a).map f else h.get? a := by
  have hi : (id.index = a.index) = (id = a) := by
    obtain ⟨i⟩ := id
    obtain ⟨j⟩ := a
    simp
  rw [get?, modify, Arena.get?_modify]
  simp only [hi]
  rfl

variable {f g : HeapObject → HeapObject} {o : HeapObject} {a : ObjectId}
  {fields : FinMap String ObjectId} {h1 h2 : Heap} {pending : List ObjectId}

theorem get?_modify_self (ho : h.get? id = some o) : (h.modify id f).get? id = some (f o) := by
  rw [get?_modify, if_pos rfl, ho]
  rfl

theorem get?_modify_ne (ha : id ≠ a) : (h.modify id f).get? a = h.get? a := by
  rw [get?_modify, if_neg ha]

theorem get?_add (h : Heap) (o : HeapObject) (a : ObjectId) :
    (h.add o).get? a = if a = h.next then some o else h.get? a := by
  have hi : (a.index = h.objects.size) = (a = h.next) := by
    obtain ⟨i⟩ := a
    simp [next, size]
  rw [get?, add, Arena.get?_push]
  simp only [hi]
  rfl

theorem get?_next (h : Heap) : h.get? h.next = none :=
  (Arena.get?_eq_none_iff _ _).2 (Nat.le_refl _)

theorem get?_add_of_some {b : HeapObject} (hb : h.get? a = some b) : (h.add o).get? a = some b := by
  rw [get?_add, if_neg, hb]
  rintro rfl
  rw [get?_next] at hb
  cases hb

theorem mem_values_of_get? {name : String} (h : fields.get? name = some a) : a ∈ fields.values := by
  obtain ⟨entries⟩ := fields
  simp only [FinMap.get?] at h
  simp only [FinMap.values]
  induction entries with
  | nil => cases h
  | cons e rest ih =>
    obtain ⟨k, v⟩ := e
    rw [FinMap.find] at h
    rw [List.map_cons]
    split at h
    · cases h
      exact List.mem_cons_self
    · exact List.mem_cons_of_mem _ (ih h)

/-! ### References -/

-- Sums of numbers start at the numeral, whatever other zero is in scope.
attribute [local instance (high)] Zero.ofOfNat0

/-- The number of fields that refer to an object. -/
def fieldRefs (h : Heap) (id : ObjectId) : Nat :=
  (h.objects.toList.map fun o => o.fields.values.count id).sum

/-- The object exists and is not freed. -/
def Alive (h : Heap) (id : ObjectId) : Prop := ∃ o, h.get? id = some o ∧ o.freed = false

/-- The object was handed in by the caller. -/
def External (h : Heap) (id : ObjectId) : Prop := ∃ o, h.get? id = some o ∧ o.external = true

theorem fieldRefs_modify (ho : h.get? id = some o) (f : HeapObject → HeapObject) (a : ObjectId) :
    (h.modify id f).fieldRefs a + o.fields.values.count a =
      h.fieldRefs a + (f o).fields.values.count a := by
  have hl : h.objects.toList[id.index]? = some o := by
    simpa [get?, Arena.get?, Arena.toList] using ho
  have := sum_map_modify (fun o => o.fields.values.count a) f o h.objects.toList id.index hl
  simpa [fieldRefs, modify, Arena.modify, Arena.toList, Array.toList_modify] using this

theorem fieldRefs_modify_of_fields (ho : h.get? id = some o) (hf : (f o).fields = o.fields)
    (a : ObjectId) : (h.modify id f).fieldRefs a = h.fieldRefs a := by
  have := fieldRefs_modify ho f a
  rw [hf] at this
  omega

/-- A field refers to its object. -/
theorem fieldRefs_pos (ho : h.get? id = some o) (ha : a ∈ o.fields.values) : 0 < h.fieldRefs a := by
  have hempty : ({ o with fields := .empty } : HeapObject).fields.values.count a = 0 := rfl
  have := fieldRefs_modify ho (fun o => { o with fields := .empty }) a
  have := List.count_pos_iff.2 ha
  omega

theorem fieldRefs_add (h : Heap) (o : HeapObject) (a : ObjectId) :
    (h.add o).fieldRefs a = h.fieldRefs a + o.fields.values.count a := by
  simp [fieldRefs, add, Arena.push, Arena.toList]

theorem count_heldBy (o : HeapObject) (a : ObjectId) :
    (heldBy o).count a = o.fields.values.count a :=
  (List.mergeSort_perm _ _).count_eq a

/-! ### Exact counts -/

/-- Every counted object has one reference per field that refers to it, one per entry of the list,
and one that the caller keeps if it handed the object in. -/
structure Counts (h : Heap) (base : List ObjectId) : Prop where
  exact : ∀ id o, h.get? id = some o → o.onStack = false →
    o.refcount = h.fieldRefs id + base.count id + if o.external then 1 else 0
  known : ∀ id, 0 < h.fieldRefs id + base.count id → ∃ o, h.get? id = some o
  freed : ∀ id o, h.get? id = some o → o.freed = true →
    o.refcount = 0 ∧ o.onStack = false ∧ o.fields = .empty
  keyed : ∀ id o, h.get? id = some o → o.fields.keys.Nodup

namespace Counts

variable {base' : List ObjectId} {o : HeapObject}

/-- Only how often an object stands in the list matters. -/
theorem congr (hc : h.Counts base) (hb : ∀ id, base'.count id = base.count id) :
    h.Counts base' where
  exact := by
    intro id o ho hs
    rw [hb id]
    exact hc.exact id o ho hs
  known := by
    intro id hid
    rw [hb id] at hid
    exact hc.known id hid
  freed := hc.freed
  keyed := hc.keyed

theorem perm (hc : h.Counts base) (hp : base.Perm base') : h.Counts base' :=
  hc.congr fun id => (hp.count_eq id).symm

/-- What is referred to is not freed. -/
theorem alive (hc : h.Counts base) (hid : 0 < h.fieldRefs id + base.count id) : h.Alive id := by
  obtain ⟨o, ho⟩ := hc.known id hid
  refine ⟨o, ho, ?_⟩
  cases hf : o.freed with
  | false => rfl
  | true =>
    obtain ⟨hz, hs, -⟩ := hc.freed id o ho hf
    have := hc.exact id o ho hs
    omega

theorem alive_of_mem (hc : h.Counts base) (hid : id ∈ base) : h.Alive id := by
  apply hc.alive
  have := List.count_pos_iff.2 hid
  omega

/-- What the caller handed in is not freed. -/
theorem alive_of_external (hc : h.Counts base) (hid : h.External id) : h.Alive id := by
  obtain ⟨o, ho, he⟩ := hid
  refine ⟨o, ho, ?_⟩
  cases hf : o.freed with
  | false => rfl
  | true =>
    obtain ⟨hz, hs, -⟩ := hc.freed id o ho hf
    have := hc.exact id o ho hs
    rw [he, if_pos rfl] at this
    omega

/-- Nothing refers to an object that is not there yet. -/
theorem unknown (hc : h.Counts base) : h.fieldRefs h.next + base.count h.next = 0 := by
  refine Nat.eq_zero_of_not_pos fun hpos => ?_
  obtain ⟨o, ho⟩ := hc.known h.next hpos
  rw [get?_next h] at ho
  cases ho

/-! ### Changes that drop no reference -/

/-- A change of one live object that leaves its references and its place alone. -/
theorem modify {f : HeapObject → HeapObject} (hc : h.Counts base) (ho : h.get? id = some o)
    (hfields : (f o).fields = o.fields) (hstack : (f o).onStack = o.onStack)
    (hext : (f o).external = o.external) (hfreed : (f o).freed = false)
    (hcount : o.onStack = false → (f o).refcount + base.count id = o.refcount + base'.count id)
    (hother : ∀ a, a ≠ id → base'.count a = base.count a) : (h.modify id f).Counts base' where
  exact := by
    intro a b hb hs
    rw [fieldRefs_modify_of_fields ho hfields]
    by_cases ha : id = a
    · subst ha
      rw [get?_modify_self ho] at hb
      cases hb
      rw [hstack] at hs
      have := hc.exact id o ho hs
      have := hcount hs
      rw [hext]
      omega
    · rw [get?_modify_ne ha] at hb
      rw [hother a (Ne.symm ha)]
      exact hc.exact a b hb hs
  known := by
    intro a hpos
    by_cases ha : id = a
    · subst ha
      exact ⟨f o, get?_modify_self ho⟩
    · rw [fieldRefs_modify_of_fields ho hfields, hother a (Ne.symm ha)] at hpos
      rw [get?_modify_ne ha]
      exact hc.known a hpos
  freed := by
    intro a b hb hf
    by_cases ha : id = a
    · subst ha
      rw [get?_modify_self ho] at hb
      cases hb
      rw [hfreed] at hf
      cases hf
    · rw [get?_modify_ne ha] at hb
      exact hc.freed a b hb hf
  keyed := by
    intro a b hb
    by_cases ha : id = a
    · subst ha
      rw [get?_modify_self ho] at hb
      cases hb
      rw [hfields]
      exact hc.keyed id o ho
    · rw [get?_modify_ne ha] at hb
      exact hc.keyed a b hb

/-- A new object without fields, with a reference of its own for every entry that names it. -/
theorem add (hc : h.Counts base) (hfields : o.fields = .empty) (hfreed : o.freed = false)
    (hcount : o.refcount = base'.count h.next + if o.external then 1 else 0)
    (hother : ∀ a, a ≠ h.next → base'.count a = base.count a) : (h.add o).Counts base' := by
  have hrefs : ∀ a, (h.add o).fieldRefs a = h.fieldRefs a := by
    intro a
    rw [fieldRefs_add, hfields]
    rfl
  refine ⟨?_, ?_, ?_, ?_⟩
  · intro a b hb hs
    rw [hrefs]
    rw [get?_add] at hb
    by_cases ha : a = h.next
    · subst ha
      rw [if_pos rfl] at hb
      cases hb
      have := hc.unknown
      omega
    · rw [if_neg ha] at hb
      rw [hother a ha]
      exact hc.exact a b hb hs
  · intro a hpos
    rw [hrefs] at hpos
    rw [get?_add]
    by_cases ha : a = h.next
    · exact ⟨o, if_pos ha⟩
    · rw [hother a ha] at hpos
      rw [if_neg ha]
      exact hc.known a hpos
  · intro a b hb hf
    rw [get?_add] at hb
    by_cases ha : a = h.next
    · rw [if_pos ha] at hb
      cases hb
      rw [hfreed] at hf
      cases hf
    · rw [if_neg ha] at hb
      exact hc.freed a b hb hf
  · intro a b hb
    rw [get?_add] at hb
    by_cases ha : a = h.next
    · rw [if_pos ha] at hb
      cases hb
      rw [hfields]
      exact List.nodup_nil
    · rw [if_neg ha] at hb
      exact hc.keyed a b hb

end Counts

/-- Nothing is freed from one heap to the other, and no field is written. -/
structure Keeps (h h' : Heap) : Prop where
  alive : ∀ id, h.Alive id → h'.Alive id
  external : ∀ id, h.External id → h'.External id
  fieldRefs : ∀ id, h'.fieldRefs id = h.fieldRefs id

/-- Objects may be freed from one heap to the other, and their fields emptied. -/
structure Drops (h h' : Heap) : Prop where
  external : ∀ id, h.External id → h'.External id
  fieldRefs : ∀ id, h'.fieldRefs id ≤ h.fieldRefs id

theorem Keeps.refl (h : Heap) : h.Keeps h := ⟨fun _ ha => ha, fun _ ha => ha, fun _ => rfl⟩

theorem Keeps.drops {h' : Heap} (hk : h.Keeps h') : h.Drops h' :=
  ⟨hk.external, fun id => Nat.le_of_eq (hk.fieldRefs id)⟩

theorem Drops.trans (hd : h.Drops h1) (hd' : h1.Drops h2) : h.Drops h2 :=
  ⟨fun id ha => hd'.external id (hd.external id ha),
    fun id => Nat.le_trans (hd'.fieldRefs id) (hd.fieldRefs id)⟩

theorem external_modify (ho : h.get? id = some o) (hf : (f o).external = o.external)
    (ha : h.External a) : (h.modify id f).External a := by
  obtain ⟨b, hb, he⟩ := ha
  by_cases hid : id = a
  · subst hid
    rw [ho] at hb
    cases hb
    exact ⟨f o, get?_modify_self ho, hf.trans he⟩
  · exact ⟨b, by rw [get?_modify_ne hid, hb], he⟩

theorem keeps_modify (ho : h.get? id = some o) (hfields : (f o).fields = o.fields)
    (hext : (f o).external = o.external) (hfreed : (f o).freed = o.freed) :
    h.Keeps (h.modify id f) where
  alive := by
    rintro a ⟨b, hb, hf⟩
    by_cases hid : id = a
    · subst hid
      rw [ho] at hb
      cases hb
      exact ⟨f o, get?_modify_self ho, hfreed.trans hf⟩
    · exact ⟨b, by rw [get?_modify_ne hid, hb], hf⟩
  external := fun _ ha => external_modify ho hext ha
  fieldRefs := fieldRefs_modify_of_fields ho hfields

theorem keeps_add (hfields : o.fields = .empty) : h.Keeps (h.add o) where
  alive := by
    rintro a ⟨b, hb, hf⟩
    exact ⟨b, get?_add_of_some hb, hf⟩
  external := by
    rintro a ⟨b, hb, he⟩
    exact ⟨b, get?_add_of_some hb, he⟩
  fieldRefs := by
    intro a
    rw [fieldRefs_add, hfields]
    rfl

theorem alive_next_add (hf : o.freed = false) : (h.add o).Alive h.next :=
  ⟨o, by rw [get?_add, if_pos rfl], hf⟩

theorem live_eq_ok (ho : h.get? id = some o) (hf : o.freed = false) : h.live id = .ok o := by
  simp [live, ho, hf]

theorem updateLive_eq (ho : h.get? id = some o) (hf : o.freed = false)
    (f : HeapObject → HeapObject) : h.updateLive id f = (.ok (), h.modify id f) := by
  simp [updateLive, live_eq_ok ho hf]

theorem live_eq_error (ha : ¬ h.Alive id) : h.live id = .error (.useAfterFree id) := by
  unfold live
  cases ho : h.get? id with
  | none => rfl
  | some o =>
    cases hf : o.freed with
    | true => simp [hf]
    | false => exact absurd ⟨o, ho, hf⟩ ha

theorem updateLive_eq_error (ha : ¬ h.Alive id) (f : HeapObject → HeapObject) :
    h.updateLive id f = (.error (.useAfterFree id), h) := by
  simp [updateLive, live_eq_error ha]

/-- A live object can be retained, and what retains it is one more reference. -/
theorem Counts.retain (hc : h.Counts base) (ha : h.Alive id) :
    ∃ h', h.retain id = (.ok (), h') ∧ h'.Counts (id :: base) ∧ h.Keeps h' := by
  obtain ⟨o, ho, hf⟩ := ha
  refine ⟨_, updateLive_eq ho hf _, ?_, ?_⟩
  · refine hc.modify ho ?_ ?_ ?_ ?_ ?_ ?_
    · split <;> rfl
    · split <;> rfl
    · split <;> rfl
    · split <;> exact hf
    · intro hs
      simp only [hs, Bool.false_eq_true, if_false, List.count_cons_self]
      omega
    · intro a ha
      exact List.count_cons_of_ne (Ne.symm ha)
  · refine keeps_modify ho ?_ ?_ ?_
    · split <;> rfl
    · split <;> rfl
    · split <;> rfl

/-- A live object may get another value. -/
theorem Counts.setValue (hc : h.Counts base) (ha : h.Alive id) (v : Value) :
    ∃ h', h.setValue id v = (.ok (), h') ∧ h'.Counts base ∧ h.Keeps h' := by
  obtain ⟨o, ho, hf⟩ := ha
  refine ⟨_, updateLive_eq ho hf _, ?_, keeps_modify ho rfl rfl rfl⟩
  exact hc.modify ho rfl rfl rfl hf (fun _ => rfl) fun _ _ => rfl

theorem Counts.alloc (hc : h.Counts base) (v : Value) (onStack : Bool) :
    (h.alloc v onStack).Counts base := by
  have hnone : base.count h.next = 0 := by
    have := hc.unknown
    omega
  exact hc.add rfl rfl hnone.symm fun _ _ => rfl

theorem Counts.allocOwned (hc : h.Counts base) (v : Value) :
    (h.allocOwned v).Counts (h.next :: base) := by
  have hnone : base.count h.next = 0 := by
    have := hc.unknown
    omega
  refine hc.add rfl rfl ?_ fun a ha => List.count_cons_of_ne (Ne.symm ha)
  rw [List.count_cons_self, hnone]
  rfl

/-! ### Dropping references -/

/-- An entry for an object on the stack counts for nothing. -/
theorem Counts.of_onStack (hc : h.Counts (id :: base)) (ho : h.get? id = some o)
    (hs : o.onStack = true) : h.Counts base where
  exact := by
    intro a b hb hb'
    have hne : id ≠ a := by
      rintro rfl
      rw [ho] at hb
      cases hb
      rw [hs] at hb'
      cases hb'
    have := hc.exact a b hb hb'
    rwa [List.count_cons_of_ne hne] at this
  known := by
    intro a ha
    apply hc.known
    have : base.count a ≤ (id :: base).count a := (List.sublist_cons_self id base).count_le a
    omega
  freed := hc.freed
  keyed := hc.keyed

/-- The last reference to an object goes, and what its fields refer to is to be dropped in turn. -/
theorem Counts.free (hc : h.Counts (id :: base)) (ho : h.get? id = some o)
    (hs : o.onStack = false) (hone : o.refcount = 1) :
    (h.modify id fun o => { o with refcount := 0, freed := true, fields := .empty }).Counts
      (heldBy o ++ base) := by
  have hrefs := fieldRefs_modify ho
    (fun o => { o with refcount := 0, freed := true, fields := .empty })
  have hself := hc.exact id o ho hs
  rw [List.count_cons_self, hone] at hself
  have hcount : ∀ a, (h.modify id fun o =>
      { o with refcount := 0, freed := true, fields := .empty }).fieldRefs a
        + (heldBy o ++ base).count a = h.fieldRefs a + base.count a := by
    intro a
    have := hrefs a
    change _ = h.fieldRefs a + 0 at this
    rw [List.count_append, count_heldBy]
    omega
  refine ⟨?_, ?_, ?_, ?_⟩
  · intro a b hb hb'
    rw [hcount a]
    by_cases ha : id = a
    · subst ha
      rw [get?_modify_self ho] at hb
      cases hb
      change 0 = _ + if o.external then 1 else 0
      omega
    · rw [get?_modify_ne ha] at hb
      have := hc.exact a b hb hb'
      rwa [List.count_cons_of_ne ha] at this
  · intro a ha
    rw [hcount a] at ha
    by_cases hid : id = a
    · subst hid
      exact ⟨_, get?_modify_self ho⟩
    · rw [get?_modify_ne hid]
      apply hc.known
      rw [List.count_cons_of_ne hid]
      exact ha
  · intro a b hb hf
    by_cases ha : id = a
    · subst ha
      rw [get?_modify_self ho] at hb
      cases hb
      exact ⟨rfl, hs, rfl⟩
    · rw [get?_modify_ne ha] at hb
      exact hc.freed a b hb hf
  · intro a b hb
    by_cases ha : id = a
    · subst ha
      rw [get?_modify_self ho] at hb
      cases hb
      exact List.nodup_nil
    · rw [get?_modify_ne ha] at hb
      exact hc.keyed a b hb

theorem drops_modify (ho : h.get? id = some o) (hext : (f o).external = o.external)
    (hfields : (f o).fields = .empty) :
    h.Drops (h.modify id f) where
  external := fun _ ha => external_modify ho hext ha
  fieldRefs := by
    intro a
    have hempty : (FinMap.empty : FinMap String ObjectId).values.count a = 0 := rfl
    have := fieldRefs_modify ho f a
    rw [hfields] at this
    omega

/-- Dropping a reference to an object that is there. -/
theorem releaseAll_cons {rest : List ObjectId} (ho : h.get? id = some o) :
    h.releaseAll (id :: rest) =
      if o.onStack then h.releaseAll rest
      else if o.freed || o.refcount = 0 then (.error (.doubleRelease id), h)
      else if o.refcount = 1 then
        (h.modify id fun o => { o with refcount := 0, freed := true, fields := .empty }).releaseAll
          (heldBy o ++ rest)
      else (h.modify id fun o => { o with refcount := o.refcount - 1 }).releaseAll rest := by
  rw [Heap.releaseAll]
  split
  · next hnone =>
    rw [ho] at hnone
    cases hnone
  · next b hb =>
    rw [ho] at hb
    cases hb
    rfl

/-- References that are there can be dropped, and the others stay counted exactly. -/
theorem Counts.releaseAll (hc : h.Counts (pending ++ base)) :
    ∃ h', h.releaseAll pending = (.ok (), h') ∧ h'.Counts base ∧ h.Drops h' := by
  induction h, pending using Heap.releaseAll.induct with
  | case1 h =>
    rw [Heap.releaseAll]
    exact ⟨h, rfl, hc, (Keeps.refl h).drops⟩
  | case2 h id rest hnone =>
    have hpos : 0 < h.fieldRefs id + (id :: rest ++ base).count id := by
      rw [List.cons_append, List.count_cons_self]
      omega
    obtain ⟨o, ho⟩ := hc.known id hpos
    rw [hnone] at ho
    cases ho
  | case3 h id rest o ho hs ih =>
    obtain ⟨h', hr, hc', hd⟩ := ih (hc.of_onStack ho hs)
    refine ⟨h', ?_, hc', hd⟩
    rw [releaseAll_cons ho, if_pos hs, hr]
  | case4 h id rest o ho hs hbad =>
    have hcount := hc.exact id o ho (Bool.eq_false_iff.2 hs)
    rw [List.cons_append, List.count_cons_self] at hcount
    rcases Bool.or_eq_true_iff.1 hbad with hf | hz
    · have := (hc.freed id o ho hf).1
      omega
    · have : o.refcount = 0 := by simpa using hz
      omega
  | case5 h id rest o ho hs hbad hone ih =>
    have hs' := Bool.eq_false_iff.2 hs
    have hc1 := hc.free ho hs' hone
    change Counts _ (heldBy o ++ (rest ++ base)) at hc1
    rw [← List.append_assoc] at hc1
    obtain ⟨h', hr, hc', hd⟩ := ih hc1
    refine ⟨h', ?_, hc', ?_⟩
    · rw [releaseAll_cons ho, if_neg hs, if_neg hbad, if_pos hone, hr]
    · exact (drops_modify ho rfl rfl).trans hd
  | case6 h id rest o ho hs hbad hone ih =>
    have hs' := Bool.eq_false_iff.2 hs
    have hnot : o.freed = false ∧ o.refcount ≠ 0 := by simpa using hbad
    obtain ⟨h', hr, hc', hd⟩ := ih (hc.modify ho rfl rfl rfl hnot.1
      (by
        intro _
        rw [List.cons_append, List.count_cons_self]
        change o.refcount - 1 + _ = _
        omega)
      fun a ha => (List.count_cons_of_ne (Ne.symm ha)).symm)
    refine ⟨h', ?_, hc', ?_⟩
    · rw [releaseAll_cons ho, if_neg hs, if_neg hbad, if_neg hone, hr]
    · exact (keeps_modify ho rfl rfl rfl).drops.trans hd

/-! ### What stays the same -/

/-- What is live in `h'` was live in `h`, with the same value and the same fields. -/
structure Fades (h h' : Heap) : Prop where
  next : h'.next = h.next
  live : ∀ id o', h'.get? id = some o' → o'.freed = false →
    ∃ o, h.get? id = some o ∧ o.freed = false ∧ o'.value = o.value ∧ o'.fields = o.fields

theorem Fades.refl (h : Heap) : h.Fades h := ⟨rfl, fun _ o ho hf => ⟨o, ho, hf, rfl, rfl⟩⟩

theorem Fades.trans (hf : h.Fades h1) (hf' : h1.Fades h2) : h.Fades h2 where
  next := hf'.next.trans hf.next
  live := by
    intro id o2 ho2 hl2
    obtain ⟨o1, ho1, hl1, hv1, hs1⟩ := hf'.live id o2 ho2 hl2
    obtain ⟨o, ho, hl, hv, hs⟩ := hf.live id o1 ho1 hl1
    exact ⟨o, ho, hl, hv1.trans hv, hs1.trans hs⟩

theorem next_modify (h : Heap) (id : ObjectId) (f : HeapObject → HeapObject) :
    (h.modify id f).next = h.next := by
  unfold next size modify
  rw [Arena.size_modify]

/-- An update that frees an object or keeps what it shows. -/
theorem fades_modify (hf : ∀ o, (f o).freed = false →
      o.freed = false ∧ (f o).value = o.value ∧ (f o).fields = o.fields) :
    h.Fades (h.modify id f) where
  next := next_modify h id f
  live := by
    intro a o' ho' hl'
    rw [get?_modify] at ho'
    split at ho'
    · obtain ⟨o, ho, rfl⟩ := Option.map_eq_some_iff.1 ho'
      obtain ⟨hl, hv, hs⟩ := hf o hl'
      exact ⟨o, ho, hl, hv, hs⟩
    · exact ⟨o', ho', hl', rfl, rfl⟩

theorem fades_retain (h : Heap) (id : ObjectId) : h.Fades (h.retain id).2 := by
  unfold retain updateLive
  split
  · refine fades_modify fun o hl => ?_
    split at hl
    · next hs => exact ⟨hl, by rw [if_pos hs], by rw [if_pos hs]⟩
    · next hs => exact ⟨hl, by rw [if_neg hs], by rw [if_neg hs]⟩
  · exact .refl h

theorem fades_releaseAll (h : Heap) (pending : List ObjectId) :
    h.Fades (h.releaseAll pending).2 := by
  fun_induction releaseAll h pending with
  | case1 | case2 | case4 => exact .refl _
  | case3 _ _ _ _ _ _ ih => exact ih
  | case5 _ _ _ _ _ _ _ _ ih =>
    refine Fades.trans (fades_modify fun o hl => ?_) ih
    cases hl
  | case6 _ _ _ _ _ _ _ _ ih =>
    refine Fades.trans (fades_modify fun o hl => ?_) ih
    exact ⟨hl, rfl, rfl⟩

/-! ### Replacing what a field refers to -/

theorem count_values_erase (hk : fields.keys.Nodup) (f : String) (a : ObjectId) :
    fields.values.count a = (fields.erase f).values.count a + (fields.get? f).toList.count a := by
  obtain ⟨entries⟩ := fields
  unfold FinMap.values FinMap.erase FinMap.get?
  induction entries with
  | nil => rfl
  | cons e rest ih =>
    obtain ⟨name, b⟩ := e
    obtain ⟨hnot, hk⟩ := List.nodup_cons.1 hk
    by_cases hf : name = f
    · subst hf
      simp only [FinMap.find, if_true, List.filter_cons, ne_eq, not_true_eq_false, decide_false,
        Bool.false_eq_true, if_false, List.map_cons, List.count_cons, Option.toList_some,
        List.count_nil]
      rw [FinMap.filter_ne_of_notMem hnot]
      omega
    · have := ih hk
      simp only [List.map_cons, List.filter_cons, ne_eq, hf, not_false_eq_true, decide_true, if_true,
        FinMap.find, if_false, List.count_cons] at this ⊢
      omega

theorem values_insert (hk : fields.keys.Nodup) (f : String) (v : ObjectId) :
    (fields.insert f v).values = v :: (fields.erase f).values := by
  simp [FinMap.insert, FinMap.erase, FinMap.values, FinMap.drop_eq_filter hk]

/-- The heap in which a field refers to nothing. -/
def unlink (h : Heap) (a : ObjectId) (f : String) : Heap :=
  h.modify a fun o => { o with fields := o.fields.erase f }

theorem ext_get? {h' : Heap} (hget : ∀ id, h.get? id = h'.get? id) : h = h' := by
  obtain ⟨⟨l⟩⟩ := h
  obtain ⟨⟨r⟩⟩ := h'
  have : l = r := Array.ext_getElem? fun i => hget ⟨i⟩
  rw [this]

theorem modify_comm (h : Heap) {b : ObjectId} (hfg : a = b → ∀ o, g (f o) = f (g o)) :
    (h.modify a f).modify b g = (h.modify b g).modify a f := by
  refine ext_get? fun id => ?_
  simp only [get?_modify]
  by_cases ha : a = id
  · by_cases hb : b = id
    · rw [if_pos hb, if_pos ha, if_pos ha, if_pos hb, Option.map_map, Option.map_map]
      congr 1
      funext o
      exact hfg (ha.trans hb.symm) o
    · rw [if_neg hb, if_pos ha, if_pos ha, if_neg hb]
  · rw [if_neg ha, if_neg ha]

theorem modify_modify {k : HeapObject → HeapObject} (ho : h.get? a = some o) (hk : g (f o) = k o) :
    (h.modify a f).modify a g = h.modify a k := by
  refine ext_get? fun id => ?_
  simp only [get?_modify]
  by_cases ha : a = id
  · subst ha
    simp [ho, hk]
  · rw [if_neg ha, if_neg ha, if_neg ha]

theorem value_eq_ok_iff {v : Value} :
    h.value id = .ok v ↔ ∃ o, h.get? id = some o ∧ o.freed = false ∧ o.value = v := by
  unfold value live
  cases h.get? id with
  | none => simp [bind, Except.bind]
  | some o => cases hf : o.freed <;> simp [bind, Except.bind, pure, Except.pure, hf]

/-- An object that is given the value it has stays as it is. -/
theorem setValue_self {v : Value} (hv : h.value id = .ok v) : h.setValue id v = (.ok (), h) := by
  obtain ⟨o, ho, hf, rfl⟩ := value_eq_ok_iff.1 hv
  rw [setValue, updateLive_eq ho hf]
  refine congrArg _ (ext_get? fun a => ?_)
  rw [get?_modify]
  split
  · next ha => rw [← ha, ho]; rfl
  · rfl

/-- Dropping references does the same with and without a field of an object that something else
holds, since that object is not freed. -/
theorem releaseAll_unlink {f : String} (hc : (h.unlink a f).Counts (pending ++ base))
    (ha : a ∈ base ∨ h.External a) :
    ∃ h', h.releaseAll pending = (.ok (), h') ∧
      (h.unlink a f).releaseAll pending = (.ok (), h'.unlink a f) := by
  have hget : ∀ (h : Heap) id o, h.get? id = some o → ∃ o', (h.unlink a f).get? id = some o' ∧
      o'.onStack = o.onStack ∧ o'.freed = o.freed ∧ o'.refcount = o.refcount ∧
      o'.external = o.external ∧ (a ≠ id → o' = o) := by
    intro h id o ho
    by_cases hid : a = id
    · subst hid
      exact ⟨_, get?_modify_self ho, rfl, rfl, rfl, rfl, fun h => absurd rfl h⟩
    · exact ⟨o, (get?_modify_ne hid).trans ho, rfl, rfl, rfl, rfl, fun _ => rfl⟩
  induction h, pending using Heap.releaseAll.induct with
  | case1 h => exact ⟨h, by rw [Heap.releaseAll], by rw [Heap.releaseAll]⟩
  | case2 h id rest hnone =>
    have hpos : 0 < (h.unlink a f).fieldRefs id + (id :: rest ++ base).count id := by
      rw [List.cons_append, List.count_cons_self]
      omega
    obtain ⟨o, ho⟩ := hc.known id hpos
    rw [unlink, get?_modify, hnone] at ho
    split at ho <;> cases ho
  | case3 h id rest o ho hs ih =>
    obtain ⟨o', ho', hs', -⟩ := hget h id o ho
    obtain ⟨h', hr, hr'⟩ := ih (hc.of_onStack ho' (hs'.trans hs)) ha
    refine ⟨h', ?_, ?_⟩
    · rw [releaseAll_cons ho, if_pos hs, hr]
    · rw [releaseAll_cons ho', if_pos (hs'.trans hs), hr']
  | case4 h id rest o ho hs hbad =>
    obtain ⟨o', ho', hs', hf', hn', -⟩ := hget h id o ho
    have hcount := hc.exact id o' ho' (hs'.trans (Bool.eq_false_iff.2 hs))
    rw [List.cons_append, List.count_cons_self] at hcount
    rcases Bool.or_eq_true_iff.1 hbad with hf | hz
    · have := (hc.freed id o' ho' (hf'.trans hf)).1
      omega
    · have : o.refcount = 0 := by simpa using hz
      omega
  | case5 h id rest o ho hs hbad hone ih =>
    obtain ⟨o', ho', hs', hf', hn', he', hsame⟩ := hget h id o ho
    have hs0 := Bool.eq_false_iff.2 hs
    have hcount := hc.exact id o' ho' (hs'.trans hs0)
    rw [List.cons_append, List.count_cons_self, List.count_append] at hcount
    -- the holder of the field has a second reference
    have hne : a ≠ id := by
      rintro rfl
      rcases ha with ha | ⟨o1, ho1, he⟩
      · have := List.count_pos_iff.2 ha
        omega
      · rw [ho] at ho1
        cases ho1
        rw [he', he, if_pos rfl] at hcount
        omega
    obtain rfl := hsame hne
    have hcomm := modify_comm h (a := id) (b := a)
      (f := fun o => { o with refcount := 0, freed := true, fields := .empty })
      (g := fun o => { o with fields := o.fields.erase f }) fun h => absurd h.symm hne
    have hc1 := hc.free ho' hs0 hone
    rw [unlink, ← hcomm] at hc1
    change Counts _ (heldBy o' ++ (rest ++ base)) at hc1
    rw [← List.append_assoc] at hc1
    obtain ⟨h', hr, hr'⟩ := ih hc1 (ha.imp_right fun he => external_modify ho rfl he)
    refine ⟨h', ?_, ?_⟩
    · rw [releaseAll_cons ho, if_neg hs, if_neg hbad, if_pos hone, hr]
    · rw [releaseAll_cons ho', if_neg hs, if_neg hbad, if_pos hone, unlink, ← hcomm]
      exact hr'
  | case6 h id rest o ho hs hbad hone ih =>
    obtain ⟨o', ho', hs', hf', hn', he', -⟩ := hget h id o ho
    have hs0 := Bool.eq_false_iff.2 hs
    have hnot : o.freed = false ∧ o.refcount ≠ 0 := by simpa using hbad
    have hcomm := modify_comm h (a := id) (b := a) (f := fun o => { o with refcount := o.refcount - 1 })
      (g := fun o => { o with fields := o.fields.erase f }) fun _ _ => rfl
    have hc1 : ((h.unlink a f).modify id fun o => { o with refcount := o.refcount - 1 }).Counts
        (rest ++ base) := by
      refine hc.modify ho' rfl rfl rfl (hf'.trans hnot.1) ?_
        fun b hb => (List.count_cons_of_ne (Ne.symm hb)).symm
      intro _
      rw [List.cons_append, List.count_cons_self]
      change o'.refcount - 1 + _ = _
      omega
    rw [unlink, ← hcomm] at hc1
    obtain ⟨h', hr, hr'⟩ := ih hc1 (ha.imp_right fun he => external_modify ho rfl he)
    refine ⟨h', ?_, ?_⟩
    · rw [releaseAll_cons ho, if_neg hs, if_neg hbad, if_neg hone, hr]
    · rw [releaseAll_cons ho', if_neg (by rwa [hs']), if_neg (by rwa [hf', hn']), if_neg (by rwa [hn']),
        unlink, ← hcomm]
      exact hr'

/-- Counts follow the references of one object, whatever its fields become. -/
theorem Counts.refield {base' : List ObjectId} (hc : h.Counts base) (ho : h.get? a = some o)
    (hf : o.freed = false) (hg : g o = { o with fields }) (hk : fields.keys.Nodup)
    (hcount : ∀ b, fields.values.count b + base'.count b = o.fields.values.count b + base.count b) :
    (h.modify a g).Counts base' := by
  have hself : (h.modify a g).get? a = some { o with fields } := hg ▸ get?_modify_self ho
  have hrefs : ∀ b, (h.modify a g).fieldRefs b + base'.count b = h.fieldRefs b + base.count b := by
    intro b
    have hmod := fieldRefs_modify ho g b
    have := hcount b
    rw [hg] at hmod
    change _ + o.fields.values.count b = h.fieldRefs b + fields.values.count b at hmod
    omega
  refine ⟨?_, ?_, ?_, ?_⟩
  · intro b o' ho' hs
    rw [hrefs]
    by_cases hb : a = b
    · subst hb
      rw [hself] at ho'
      cases ho'
      exact hc.exact a o ho hs
    · rw [get?_modify_ne hb] at ho'
      exact hc.exact b o' ho' hs
  · intro b hpos
    rw [hrefs] at hpos
    obtain ⟨o', ho'⟩ := hc.known b hpos
    rw [get?_modify, ho']
    split <;> exact ⟨_, rfl⟩
  · intro b o' ho' hf'
    by_cases hb : a = b
    · subst hb
      rw [hself] at ho'
      cases ho'
      rw [show o.freed = true from hf'] at hf
      cases hf
    · rw [get?_modify_ne hb] at ho'
      exact hc.freed b o' ho' hf'
  · intro b o' ho'
    by_cases hb : a = b
    · subst hb
      rw [hself] at ho'
      cases ho'
      exact hk
    · rw [get?_modify_ne hb] at ho'
      exact hc.keyed b o' ho'

/-- A field is made to refer to something else: the old reference is dropped while it still stands in
the field. -/
theorem Counts.relink {f : String} {v : Option ObjectId} (hc : h.Counts (v.toList ++ base))
    (ho : h.get? a = some o) (ha : a ∈ base ∨ h.External a) :
    ∃ h', h.releaseAll (o.fields.get? f).toList = (.ok (), h') ∧
      ∃ h'', h'.setField a f v = (.ok (), h'') ∧ h''.Counts base ∧
        ∀ id, h.External id → h''.External id := by
  have hk := hc.keyed a o ho
  have hfreed : o.freed = false := by
    have halive : h.Alive a := by
      rcases ha with ha | ha
      · exact hc.alive_of_mem (List.mem_append_right _ ha)
      · exact hc.alive_of_external ha
    obtain ⟨o', ho', hf⟩ := halive
    rw [ho] at ho'
    cases ho'
    exact hf
  have hc1 : (h.unlink a f).Counts ((o.fields.get? f).toList ++ (v.toList ++ base)) := by
    refine hc.refield ho hfreed rfl (FinMap.nodup_keys_erase hk f) fun b => ?_
    rw [List.count_append, count_values_erase hk f b]
    omega
  obtain ⟨h', hr, hr'⟩ := releaseAll_unlink hc1 (ha.imp_left (List.mem_append_right _))
  obtain ⟨_, hr2, hc2, hd⟩ := hc1.releaseAll
  rw [hr'] at hr2
  cases hr2
  -- the holder is still there, with the fields it had
  have hheld : (h'.unlink a f).Alive a := by
    rcases ha with ha | ha
    · exact hc2.alive_of_mem (List.mem_append_right _ ha)
    · exact hc2.alive_of_external (hd.external a (external_modify ho rfl ha))
  obtain ⟨o1, ho1, hf1⟩ := hheld
  have hcell : ∃ o', h'.get? a = some o' ∧ o1 = { o' with fields := o'.fields.erase f } := by
    rw [unlink, get?_modify, if_pos rfl] at ho1
    obtain ⟨o', ho', he⟩ := Option.map_eq_some_iff.1 ho1
    exact ⟨o', ho', he.symm⟩
  obtain ⟨o', ho', rfl⟩ := hcell
  have hfields : o'.fields = o.fields := by
    have hfades := fades_releaseAll h (o.fields.get? f).toList
    rw [hr] at hfades
    obtain ⟨o2, ho2, -, -, he⟩ := hfades.live a o' ho' hf1
    rw [ho] at ho2
    cases ho2
    exact he
  refine ⟨h', hr, _, updateLive_eq ho' hf1 _, ?_, fun id he => ?_⟩
  · cases v with
    | none => exact hc2
    | some v =>
      change (h'.modify a fun o => { o with fields := o.fields.insert f v }).Counts base
      rw [← modify_modify (f := fun o => { o with fields := o.fields.erase f })
        (g := fun o => { o with fields := o'.fields.insert f v }) ho' rfl]
      refine hc2.refield ho1 hf1 rfl (hfields ▸ FinMap.nodup_keys_insert hk f v) fun b => ?_
      rw [values_insert (hfields ▸ hk)]
      simp only [List.count_cons, Option.toList_some, List.singleton_append]
      omega
  · have hext : h'.External id := by
      obtain ⟨o2, ho2, he2⟩ := hd.external id (external_modify ho rfl he)
      rw [unlink, get?_modify] at ho2
      split at ho2
      · obtain ⟨o3, ho3, rfl⟩ := Option.map_eq_some_iff.1 ho2
        exact ⟨o3, ho3, he2⟩
      · exact ⟨o2, ho2, he2⟩
    exact external_modify ho' rfl hext


/-- A heap counted exactly, where no field refers to anything, leaks nothing: what is left belongs to
the caller. -/
theorem Counts.leaks_eq_nil {returned : Option ObjectId} (hc : h.Counts returned.toList)
    (hflat : ∀ id, h.fieldRefs id = 0) : h.leaks returned = [] := by
  unfold leaks
  rw [List.filterMap_eq_nil_iff]
  rintro ⟨o, i⟩ hmem
  have ho : h.get? ⟨i⟩ = some o := by
    rw [List.mem_zipIdx_iff_getElem?] at hmem
    simpa [get?, Arena.get?, Arena.toList] using hmem
  dsimp only
  rw [if_neg]
  intro hleak
  simp only [Bool.and_eq_true, Bool.not_eq_true', decide_eq_true_eq] at hleak
  have hcount := hc.exact ⟨i⟩ o ho hleak.1.1
  have howed := hleak.2
  rw [hcount, hflat, owed] at howed
  have : returned.toList.count ⟨i⟩ = if returned = some ⟨i⟩ then 1 else 0 := by
    cases returned with
    | none => rfl
    | some r => simp [List.count_singleton]
  omega

end ScopedIR.Heap
