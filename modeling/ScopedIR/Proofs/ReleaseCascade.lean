import ScopedIR.Proofs.CountedHeap

/-!
# Releasing through a graph of objects

Dropping a reference may free its object, which drops what the fields of the object refer to, and so
on. The graph of objects may have circles, objects that refer to themselves and holders on the stack.

Whatever the heap, the loop ends: a round takes a reference out of the list, and what it adds to the
list it takes out of a field. If counts cover at least the fields that refer to an object, no reference
is dropped that is not counted. A reference that was taken out of a field and waits in the list is
still counted, so the invariant of the loop counts the list along with the fields.

Main definitions:

* `Heap.releaseWithin`: the loop with a bound on its rounds;
* `Heap.liveRefs`: the fields of objects that are not freed that refer to an object;
* `Heap.Covered` and `Heap.Linked`: counts cover these fields, and the fields refer to live objects;
* `Heap.Owes`: the same with the references that wait in a list, the invariant of the loop;
* `Heap.Fate`: what dropping references makes of an object.

Main statement: `release_cascades`.
-/

namespace ScopedIR

namespace Heap

variable {h h' : Heap} {id a : ObjectId} {o o' : HeapObject} {pending rest : List ObjectId}

/-! ### The rounds of the loop -/

/-- Drop a reference to each object of the list in turn, as `releaseAll` does it, in a number of
rounds; nothing is answered if they do not suffice. -/
def releaseWithin : Nat → Heap → List ObjectId → Option Update
  | _, h, [] => some (.ok (), h)
  | 0, _, _ :: _ => none
  | n + 1, h, id :: rest =>
    match h.get? id with
    | none => some (.error (.useAfterFree id), h)
    | some o =>
      if o.onStack then releaseWithin n h rest
      else if o.freed || o.refcount = 0 then some (.error (.doubleRelease id), h)
      else if o.refcount = 1 then
        releaseWithin n
          (h.modify id fun o => { o with refcount := 0, freed := true, fields := .empty })
          (heldBy o ++ rest)
      else releaseWithin n (h.modify id fun o => { o with refcount := o.refcount - 1 }) rest

/-- There are no more rounds than references in fields and in the list. -/
theorem releaseWithin_eq {n : Nat} (hn : h.fieldCount + pending.length ≤ n) :
    releaseWithin n h pending = some (h.releaseAll pending) := by
  induction h, pending using Heap.releaseAll.induct generalizing n with
  | case1 h => rw [releaseWithin, releaseAll]
  | case2 h id rest hnone =>
    cases n with
    | zero => simp at hn
    | succ n => rw [releaseWithin, releaseAll, hnone]
  | case3 h id rest o ho hs ih =>
    cases n with
    | zero => simp at hn
    | succ n =>
      have hle : h.fieldCount + rest.length ≤ n := by
        rw [List.length_cons] at hn
        omega
      rw [releaseAll_cons ho, if_pos hs, ← ih hle, releaseWithin, ho]
      exact if_pos hs
  | case4 h id rest o ho hs hbad =>
    cases n with
    | zero => simp at hn
    | succ n =>
      rw [releaseAll_cons ho, if_neg hs, if_pos hbad, releaseWithin, ho]
      exact (if_neg hs).trans (if_pos hbad)
  | case5 h id rest o ho hs hbad hone ih =>
    cases n with
    | zero => simp at hn
    | succ n =>
      have hcount := fieldCount_modify ho
        (fun o => { o with refcount := 0, freed := true, fields := .empty })
      have hle : (h.modify id fun o =>
          { o with refcount := 0, freed := true, fields := .empty }).fieldCount +
          (heldBy o ++ rest).length ≤ n := by
        rw [List.length_append, length_heldBy]
        rw [List.length_cons] at hn
        change _ = h.fieldCount + 0 at hcount
        omega
      rw [releaseAll_cons ho, if_neg hs, if_neg hbad, if_pos hone, ← ih hle, releaseWithin, ho]
      exact (if_neg hs).trans ((if_neg hbad).trans (if_pos hone))
  | case6 h id rest o ho hs hbad hone ih =>
    cases n with
    | zero => simp at hn
    | succ n =>
      have hcount := fieldCount_modify ho (fun o => { o with refcount := o.refcount - 1 })
      have hle : (h.modify id fun o => { o with refcount := o.refcount - 1 }).fieldCount +
          rest.length ≤ n := by
        rw [List.length_cons] at hn
        change _ + o.fields.size = h.fieldCount + o.fields.size at hcount
        omega
      rw [releaseAll_cons ho, if_neg hs, if_neg hbad, if_neg hone, ← ih hle, releaseWithin, ho]
      exact (if_neg hs).trans ((if_neg hbad).trans (if_neg hone))

/-! ### References of objects that are not freed -/

-- Sums of numbers start at the numeral, whatever other zero is in scope.
attribute [local instance (high)] Zero.ofOfNat0

/-- What an object that is not freed refers to, once per field. -/
def liveFields (o : HeapObject) : List ObjectId := if o.freed then [] else o.fields.values

/-- The number of fields of objects that are not freed that refer to an object. -/
def liveRefs (h : Heap) (id : ObjectId) : Nat :=
  (h.objects.toList.map fun o => (liveFields o).count id).sum

/-- The count of every live counted object covers the fields that refer to it. -/
def Covered (h : Heap) : Prop :=
  ∀ id o, h.get? id = some o → o.onStack = false → o.freed = false → h.liveRefs id ≤ o.refcount

/-- The fields of objects that are not freed refer to live objects. -/
def Linked (h : Heap) : Prop :=
  ∀ id o, h.get? id = some o → o.freed = false → ∀ t ∈ o.fields.values, h.Alive t

theorem liveRefs_modify (ho : h.get? id = some o) (f : HeapObject → HeapObject) (a : ObjectId) :
    (h.modify id f).liveRefs a + (liveFields o).count a =
      h.liveRefs a + (liveFields (f o)).count a := by
  have hl : h.objects.toList[id.index]? = some o := by
    simpa [get?, Arena.get?, Arena.toList] using ho
  have := sum_map_modify (fun o => (liveFields o).count a) f o h.objects.toList id.index hl
  simpa [liveRefs, modify, Arena.modify, Arena.toList, Array.toList_modify] using this

/-- Dropping one of several references leaves the fields as they are. -/
theorem liveRefs_drop (ho : h.get? id = some o) (a : ObjectId) :
    (h.modify id fun o => { o with refcount := o.refcount - 1 }).liveRefs a = h.liveRefs a := by
  have hrefs := liveRefs_modify ho (fun o => { o with refcount := o.refcount - 1 }) a
  change _ = h.liveRefs a + (liveFields o).count a at hrefs
  omega

/-- What the fields of an object refer to goes from the fields to the list when it is freed. -/
theorem liveRefs_free (ho : h.get? id = some o) (hf : o.freed = false) (rest : List ObjectId)
    (a : ObjectId) :
    (h.modify id fun o => { o with refcount := 0, freed := true, fields := .empty }).liveRefs a +
      (heldBy o ++ rest).count a = h.liveRefs a + rest.count a := by
  have hrefs := liveRefs_modify ho
    (fun o => { o with refcount := 0, freed := true, fields := .empty }) a
  change _ + (liveFields o).count a = h.liveRefs a + 0 at hrefs
  rw [liveFields, hf, if_neg Bool.false_ne_true] at hrefs
  rw [List.count_append, count_heldBy]
  omega

theorem liveRefs_pos_iff :
    0 < h.liveRefs a ↔ ∃ id o, h.get? id = some o ∧ o.freed = false ∧ a ∈ o.fields.values := by
  unfold liveRefs
  rw [List.sum_pos_iff_exists_pos_nat]
  constructor
  · rintro ⟨n, hn, hpos⟩
    obtain ⟨o, ho, rfl⟩ := List.mem_map.1 hn
    obtain ⟨i, hi⟩ := List.mem_iff_getElem?.1 ho
    have hget : h.get? ⟨i⟩ = some o := by simpa [get?, Arena.get?, Arena.toList] using hi
    have hmem : a ∈ liveFields o := List.count_pos_iff.1 hpos
    unfold liveFields at hmem
    cases hf : o.freed with
    | true => simp [hf] at hmem
    | false => exact ⟨⟨i⟩, o, hget, hf, by simpa [hf] using hmem⟩
  · rintro ⟨id, o, ho, hf, hmem⟩
    have hl : h.objects.toList[id.index]? = some o := by
      simpa [get?, Arena.get?, Arena.toList] using ho
    refine ⟨_, List.mem_map.2 ⟨o, List.mem_of_getElem? hl, rfl⟩, List.count_pos_iff.2 ?_⟩
    simpa [liveFields, hf] using hmem

/-! ### The invariant of the loop -/

/-- Counts cover the fields that refer to an object and the references to it that wait to be dropped,
and all of these refer to live objects. -/
structure Owes (h : Heap) (pending : List ObjectId) : Prop where
  covered : ∀ id o, h.get? id = some o → o.onStack = false → o.freed = false →
    h.liveRefs id + pending.count id ≤ o.refcount
  linked : ∀ id, 0 < h.liveRefs id + pending.count id → h.Alive id

namespace Owes

theorem nil_iff : h.Owes [] ↔ h.Covered ∧ h.Linked := by
  constructor
  · intro ho
    refine ⟨ho.covered, fun id o hget hf t ht => ho.linked t ?_⟩
    exact Nat.lt_of_lt_of_le (liveRefs_pos_iff.2 ⟨id, o, hget, hf, ht⟩) (Nat.le_add_right _ _)
  · rintro ⟨hcovered, hlinked⟩
    refine ⟨hcovered, fun a ha => ?_⟩
    obtain ⟨id, o, ho, hf, hmem⟩ := liveRefs_pos_iff.1 (show 0 < h.liveRefs a from ha)
    exact hlinked id o ho hf a hmem

/-- A reference that no field accounts for may be dropped. -/
theorem singleton (hcovered : h.Covered) (hlinked : h.Linked) (ho : h.get? id = some o)
    (hf : o.freed = false) (hlt : h.liveRefs id < o.refcount) : h.Owes [id] where
  covered := by
    intro a b hb hs hfb
    by_cases ha : id = a
    · subst ha
      rw [ho] at hb
      cases hb
      rw [List.count_singleton_self]
      omega
    · have := hcovered a b hb hs hfb
      rw [List.count_cons_of_ne ha, List.count_nil]
      omega
  linked := by
    intro a hpos
    by_cases ha : id = a
    · exact ⟨o, ha ▸ ho, hf⟩
    · rw [List.count_cons_of_ne ha] at hpos
      exact (nil_iff.2 ⟨hcovered, hlinked⟩).linked a hpos

theorem alive_head (hw : h.Owes (id :: rest)) : h.Alive id := by
  apply hw.linked
  rw [List.count_cons_self]
  omega

/-- Objects on the stack are passed over. -/
theorem tail (hw : h.Owes (id :: rest)) : h.Owes rest where
  covered := by
    intro a b hb hs hf
    have := hw.covered a b hb hs hf
    have : rest.count a ≤ (id :: rest).count a := (List.sublist_cons_self id rest).count_le a
    omega
  linked := by
    intro a hpos
    apply hw.linked
    have : rest.count a ≤ (id :: rest).count a := (List.sublist_cons_self id rest).count_le a
    omega

/-- One of several references is dropped. -/
theorem drop (hw : h.Owes (id :: rest)) (ho : h.get? id = some o) (hs : o.onStack = false) :
    (h.modify id fun o => { o with refcount := o.refcount - 1 }).Owes rest := by
  constructor
  · intro a b hb hsb hfb
    rw [liveRefs_drop ho]
    by_cases ha : id = a
    · subst ha
      rw [get?_modify_self ho] at hb
      cases hb
      have := hw.covered id o ho hs hfb
      rw [List.count_cons_self] at this
      change _ ≤ o.refcount - 1
      omega
    · rw [get?_modify_ne ha] at hb
      have := hw.covered a b hb hsb hfb
      rwa [List.count_cons_of_ne ha] at this
  · intro a hpos
    rw [liveRefs_drop ho] at hpos
    exact (keeps_modify ho rfl rfl rfl).alive a (hw.tail.linked a hpos)

/-- The last reference is dropped: what the fields of the object refer to waits in their place. No
other reference to the object is left, neither in a field nor in the list. -/
theorem free (hw : h.Owes (id :: rest)) (ho : h.get? id = some o) (hs : o.onStack = false)
    (hf : o.freed = false) (hone : o.refcount = 1) :
    (h.modify id fun o => { o with refcount := 0, freed := true, fields := .empty }).Owes
      (heldBy o ++ rest) := by
  have hlast := hw.covered id o ho hs hf
  rw [List.count_cons_self, hone] at hlast
  constructor
  · intro a b hb hsb hfb
    rw [liveRefs_free ho hf]
    by_cases ha : id = a
    · subst ha
      rw [get?_modify_self ho] at hb
      cases hb
      cases hfb
    · rw [get?_modify_ne ha] at hb
      have := hw.covered a b hb hsb hfb
      rwa [List.count_cons_of_ne ha] at this
  · intro a hpos
    rw [liveRefs_free ho hf] at hpos
    have hne : id ≠ a := by
      rintro rfl
      omega
    obtain ⟨b, hb, hfb⟩ := hw.tail.linked a hpos
    exact ⟨b, by rw [get?_modify_ne hne, hb], hfb⟩

end Owes

/-! ### What becomes of objects -/

/-- What dropping references makes of an object: it keeps all but its count, which is not brought to
zero, or it is freed. -/
inductive Fate (o : HeapObject) : HeapObject → Prop
  | kept {n : Nat} (hle : n ≤ o.refcount) (hzero : n = 0 → o.refcount = 0)
      (hstack : o.onStack = true → n = o.refcount) : Fate o { o with refcount := n }
  | freed (hstack : o.onStack = false) (hlive : o.freed = false) (hpos : 0 < o.refcount) :
      Fate o { o with refcount := 0, freed := true, fields := .empty }

theorem Fate.refl (o : HeapObject) : Fate o o := .kept (Nat.le_refl _) (fun h => h) fun _ => rfl

theorem Fate.trans {o1 o2 : HeapObject} (h1 : Fate o o1) (h2 : Fate o1 o2) : Fate o o2 := by
  cases h1 with
  | @kept n hle hzero hstack =>
    cases h2 with
    | @kept m hle' hzero' hstack' =>
      exact .kept (Nat.le_trans hle' hle) (fun hm => hzero (hzero' hm))
        fun hs => (hstack' hs).trans (hstack hs)
    | freed hs hl hpos => exact .freed hs hl (Nat.lt_of_lt_of_le hpos hle)
  | freed hs hl hpos =>
    cases h2 with
    | @kept m hle' _ _ =>
      obtain rfl : m = 0 := Nat.le_zero.1 hle'
      exact .freed hs hl hpos
    | freed _ hl' _ => cases hl'

/-- An object that loses a number of references: its count drops by that number, unless it is on the
stack, where nothing of it changes. It is freed exactly if its count is brought to zero, and then its
fields are emptied; otherwise it keeps all but its count. -/
structure Loses (o : HeapObject) (n : Nat) (o' : HeapObject) : Prop where
  stack : o.onStack = true → o' = o
  counted : o.onStack = false → o.refcount = o'.refcount + n
  freed_iff : (o.freed = false ∧ o'.freed = true) ↔ (0 < o.refcount ∧ o'.refcount = 0)
  emptied : o.freed = false → o'.freed = true →
    o' = { o with refcount := 0, freed := true, fields := .empty }
  kept : o'.freed = o.freed → o' = { o with refcount := o'.refcount }

theorem Fate.loses {n : Nat} (hfate : Fate o o')
    (hcount : o.onStack = false → o.refcount = o'.refcount + n) : Loses o n o' := by
  cases hfate with
  | @kept m _ hzero hstack =>
    refine ⟨fun hs => by rw [hstack hs], hcount, ?_, fun hf hf' => ?_, fun _ => rfl⟩
    · constructor
      · rintro ⟨hf, hf'⟩
        rw [hf] at hf'
        cases hf'
      · rintro ⟨hpos, hm⟩
        have := hzero hm
        omega
    · rw [hf] at hf'
      cases hf'
  | freed hs hl hpos =>
    refine ⟨fun hs' => ?_, hcount, by simp [hl, hpos], fun _ _ => rfl, fun hf => ?_⟩
    · rw [hs] at hs'
      cases hs'
    · rw [hl] at hf
      cases hf

/-- The fields of an object are those it keeps and those it loses when it is freed. -/
theorem Fate.count_liveFields (hfate : Fate o o') (a : ObjectId) :
    (liveFields o).count a = (liveFields o').count a +
      if !o.freed && o'.freed then o.fields.values.count a else 0 := by
  cases hfate with
  | kept => cases hf : o.freed <;> simp [liveFields, hf]
  | freed hs hl hpos => simp [liveFields, hl]

/-- The number of references to an object in the fields of objects that are freed from one heap to the
other. -/
def freedRefs (h h' : Heap) (a : ObjectId) : Nat :=
  (h.objects.toList.zipWith
    (fun o o' => if !o.freed && o'.freed then o.fields.values.count a else 0) h'.objects.toList).sum

theorem sum_zipWith {α : Type} {f : α → Nat} {k : α → α → Nat} : ∀ {l l' : List α},
    l'.length = l.length → (∀ (i : Nat) a b, l[i]? = some a → l'[i]? = some b → f a = f b + k a b) →
      (l.map f).sum = (l'.map f).sum + (l.zipWith k l').sum
  | [], [], _, _ => rfl
  | a :: l, b :: l', hlength, hpoint => by
    have hrest := sum_zipWith (Nat.succ.inj hlength) fun i c d hc hd => hpoint (i + 1) c d hc hd
    have hhead := hpoint 0 a b rfl rfl
    simp only [List.map_cons, List.sum_cons, List.zipWith_cons_cons]
    omega

/-- The fields that are lost are those of the objects that are freed. -/
theorem liveRefs_eq_add (hsize : h'.size = h.size)
    (hfate : ∀ a o o', h.get? a = some o → h'.get? a = some o' → Fate o o') (a : ObjectId) :
    h.liveRefs a = h'.liveRefs a + h.freedRefs h' a := by
  unfold liveRefs freedRefs
  apply sum_zipWith
  · simpa [size, Arena.size, Arena.toList] using hsize
  · intro i o o' ho ho'
    refine (hfate ⟨i⟩ o o' ?_ ?_).count_liveFields a
    · simpa [get?, Arena.get?, Arena.toList] using ho
    · simpa [get?, Arena.get?, Arena.toList] using ho'

/-! ### Runs of the loop -/

/-- What dropping the references of a list does to a heap. The count of an object drops by the fields
that no longer refer to it and by its entries in the list. -/
structure Drained (h : Heap) (pending : List ObjectId) (h' : Heap) : Prop where
  size : h'.size = h.size
  objects : ∀ a o, h.get? a = some o → ∃ o', h'.get? a = some o' ∧ Fate o o' ∧
    (o.onStack = false → o.refcount + h'.liveRefs a = o'.refcount + h.liveRefs a + pending.count a)

/-- An update of one object, followed by dropping what is left in the list. -/
theorem Drained.of_modify {f : HeapObject → HeapObject} (ho : h.get? id = some o)
    (hfate : Fate o (f o)) (hrefs : ∀ a, (h.modify id f).liveRefs a + pending.count a =
      h.liveRefs a + rest.count a) (hcount : o.refcount = (f o).refcount + 1)
    (hstack : (f o).onStack = o.onStack) (hd : (h.modify id f).Drained pending h') :
    h.Drained (id :: rest) h' where
  size := hd.size.trans (congrArg ObjectId.index (next_modify h id f))
  objects := by
    intro a b hb
    have hother := hrefs a
    by_cases ha : id = a
    · subst ha
      rw [ho] at hb
      cases hb
      obtain ⟨b', hb', hfate', hcount'⟩ := hd.objects id (f o) (get?_modify_self ho)
      refine ⟨b', hb', hfate.trans hfate', fun hs => ?_⟩
      have := hcount' (hstack.trans hs)
      rw [List.count_cons_self]
      omega
    · obtain ⟨b', hb', hfate', hcount'⟩ := hd.objects a b ((get?_modify_ne ha).trans hb)
      refine ⟨b', hb', hfate', fun hs => ?_⟩
      have := hcount' hs
      rw [List.count_cons_of_ne ha]
      omega

/-- References that are owed can all be dropped. -/
theorem Owes.releaseAll (hw : h.Owes pending) :
    ∃ h', h.releaseAll pending = (.ok (), h') ∧ h'.Owes [] ∧ h.Drained pending h' := by
  induction h, pending using Heap.releaseAll.induct with
  | case1 h =>
    rw [Heap.releaseAll]
    exact ⟨h, rfl, hw, rfl, fun a o ho => ⟨o, ho, .refl o, fun _ => rfl⟩⟩
  | case2 h id rest hnone =>
    obtain ⟨o, ho, -⟩ := hw.alive_head
    rw [hnone] at ho
    cases ho
  | case3 h id rest o ho hs ih =>
    obtain ⟨h', hr, hw', hd⟩ := ih hw.tail
    rw [releaseAll_cons ho, if_pos hs]
    refine ⟨h', hr, hw', hd.size, fun a b hb => ?_⟩
    obtain ⟨b', hb', hfate, hcount⟩ := hd.objects a b hb
    refine ⟨b', hb', hfate, fun hsb => ?_⟩
    have hne : id ≠ a := by
      rintro rfl
      rw [ho] at hb
      cases hb
      rw [hs] at hsb
      cases hsb
    rw [List.count_cons_of_ne hne]
    exact hcount hsb
  | case4 h id rest o ho hs hbad =>
    -- what waits to be dropped is live and counted
    obtain ⟨b, hb, hf⟩ := hw.alive_head
    rw [ho] at hb
    cases hb
    have hcovered := hw.covered id o ho (Bool.eq_false_iff.2 hs) hf
    rw [List.count_cons_self] at hcovered
    have hzero : o.refcount = 0 := by simpa [hf] using hbad
    omega
  | case5 h id rest o ho hs hbad hone ih =>
    have hs' := Bool.eq_false_iff.2 hs
    have hf : o.freed = false := by
      have hnot : o.freed = false ∧ o.refcount ≠ 0 := by simpa using hbad
      exact hnot.1
    obtain ⟨h', hr, hw', hd⟩ := ih (hw.free ho hs' hf hone)
    rw [releaseAll_cons ho, if_neg hs, if_neg hbad, if_pos hone]
    exact ⟨h', hr, hw',
      hd.of_modify ho (.freed hs' hf (by omega)) (liveRefs_free ho hf rest) hone rfl⟩
  | case6 h id rest o ho hs hbad hone ih =>
    have hs' := Bool.eq_false_iff.2 hs
    have hnot : o.freed = false ∧ o.refcount ≠ 0 := by simpa using hbad
    obtain ⟨h', hr, hw', hd⟩ := ih (hw.drop ho hs')
    rw [releaseAll_cons ho, if_neg hs, if_neg hbad, if_neg hone]
    refine ⟨h', hr, hw', hd.of_modify ho ?_ (fun a => ?_) ?_ rfl⟩
    · refine .kept (Nat.sub_le _ _) (fun hzero => ?_) fun hstack => ?_
      · omega
      · rw [hs'] at hstack
        cases hstack
    · rw [liveRefs_drop ho]
    · change o.refcount = o.refcount - 1 + 1
      omega

/-- What is left of an object after the references of a list are dropped. -/
theorem Drained.loses (hd : h.Drained pending h') (ho : h.get? a = some o) :
    ∃ o', h'.get? a = some o' ∧ Loses o (pending.count a + h.freedRefs h' a) o' := by
  have hfates : ∀ b p p', h.get? b = some p → h'.get? b = some p' → Fate p p' := by
    intro b p p' hp hp'
    obtain ⟨q, hq, hfate, -⟩ := hd.objects b p hp
    rw [hp'] at hq
    cases hq
    exact hfate
  obtain ⟨o', ho', hfate, hcount⟩ := hd.objects a o ho
  refine ⟨o', ho', hfate.loses fun hs => ?_⟩
  have hrefs := liveRefs_eq_add hd.size hfates a
  have hdrop := hcount hs
  omega

end Heap

open Heap

/-- On every heap, dropping a reference ends within as many rounds as there are fields, and one. If
counts cover the fields that refer to an object, these fields refer to live objects, and the count of a
live object is larger than the number of fields that refer to it, then a reference to it can be
dropped. Afterwards counts cover fields, and fields refer to live objects. Every count drops by the
references that disappear: the one that is dropped, and the fields of the objects that are freed. -/
theorem release_cascades (h : Heap) (id : ObjectId) :
    releaseWithin (h.fieldCount + 1) h [id] = some (h.release id) ∧
    ∀ o, h.Covered → h.Linked → h.get? id = some o → o.freed = false → h.liveRefs id < o.refcount →
      ∃ h', h.release id = (.ok (), h') ∧ h'.Covered ∧ h'.Linked ∧ h'.size = h.size ∧
        ∀ a b, h.get? a = some b → ∃ b', h'.get? a = some b' ∧
          Loses b ((if a = id then 1 else 0) + h.freedRefs h' a) b' := by
  constructor
  · exact releaseWithin_eq (Nat.le_refl _)
  · intro o hcovered hlinked ho hf hlt
    obtain ⟨h', hr, hw, hd⟩ := (Owes.singleton hcovered hlinked ho hf hlt).releaseAll
    obtain ⟨hcovered', hlinked'⟩ := Owes.nil_iff.1 hw
    refine ⟨h', hr, hcovered', hlinked', hd.size, fun a b hb => ?_⟩
    have hone : [id].count a = if a = id then 1 else 0 := by
      by_cases ha : a = id
      · rw [ha, List.count_singleton_self, if_pos rfl]
      · rw [List.count_cons_of_ne (Ne.symm ha), List.count_nil, if_neg ha]
    rw [← hone]
    exact hd.loses hb

/-- An object that holds a chain of objects and one on the stack. The last of the chain refers to
itself, and the object on the stack to it. -/
def tangled : Heap where
  objects := ⟨#[
    { value := .integer 0, refcount := 1,
      fields := (FinMap.empty.insert "next" ⟨1⟩).insert "side" ⟨3⟩ },
    { value := .integer 1, refcount := 1, fields := FinMap.empty.insert "next" ⟨2⟩ },
    { value := .integer 2, refcount := 3, fields := FinMap.empty.insert "self" ⟨2⟩ },
    { value := .integer 3, onStack := true, fields := FinMap.empty.insert "next" ⟨2⟩ }]⟩

/-- Dropping the only reference to the first object frees the second with it. The third keeps its
reference to itself and that of the object on the stack. -/
theorem release_cascades_tangled : tangled.Covered ∧ tangled.Linked ∧
    ∃ h', tangled.release ⟨0⟩ = (.ok (), h') ∧ h'.Covered ∧ h'.Linked ∧
      h'.objects.toList.map (fun o => (o.freed, o.refcount, o.fields.size)) =
        [(true, 0, 0), (true, 0, 0), (false, 2, 1), (false, 0, 1)] := by
  have hcovered : tangled.Covered := by
    rintro ⟨_ | _ | _ | _ | i⟩ o ho hs hf <;> cases ho
    · decide
    · decide
    · decide
    · cases hs
  have hlinked : tangled.Linked := by
    rintro ⟨_ | _ | _ | _ | i⟩ o ho hf t ht <;> cases ho
    · have : t ∈ [⟨3⟩, ⟨1⟩] := ht
      obtain rfl | rfl : t = ⟨3⟩ ∨ t = ⟨1⟩ := by simpa using this
      · exact ⟨_, rfl, rfl⟩
      · exact ⟨_, rfl, rfl⟩
    all_goals
      obtain rfl : t = ⟨2⟩ := List.mem_singleton.1 ht
      exact ⟨_, rfl, rfl⟩
  obtain ⟨hrounds, hrelease⟩ := release_cascades tangled ⟨0⟩
  obtain ⟨h', hr, hcovered', hlinked', -, -⟩ :=
    hrelease _ hcovered hlinked rfl rfl (by decide)
  refine ⟨hcovered, hlinked, h', hr, hcovered', hlinked', ?_⟩
  rw [hr] at hrounds
  have hfirst : heldBy tangled.objects.slots[0] = [⟨1⟩, ⟨3⟩] := by
    simp [heldBy, tangled, FinMap.values, FinMap.insert, FinMap.empty, FinMap.drop, List.mergeSort]
  have hsecond : heldBy tangled.objects.slots[1] = [⟨2⟩] := by
    simp [heldBy, tangled, FinMap.values, FinMap.insert, FinMap.empty, FinMap.drop]
  change releaseWithin 5 _ (heldBy tangled.objects.slots[0] ++ []) = _ at hrounds
  rw [hfirst] at hrounds
  change releaseWithin 4 _ (heldBy tangled.objects.slots[1] ++ [⟨3⟩]) = _ at hrounds
  rw [hsecond] at hrounds
  cases hrounds
  rfl

end ScopedIR
