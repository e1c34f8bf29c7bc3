import ScopedIR.FinMap
import ScopedIR.Machine.Fault
import ScopedIR.Machine.Value

/-!
# Counted objects

The heap of one run. Every object has a value, fields that refer to other objects, and a count of
the references to it. An object whose last reference is dropped is freed, and freeing it drops the
references its fields hold. Objects on the stack are not counted.

Main definitions:

* `Heap.releaseAll`: drop references one after the other, with everything that follows from it. It
  ends because a reference that is dropped leaves the heap or the list for good;
* `Heap.leaks`: the objects whose count did not return to what they started with.
-/

namespace ScopedIR

/-- An object of the heap. -/
structure HeapObject where
  value : Value
  /-- Each field holds one reference to its object. -/
  fields : FinMap String ObjectId := .empty
  refcount : Nat := 0
  freed : Bool := false
  /-- Objects on the stack are not counted. -/
  onStack : Bool := false
  /-- Objects handed in by the caller start owned once. -/
  external : Bool := false
deriving DecidableEq, Inhabited

/-- An object still referenced when a run is over. -/
structure Leak where
  id : ObjectId
  type : String
  refcount : Nat
deriving DecidableEq, Inhabited

/-- The objects of one run, in the order of allocation. -/
structure Heap where
  objects : Arena HeapObject := .empty
deriving DecidableEq, Inhabited

namespace Heap

/-- The heap without objects. -/
def empty : Heap := { objects := .empty }

variable (h : Heap)

/-- The number of objects, freed ones included. -/
def size : Nat := h.objects.size

variable (id : ObjectId)

/-- The object with a given identity. -/
def get? : Option HeapObject := h.objects.get? id.index

/-- The identity of the next object. -/
def next : ObjectId := ⟨h.size⟩

/-- Add an object, which gets the identity `h.next`. -/
def add (o : HeapObject) : Heap := ⟨h.objects.push o⟩

/-- Add an object nobody refers to. -/
def alloc (value : Value) (onStack : Bool) : Heap := h.add { value, onStack }

/-- Add an object the caller holds one reference to. -/
def allocExternal (value : Value) : Heap :=
  h.add { value, refcount := 1, external := true }

/-- Add an object that already has one reference, as a thrown exception has. -/
def allocOwned (value : Value) : Heap := h.add { value, refcount := 1 }

/-- The object with a given identity, unless it is freed or unknown. -/
def live : Except Fault HeapObject :=
  match h.get? id with
  | some o => if o.freed then .error (.useAfterFree id) else .ok o
  | none => .error (.useAfterFree id)

/-- Change an object. -/
def modify (f : HeapObject → HeapObject) : Heap :=
  ⟨h.objects.modify id.index f⟩

/-- The value of a live object. -/
def value : Except Fault Value := do return (← h.live id).value

/-- An update of the heap. The heap is answered also when the update fails, with what was done until
then. -/
abbrev Update := Except Fault Unit × Heap

/-- Change a live object. -/
def updateLive (f : HeapObject → HeapObject) : Update :=
  match h.live id with
  | .ok _ => (.ok (), h.modify id f)
  | .error fault => (.error fault, h)

/-- Give a live object another value. -/
def setValue (value : Value) : Update :=
  h.updateLive id fun o => { o with value }

/-- The object in a field, if the field was assigned. -/
def field (name : String) : Except Fault (Option ObjectId) := do
  return (← h.live id).fields.get? name

/-- Point a field at an object, or at nothing. Counts are left to the caller. -/
def setField (name : String) (target : Option ObjectId) : Update :=
  h.updateLive id fun o =>
    { o with
      fields :=
        match target with
        | some t => o.fields.insert name t
        | none => o.fields.erase name }

/-- Count one more reference to a live object, unless it is on the stack. -/
def retain : Update :=
  h.updateLive id fun o => if o.onStack then o else { o with refcount := o.refcount + 1 }

/-- What the fields of an object refer to, in the order of allocation; an object stands there once
per field. -/
def heldBy (o : HeapObject) : List ObjectId :=
  o.fields.values.mergeSort fun a b => a.index ≤ b.index

-- Sums of numbers start at the numeral, whatever other zero is in scope.
attribute [local instance (high)] Zero.ofOfNat0

/-- The number of references that fields hold. -/
def fieldCount : Nat := (h.objects.toList.map fun o => o.fields.size).sum

theorem sum_map_modify {α : Type} (g : α → Nat) (f : α → α) (a : α) :
    ∀ (l : List α) (i : Nat), l[i]? = some a →
      ((l.modify i f).map g).sum + g a = (l.map g).sum + g (f a)
  | [], _, h => by simp at h
  | x :: rest, 0, h => by
    simp only [List.getElem?_cons_zero, Option.some.injEq] at h
    subst h
    simp only [List.modify_zero_cons, List.map_cons, List.sum_cons]
    omega
  | x :: rest, i + 1, h => by
    simp only [List.getElem?_cons_succ] at h
    have := sum_map_modify g f a rest i h
    simp only [List.modify_succ_cons, List.map_cons, List.sum_cons]
    omega

theorem fieldCount_modify {h : Heap} {id : ObjectId} {o : HeapObject} (ho : h.get? id = some o)
    (f : HeapObject → HeapObject) :
    (h.modify id f).fieldCount + o.fields.size = h.fieldCount + (f o).fields.size := by
  have hl : h.objects.toList[id.index]? = some o := by
    simpa [get?, Arena.get?, Arena.toList] using ho
  have := sum_map_modify (fun o => o.fields.size) f o h.objects.toList id.index hl
  simpa [fieldCount, modify, Arena.modify, Arena.toList, Array.toList_modify] using this

theorem length_heldBy (o : HeapObject) : (heldBy o).length = o.fields.size := by
  simp [heldBy, FinMap.values, FinMap.size, List.length_mergeSort]

/-- Drop a reference to each object of the list in turn. An object freed this way drops what its
fields refer to before the rest of the list is looked at. -/
def releaseAll (h : Heap) (pending : List ObjectId) : Update :=
  match pending with
  | [] => (.ok (), h)
  | id :: rest =>
    match _ho : h.get? id with
    | none => (.error (.useAfterFree id), h)
    | some o =>
      if o.onStack then h.releaseAll rest
      else if o.freed || o.refcount = 0 then (.error (.doubleRelease id), h)
      else if o.refcount = 1 then
        (h.modify id fun o => { o with refcount := 0, freed := true, fields := .empty }).releaseAll
          (heldBy o ++ rest)
      else (h.modify id fun o => { o with refcount := o.refcount - 1 }).releaseAll rest
termination_by h.fieldCount + pending.length
decreasing_by
  · simp only [List.length_cons]
    omega
  · have := fieldCount_modify _ho
      (fun o => { o with refcount := 0, freed := true, fields := .empty })
    have := length_heldBy o
    simp only [List.length_append, List.length_cons, FinMap.size, FinMap.empty,
      List.length_nil] at *
    omega
  · have := fieldCount_modify _ho (fun o => { o with refcount := o.refcount - 1 })
    simp only [List.length_cons] at *
    omega

/-- Drop one reference. -/
def release : Update := h.releaseAll [id]

/-- Empty the fields of a live object, dropping what they referred to. -/
def cleanup : Update :=
  match h.live id with
  | .ok o => (h.modify id fun o => { o with fields := .empty }).releaseAll (heldBy o)
  | .error fault => (.error fault, h)

/-- The references an object may keep at the end: one when the caller handed it in, one when it is
handed back. -/
def owed (o : HeapObject) (id : ObjectId) (returned : Option ObjectId) : Nat :=
  (if o.external then 1 else 0) + (if returned = some id then 1 else 0)

/-- The counted live objects with more references than they may keep, in the order of allocation. -/
def leaks (returned : Option ObjectId) : List Leak :=
  h.objects.toList.zipIdx.filterMap fun (o, i) =>
    if !o.onStack && !o.freed && owed o ⟨i⟩ returned < o.refcount then
      some { id := ⟨i⟩, type := o.value.typeName, refcount := o.refcount }
    else none

end Heap

end ScopedIR
