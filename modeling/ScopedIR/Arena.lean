/-!
# Arenas

Append-only storage: a value keeps the position it was stored at, and positions follow the order of
storing.

Main statements: `get?_push` and `get?_modify` say what is found at each position afterwards.
-/

namespace ScopedIR

/-- Values addressed by the position they were stored at. -/
structure Arena (α : Type) where
  /-- The stored values in order. -/
  slots : Array α := #[]
deriving DecidableEq, Inhabited

/-- How a position is written in messages. -/
def positionText (i : Nat) : String := "#" ++ Nat.repr i

namespace Arena

variable {α : Type}

/-- The arena without values. -/
def empty : Arena α := ⟨#[]⟩

instance : EmptyCollection (Arena α) := ⟨empty⟩

variable (a : Arena α)

/-- The number of stored values, which is the position of the next one. -/
def size : Nat := a.slots.size

/-- Whether nothing is stored. -/
def isEmpty : Bool := a.size == 0

/-- Store a value at the next position. -/
def push (x : α) : Arena α := ⟨a.slots.push x⟩

/-- Store the value built from the position it will have. -/
def pushWith (build : Nat → α) : Arena α := a.push (build a.size)

/-- The value at position `i`. -/
def get? (i : Nat) : Option α := a.slots[i]?

/-- Change the value at position `i`; nothing happens at a position that holds none. -/
def modify (i : Nat) (f : α → α) : Arena α := ⟨a.slots.modify i f⟩

/-- The positions in order. -/
def positions : List Nat := List.range a.size

/-- The values in order. -/
def toList : List α := a.slots.toList

@[simp] theorem size_push (x : α) : (a.push x).size = a.size + 1 :=
  Array.size_push x

@[simp] theorem size_modify (i : Nat) (f : α → α) : (a.modify i f).size = a.size :=
  Array.size_modify

theorem get?_push (x : α) (i : Nat) :
    (a.push x).get? i = if i = a.size then some x else a.get? i :=
  Array.getElem?_push

theorem get?_modify (i j : Nat) (f : α → α) :
    (a.modify i f).get? j = if i = j then (a.get? j).map f else a.get? j :=
  Array.getElem?_modify

theorem get?_eq_none_iff (i : Nat) : a.get? i = none ↔ a.size ≤ i :=
  Array.getElem?_eq_none_iff

end Arena

end ScopedIR
