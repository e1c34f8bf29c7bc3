import ScopedIR.FinMap

/-!
# One-to-one maps

A bijection is a finite set of pairs looked up from either side. It keeps one map for each direction,
and storing a pair drops from both maps the pairs that share a side with it.

Main definition: `Bijection.insert`, which drops the pair of the left side and then that of the right
side.
-/

namespace ScopedIR

/-- A finite set of pairs, looked up from either side. -/
structure Bijection (κ ν : Type) where
  /-- The right side of each left side. -/
  map : FinMap κ ν := .empty
  /-- The left side of each right side. -/
  rev : FinMap ν κ := .empty
deriving DecidableEq, Inhabited

namespace Bijection

variable {κ ν : Type}

/-- The map without pairs. -/
def empty : Bijection κ ν := {}

instance : EmptyCollection (Bijection κ ν) := ⟨empty⟩

variable (m : Bijection κ ν)

/-- The stored pairs, the latest first. -/
def pairs : List (κ × ν) := m.map.entries

/-- The number of pairs. -/
def size : Nat := m.map.size

/-- Whether there is no pair. -/
def isEmpty : Bool := m.map.entries.isEmpty

variable [DecidableEq κ] [DecidableEq ν]

/-- The right side of the pair whose left side is `k`. -/
def get? (k : κ) : Option ν := m.map.get? k

/-- The left side of the pair whose right side is `v`. -/
def getRev? (v : ν) : Option κ := m.rev.get? v

/-- Drop the pair whose left side is `k`, if there is one. -/
def dropLeft (k : κ) : Bijection κ ν :=
  match m.map.get? k with
  | some v => ⟨m.map.erase k, m.rev.erase v⟩
  | none => m

/-- Drop the pair whose right side is `v`, if there is one. -/
def dropRight (v : ν) : Bijection κ ν :=
  match m.rev.get? v with
  | some k => ⟨m.map.erase k, m.rev.erase v⟩
  | none => m

/-- Store a pair, dropping every pair either side was part of. -/
def insert (k : κ) (v : ν) : Bijection κ ν :=
  let rest := (m.dropLeft k).dropRight v
  ⟨rest.map.insert k v, rest.rev.insert v k⟩

/-- The map of a list of pairs, stored in order. -/
def ofList (l : List (κ × ν)) : Bijection κ ν := l.foldl (fun m p => m.insert p.1 p.2) empty

end Bijection

end ScopedIR
