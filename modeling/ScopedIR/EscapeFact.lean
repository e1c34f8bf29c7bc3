/-!
# Escape facts

How far an allocated object may travel, as an analysis attaches it to the allocating instruction.
Levels form a chain, and `EscapeLevel.max` is its least upper bound.
-/

namespace ScopedIR

/-- How far an object may travel. -/
inductive EscapeLevel where
  /-- Confined to the scope it was registered in. -/
  | none
  /-- Passed to a callee that neither stores nor publishes it. -/
  | arg
  /-- Reachable after the allocating scope exits. -/
  | global
deriving DecidableEq, Inhabited

namespace EscapeLevel

/-- The position of a level in the order none, arg, global. -/
def rank : EscapeLevel → Nat
  | none => 0
  | arg => 1
  | global => 2

instance : LE EscapeLevel := ⟨fun a b => a.rank ≤ b.rank⟩
instance : LT EscapeLevel := ⟨fun a b => a.rank < b.rank⟩
instance (a b : EscapeLevel) : Decidable (a ≤ b) := inferInstanceAs (Decidable (a.rank ≤ b.rank))
instance (a b : EscapeLevel) : Decidable (a < b) := inferInstanceAs (Decidable (a.rank < b.rank))

/-- The farther of two levels. -/
def max (a b : EscapeLevel) : EscapeLevel := if a < b then b else a

/-- The name of a level in rendered facts. -/
def name : EscapeLevel → String
  | none => "NONE"
  | arg => "ARG"
  | global => "GLOBAL"

/-- The level with a given name. -/
def ofName? (s : String) : Option EscapeLevel := [none, arg, global].find? fun l => l.name = s

theorem rank_le_two (a : EscapeLevel) : a.rank ≤ 2 := by cases a <;> decide

theorem lt_iff (a b : EscapeLevel) : a < b ↔ a.rank < b.rank := Iff.rfl

theorem le_iff (a b : EscapeLevel) : a ≤ b ↔ a.rank ≤ b.rank := Iff.rfl

theorem le_refl (a : EscapeLevel) : a ≤ a := Nat.le_refl a.rank

theorem le_trans {a b c : EscapeLevel} : a ≤ b → b ≤ c → a ≤ c := Nat.le_trans

theorem le_antisymm {a b : EscapeLevel} : a ≤ b → b ≤ a → a = b := by
  cases a <;> cases b <;> decide

/-- The farther level is an upper bound, and the least one. -/
theorem max_le_iff {a b c : EscapeLevel} : a.max b ≤ c ↔ a ≤ c ∧ b ≤ c := by
  cases a <;> cases b <;> cases c <;> decide

end EscapeLevel

/-- What is known about the travels of one allocated object. -/
structure EscapeFact where
  level : EscapeLevel
  /-- The scope the lifetime of the object is bound to, if known. -/
  lifetime : Option String := none
deriving DecidableEq, Inhabited

namespace EscapeFact

/-- Only an object that never escapes may live on the stack. -/
def isStackCandidate (e : EscapeFact) : Bool := e.level = .none

/-- The fact in one line. -/
def text (e : EscapeFact) : String :=
  "escape=" ++ e.level.name
    ++ match e.lifetime with
      | some scope => ", lifetime=" ++ scope
      | none => ""

end EscapeFact

end ScopedIR
