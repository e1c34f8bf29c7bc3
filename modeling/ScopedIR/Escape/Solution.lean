import ScopedIR.Escape.Findings

/-!
# The solution of the escape analysis

The least levels that respect every floor and every flow, and the names that may hold a reference in
one of their fields. A store passes the level of the variable on to the value when both are released
by the same scope; otherwise the value outlives its scope and is published.

Both are found by repeated passes over the edges. Levels only rise and names are only added, so what
is left to gain gets smaller with every pass that changes something, and a pass that gains nothing
ends the search.
-/

namespace ScopedIR.Escape

/-- The level known for each name; a name without entry is confined. -/
abbrev Levels := FinMap String EscapeLevel

namespace Levels

/-- The level of a name. -/
def level (m : Levels) (name : String) : EscapeLevel := (m.get? name).getD .none

/-- Let a name escape at least as far as `l`. -/
def raise (m : Levels) (name : String) (l : EscapeLevel) : Levels :=
  if m.level name < l then m.insert name l else m

/-- Raising a name takes the farther of both levels and leaves every other name as it is. -/
theorem level_raise (m : Levels) (name a : String) (l : EscapeLevel) :
    (m.raise name l).level a = if name = a then (m.level a).max l else m.level a := by
  unfold raise EscapeLevel.max
  by_cases hl : m.level name < l
  · rw [if_pos hl]
    by_cases h : name = a
    · subst h
      rw [if_pos rfl, if_pos hl, level, FinMap.get?_insert_self, Option.getD_some]
    · rw [if_neg h, level, FinMap.get?_insert_ne m h, level]
  · rw [if_neg hl]
    by_cases h : name = a
    · subst h
      rw [if_pos rfl, if_neg hl]
    · rw [if_neg h]

/-- Let the target of a flow escape at least as far as its source. -/
def relax (m : Levels) (flow : String × String) : Levels := m.raise flow.2 (m.level flow.1)

-- Sums of numbers start at the numeral, whatever other zero is in scope.
attribute [local instance (high)] Zero.ofOfNat0

/-- How far the targets of the flows are from escaping altogether. -/
def deficit (flows : List (String × String)) (m : Levels) : Nat :=
  (flows.map fun flow => 2 - (m.level flow.2).rank).sum

/-- Relax every flow once, in order. -/
def pass (flows : List (String × String)) (m : Levels) : Levels := flows.foldl relax m

/-- Relax every flow until a pass gains nothing. -/
def settle (flows : List (String × String)) (m : Levels) : Levels :=
  if deficit flows (pass flows m) < deficit flows m then settle flows (pass flows m)
  else pass flows m
termination_by deficit flows m

end Levels

namespace Holders

/-- The list with `name`, which is not added twice. -/
def add (holders : List String) (name : String) : List String :=
  if name ∈ holders then holders else name :: holders

/-- Let the target of an alias hold what its source holds. -/
def relax (holders : List String) (edge : String × String) : List String :=
  if edge.1 ∈ holders then add holders edge.2 else holders

/-- The number of aliases whose target holds nothing yet. -/
def missing (aliases : List (String × String)) (holders : List String) : Nat :=
  (aliases.filter fun edge => edge.2 ∉ holders).length

/-- Follow every alias once, in order. -/
def pass (aliases : List (String × String)) (holders : List String) : List String :=
  aliases.foldl relax holders

/-- Follow every alias until a pass gains nothing. -/
def settle (aliases : List (String × String)) (holders : List String) : List String :=
  if missing aliases (pass aliases holders) < missing aliases holders then
    settle aliases (pass aliases holders)
  else pass aliases holders
termination_by missing aliases holders

end Holders

/-- What the analysis knows once it is done. -/
structure Solution where
  levels : Levels
  /-- The names that may hold a reference in one of their fields. -/
  holders : List String
  scopes : FinMap String String
deriving DecidableEq, Inhabited

namespace Findings

/-- Whether both names are released by the same scope. -/
def sameScope (f : Findings) (a b : String) : Bool :=
  match f.scopes.get? a, f.scopes.get? b with
  | some s, some t => s = t
  | _, _ => false

/-- The flows, those of the stores within one scope included. -/
def allFlows (f : Findings) : List (String × String) :=
  f.flows ++ f.stores.filter fun s => f.sameScope s.1 s.2

/-- The floors, those of the stores across scopes included. -/
def allFloors (f : Findings) : List (String × EscapeLevel) :=
  f.floors ++ (f.stores.filter fun s => !f.sameScope s.1 s.2).map fun s => (s.2, .global)

/-- The least solution of the findings. -/
def solve (f : Findings) : Solution :=
  { levels := Levels.settle f.allFlows (f.allFloors.foldl (fun m b => m.raise b.1 b.2) .empty)
    holders := Holders.settle f.aliases (f.holders.foldl Holders.add [])
    scopes := f.scopes }

end Findings

end ScopedIR.Escape
