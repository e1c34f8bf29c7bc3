import ScopedIR.Escape.Solution
import ScopedIR.Proofs.PlacingUndone
import Mathlib.Algebra.Order.BigOperators.Group.List
import Mathlib.Algebra.Order.Group.Nat
import Mathlib.Logic.Relation

/-!
# The escape analysis finds the least solution

A name escapes as far as the farthest floor among the names that lead to it, and holds a reference in a
field if some direct holder leads to it along aliases. Both are found by going over a list of edges again
and again, and edges may form circles.

A pass over the edges changes nothing, or it brings a measure down: how far the targets are from escaping
altogether, or how many targets hold nothing yet. So the repetition ends, with a state that no edge
changes. Such a state is closed along edges, and what it says comes along a path from where the search
began. Neither depends on the order of the edges.

Main definitions:

* `Escape.untilStable`: a pass repeated until it changes nothing, a given number of times at most;
* `Escape.Passes`, `Escape.Bounds`: the flows and the floors of some code, with what its stores add;
* `Escape.Findings.Reorders`: the same findings recorded in another order.

Main statements: `Levels.exists_level_settle`, `Levels.level_le_settle` and `Holders.mem_settle_iff`,
what the two loops compute, and `solve_least`.
-/

namespace ScopedIR.Escape

open Relation

/-! ### Repeated passes -/

section Passes

variable {S : Type} {μ : S → Nat}

/-- A pass that applies steps in turn changes nothing if none of them does, and brings the measure down
otherwise. -/
theorem foldl_eq_or_lt {ε : Type} {step : S → ε → S} {edges : List ε}
    (hstep : ∀ s, ∀ e ∈ edges, step s e = s ∨ μ (step s e) < μ s) (s : S) :
    edges.foldl step s = s ∨ μ (edges.foldl step s) < μ s := by
  induction edges generalizing s with
  | nil => exact .inl rfl
  | cons e rest ih =>
    have hrest := ih (fun s e he => hstep s e (List.mem_cons_of_mem _ he)) (step s e)
    rw [List.foldl_cons]
    rcases hstep s e List.mem_cons_self with he | he
    · rwa [he] at hrest ⊢
    · rcases hrest with hr | hr
      · exact .inr (by rwa [hr])
      · exact .inr (Nat.lt_trans hr he)

variable [DecidableEq S] {pass : S → S} {s t : S} {n : Nat}

/-- Repeat a pass until it changes nothing, a given number of times at most. -/
def untilStable (pass : S → S) : Nat → S → Option S
  | 0, _ => none
  | n + 1, s => if pass s = s then some s else untilStable pass n (pass s)

theorem stable_of_untilStable (h : untilStable pass n s = some t) : pass t = t := by
  induction n generalizing s with
  | zero => cases h
  | succ n ih =>
    unfold untilStable at h
    split at h
    · next hs =>
      cases h
      exact hs
    · exact ih h

/-- What every pass keeps holds in the end. -/
theorem untilStable_induction {P : S → Prop} (hpass : ∀ s, P s → P (pass s))
    (h : untilStable pass n s = some t) (hs : P s) : P t := by
  induction n generalizing s with
  | zero => cases h
  | succ n ih =>
    unfold untilStable at h
    split at h
    · cases h
      exact hs
    · exact ih h (hpass s hs)

/-- A loop that goes on while a pass brings the measure down is a pass repeated until it changes
nothing, and the measure bounds the number of passes. -/
theorem untilStable_eq_some {loop : S → S} (hpass : ∀ s, pass s = s ∨ μ (pass s) < μ s)
    (hloop : ∀ s, loop s = if μ (pass s) < μ s then loop (pass s) else pass s) (h : μ s < n) :
    untilStable pass n s = some (loop s) := by
  induction n generalizing s with
  | zero => omega
  | succ n ih =>
    unfold untilStable
    rw [hloop]
    rcases hpass s with hs | hlt
    · rw [if_pos hs, hs, if_neg (Nat.lt_irrefl _)]
    · have hne : pass s ≠ s := fun he => by
        rw [he] at hlt
        exact Nat.lt_irrefl _ hlt
      rw [if_neg hne, if_pos hlt]
      exact ih (by omega)

end Passes

/-! ### Levels -/

namespace Levels

variable {flows : List (String × String)} {m : Levels} {a b n : String} {l : EscapeLevel}

theorem level_le_raise (m : Levels) (name a : String) (l : EscapeLevel) :
    m.level a ≤ (m.raise name l).level a := by
  rw [level_raise]
  split
  · exact (EscapeLevel.max_le_iff.1 (EscapeLevel.le_refl _)).1
  · exact EscapeLevel.le_refl _

theorem le_level_raise (m : Levels) (name : String) (l : EscapeLevel) :
    l ≤ (m.raise name l).level name := by
  rw [level_raise, if_pos rfl]
  exact (EscapeLevel.max_le_iff.1 (EscapeLevel.le_refl _)).2

/-- A raised level is the old one or the one it is raised to. -/
theorem level_raise_eq (m : Levels) (name a : String) (l : EscapeLevel) :
    (m.raise name l).level a = m.level a ∨ name = a ∧ (m.raise name l).level a = l := by
  rw [level_raise]
  split
  · next h =>
    unfold EscapeLevel.max
    split
    · exact .inr ⟨h, rfl⟩
    · exact .inl rfl
  · exact .inl rfl

theorem level_le_pass (flows : List (String × String)) (m : Levels) (a : String) :
    m.level a ≤ (pass flows m).level a := by
  unfold pass
  induction flows generalizing m with
  | nil => exact EscapeLevel.le_refl _
  | cons flow rest ih => exact EscapeLevel.le_trans (level_le_raise m _ a _) (ih _)

/-- A pass takes the level of a source to its target. -/
theorem level_le_pass_of_mem (h : (a, b) ∈ flows) : m.level a ≤ (pass flows m).level b := by
  unfold pass
  induction flows generalizing m with
  | nil => cases h
  | cons flow rest ih =>
    rcases List.mem_cons.1 h with rfl | h
    · exact EscapeLevel.le_trans (le_level_raise m b _) (level_le_pass rest _ b)
    · exact EscapeLevel.le_trans (level_le_raise m _ a _) (ih h)

/-- The deficit is smaller when levels are higher and some target has gained. -/
theorem deficit_lt {m' : Levels} (h : ∀ a, m.level a ≤ m'.level a) (hflow : (a, b) ∈ flows)
    (hb : m.level b < m'.level b) : deficit flows m' < deficit flows m := by
  refine List.sum_lt_sum _ _ (fun flow _ => ?_) ⟨(a, b), hflow, ?_⟩
  · have := (EscapeLevel.le_iff _ _).1 (h flow.2)
    omega
  · have := (EscapeLevel.lt_iff _ _).1 hb
    have := (m'.level b).rank_le_two
    dsimp only
    omega

theorem deficit_le (flows : List (String × String)) (m : Levels) :
    deficit flows m ≤ 2 * flows.length := by
  unfold deficit
  induction flows with
  | nil => exact Nat.le_refl _
  | cons flow rest ih =>
    simp only [List.map_cons, List.sum_cons, List.length_cons]
    omega

/-- A pass gains something, or it changes nothing. -/
theorem pass_eq_or_lt (flows : List (String × String)) (m : Levels) :
    pass flows m = m ∨ deficit flows (pass flows m) < deficit flows m := by
  refine foldl_eq_or_lt (fun m flow hflow => ?_) m
  unfold relax
  by_cases hlt : m.level flow.2 < m.level flow.1
  · refine .inr (deficit_lt (fun a => level_le_raise m flow.2 a _) hflow ?_)
    rw [level_raise, if_pos rfl, EscapeLevel.max, if_pos hlt]
    exact hlt
  · exact .inl (if_neg hlt)

/-- The search ends, after at most two passes for each flow and one that changes nothing. -/
theorem untilStable_pass (flows : List (String × String)) (m : Levels) :
    untilStable (pass flows) (2 * flows.length + 1) m = some (settle flows m) :=
  untilStable_eq_some (pass_eq_or_lt flows) (fun m => by rw [settle])
    (Nat.lt_succ_of_le (deficit_le flows m))

/-- What the search finds is the level that some name which leads there started with. -/
theorem exists_level_settle (flows : List (String × String)) (m : Levels) (n : String) :
    ∃ a, ReflTransGen (fun a b => (a, b) ∈ flows) a n ∧ (settle flows m).level n = m.level a := by
  let Found (m' : Levels) : Prop :=
    ∀ n, ∃ a, ReflTransGen (fun a b => (a, b) ∈ flows) a n ∧ m'.level n = m.level a
  have hrelax : ∀ m', Found m' → ∀ flow ∈ flows, Found (m'.relax flow) := by
    intro m' hm' flow hflow n
    rcases level_raise_eq m' flow.2 n (m'.level flow.1) with h | ⟨rfl, h⟩
    · obtain ⟨a, ha, hl⟩ := hm' n
      exact ⟨a, ha, h.trans hl⟩
    · obtain ⟨a, ha, hl⟩ := hm' flow.1
      exact ⟨a, ha.tail hflow, h.trans hl⟩
  exact untilStable_induction (P := Found)
    (fun m' hm' => List.foldlRecOn (motive := Found) flows relax hm' hrelax)
    (untilStable_pass flows m) (fun n => ⟨n, .refl, rfl⟩) n

/-- A level that a name started with is passed on to wherever the name leads. -/
theorem level_le_settle (h : ReflTransGen (fun a b => (a, b) ∈ flows) a n) :
    m.level a ≤ (settle flows m).level n := by
  have hstable := stable_of_untilStable (untilStable_pass flows m)
  induction h with
  | refl =>
    exact untilStable_induction (P := fun m' : Levels => m.level a ≤ m'.level a)
      (fun m' hm' => EscapeLevel.le_trans hm' (level_le_pass flows m' a)) (untilStable_pass flows m)
      (EscapeLevel.le_refl _)
  | tail _ hflow ih =>
    refine EscapeLevel.le_trans ih ?_
    have hpassed := level_le_pass_of_mem (m := settle flows m) hflow
    rwa [hstable] at hpassed

/-- The levels that a list of floors gives. -/
def ofFloors (floors : List (String × EscapeLevel)) : Levels :=
  floors.foldl (fun m b => m.raise b.1 b.2) .empty

theorem le_level_ofFloors {floors : List (String × EscapeLevel)} (h : (n, l) ∈ floors) :
    l ≤ (ofFloors floors).level n := by
  have hmono : ∀ (rest : List (String × EscapeLevel)) (m : Levels),
      m.level n ≤ (rest.foldl (fun m b => m.raise b.1 b.2) m).level n := by
    intro rest
    induction rest with
    | nil => exact fun m => EscapeLevel.le_refl _
    | cons b rest ih => exact fun m => EscapeLevel.le_trans (level_le_raise m b.1 n b.2) (ih _)
  obtain ⟨before, after, rfl⟩ := List.append_of_mem h
  unfold ofFloors
  rw [List.foldl_append, List.foldl_cons]
  exact EscapeLevel.le_trans (le_level_raise _ n l) (hmono after _)

theorem level_ofFloors (floors : List (String × EscapeLevel)) (n : String) :
    (ofFloors floors).level n = .none ∨ (n, (ofFloors floors).level n) ∈ floors := by
  refine List.foldlRecOn (motive := fun m : Levels => ∀ n, m.level n = .none ∨ (n, m.level n) ∈ floors)
    floors _ (fun n => .inl rfl) (fun m hm b hb n => ?_) n
  rcases level_raise_eq m b.1 n b.2 with h | ⟨rfl, h⟩
  · rw [h]
    exact hm n
  · rw [h]
    exact .inr hb

end Levels

/-! ### Holders -/

namespace Holders

variable {aliases : List (String × String)} {holders : List String} {a b n : String}

theorem mem_add : n ∈ add holders a ↔ n ∈ holders ∨ n = a := by
  unfold add
  split
  · next h => exact ⟨.inl, fun hn => hn.elim id fun he => he ▸ h⟩
  · rw [List.mem_cons, or_comm]

theorem mem_relax {edge : String × String} :
    n ∈ relax holders edge ↔ n ∈ holders ∨ edge.1 ∈ holders ∧ n = edge.2 := by
  unfold relax
  split
  · next h => rw [mem_add, and_iff_right h]
  · next h => exact ⟨.inl, fun hn => hn.resolve_right fun he => h he.1⟩

theorem subset_relax (holders : List String) (edge : String × String) :
    holders ⊆ relax holders edge := fun _ hx => mem_relax.2 (.inl hx)

theorem subset_pass (aliases : List (String × String)) (holders : List String) :
    holders ⊆ pass aliases holders := by
  unfold pass
  induction aliases generalizing holders with
  | nil => exact List.Subset.refl _
  | cons edge rest ih => exact List.Subset.trans (subset_relax holders edge) (ih _)

/-- A pass follows every alias of a holder. -/
theorem mem_pass_of_mem (h : (a, b) ∈ aliases) (ha : a ∈ holders) : b ∈ pass aliases holders := by
  obtain ⟨before, after, rfl⟩ := List.append_of_mem h
  unfold pass
  rw [List.foldl_append, List.foldl_cons]
  refine subset_pass after _ ?_
  exact mem_relax.2 (.inr ⟨subset_pass before holders ha, rfl⟩)

/-- Fewer targets are missing when there is a new holder among them. -/
theorem missing_lt {holders' : List String} (h : holders ⊆ holders') (hedge : (a, b) ∈ aliases)
    (hb : b ∉ holders) (hb' : b ∈ holders') : missing aliases holders' < missing aliases holders := by
  have hfilter : aliases.filter (fun edge => edge.2 ∉ holders') =
      (aliases.filter fun edge => edge.2 ∉ holders).filter fun edge => edge.2 ∉ holders' := by
    rw [List.filter_filter]
    refine List.filter_congr fun edge _ => ?_
    have : edge.2 ∈ holders → edge.2 ∈ holders' := fun he => h he
    grind
  unfold missing
  rw [hfilter, List.length_filter_lt_length_iff_exists]
  exact ⟨(a, b), List.mem_filter.2 ⟨hedge, by simpa using hb⟩, by simpa using hb'⟩

/-- A pass gains something, or it changes nothing. -/
theorem pass_eq_or_lt (aliases : List (String × String)) (holders : List String) :
    pass aliases holders = holders ∨
      missing aliases (pass aliases holders) < missing aliases holders := by
  refine foldl_eq_or_lt (fun holders edge hedge => ?_) holders
  by_cases ha : edge.1 ∈ holders
  · by_cases hb : edge.2 ∈ holders
    · exact .inl (by rw [relax, if_pos ha, add, if_pos hb])
    · exact .inr (missing_lt (subset_relax holders edge) hedge hb (mem_relax.2 (.inr ⟨ha, rfl⟩)))
  · exact .inl (if_neg ha)

/-- The search ends, after at most one pass for each alias and one that changes nothing. -/
theorem untilStable_pass (aliases : List (String × String)) (holders : List String) :
    untilStable (pass aliases) (aliases.length + 1) holders = some (settle aliases holders) :=
  untilStable_eq_some (pass_eq_or_lt aliases) (fun holders => by rw [settle])
    (Nat.lt_succ_of_le (List.length_filter_le _ _))

/-- The search finds the names that the holders it started with lead to. -/
theorem mem_settle_iff : n ∈ settle aliases holders ↔
    ∃ h ∈ holders, ReflTransGen (fun a b => (a, b) ∈ aliases) h n := by
  constructor
  · let Found (holders' : List String) : Prop := ∀ n ∈ holders',
      ∃ h ∈ holders, ReflTransGen (fun a b => (a, b) ∈ aliases) h n
    have hrelax : ∀ holders', Found holders' → ∀ edge ∈ aliases, Found (relax holders' edge) := by
      intro holders' hf edge hedge n hn
      rcases mem_relax.1 hn with hn | ⟨ha, rfl⟩
      · exact hf n hn
      · obtain ⟨h, hh, hpath⟩ := hf edge.1 ha
        exact ⟨h, hh, hpath.tail hedge⟩
    exact untilStable_induction (P := Found)
      (fun holders' hf => List.foldlRecOn (motive := Found) aliases relax hf hrelax)
      (untilStable_pass aliases holders) (fun n hn => ⟨n, hn, .refl⟩) n
  · rintro ⟨h, hh, hpath⟩
    have hstable := stable_of_untilStable (untilStable_pass aliases holders)
    induction hpath with
    | refl =>
      exact untilStable_induction (P := fun holders' => h ∈ holders')
        (fun holders' hmem => subset_pass aliases holders' hmem) (untilStable_pass aliases holders) hh
    | tail _ hedge ih =>
      have hfollowed := mem_pass_of_mem hedge ih
      rwa [hstable] at hfollowed

theorem mem_foldl_add {names : List String} : n ∈ names.foldl add holders ↔ n ∈ holders ∨ n ∈ names := by
  induction names generalizing holders with
  | nil => simp
  | cons a rest ih => rw [List.foldl_cons, ih, mem_add, List.mem_cons, or_assoc]

end Holders

/-! ### Findings -/

/-- The level is the farthest of some levels, or that of a name that does not escape if there are
none. -/
def IsFarthest (P : EscapeLevel → Prop) (l : EscapeLevel) : Prop :=
  (∀ b, P b → b ≤ l) ∧ (l = .none ∨ P l)

variable {P : EscapeLevel → Prop} {l l' : EscapeLevel}

theorem IsFarthest.le (h : IsFarthest P l) (h' : IsFarthest P l') : l ≤ l' := by
  rcases h.2 with rfl | hl
  · exact Nat.zero_le _
  · exact h'.1 l hl

theorem IsFarthest.unique (h : IsFarthest P l) (h' : IsFarthest P l') : l = l' :=
  EscapeLevel.le_antisymm (h.le h') (h'.le h)

namespace Findings

variable {f g : Findings} {a b n : String}

theorem sameScope_iff : f.sameScope a b = true ↔
    ∃ k, f.scopes.get? a = some k ∧ f.scopes.get? b = some k := by
  unfold sameScope
  cases f.scopes.get? a <;> cases f.scopes.get? b <;> simp [eq_comm]

theorem mem_allFlows : (a, b) ∈ f.allFlows ↔
    (a, b) ∈ f.flows ∨ (a, b) ∈ f.stores ∧ f.sameScope a b = true := by
  simp [allFlows]

variable {l : EscapeLevel}

theorem mem_allFloors : (n, l) ∈ f.allFloors ↔
    (n, l) ∈ f.floors ∨ l = .global ∧ ∃ v, (v, n) ∈ f.stores ∧ ¬ f.sameScope v n = true := by
  simp only [allFloors, List.mem_append, List.mem_map, List.mem_filter, Prod.exists, Prod.mk.injEq]
  grind

/-- A name escapes as far as the farthest floor of a name that leads to it. -/
theorem level_solve (f : Findings) (n : String) : IsFarthest
    (fun l => ∃ m, (m, l) ∈ f.allFloors ∧ ReflTransGen (fun a b => (a, b) ∈ f.allFlows) m n)
    (f.solve.levels.level n) := by
  constructor
  · rintro l ⟨m, hm, hpath⟩
    exact EscapeLevel.le_trans (Levels.le_level_ofFloors hm) (Levels.level_le_settle hpath)
  · obtain ⟨m, hpath, hl⟩ := Levels.exists_level_settle f.allFlows (Levels.ofFloors f.allFloors) n
    change f.solve.levels.level n = _ at hl
    rcases Levels.level_ofFloors f.allFloors m with hm | hm
    · exact .inl (hl.trans hm)
    · exact .inr ⟨m, hl ▸ hm, hpath⟩

/-- The names that hold a reference are those that direct holders lead to. -/
theorem mem_holders_solve : n ∈ f.solve.holders ↔
    ∃ h ∈ f.holders, ReflTransGen (fun a b => (a, b) ∈ f.aliases) h n := by
  change n ∈ Holders.settle f.aliases (f.holders.foldl Holders.add []) ↔ _
  simp [Holders.mem_settle_iff, Holders.mem_foldl_add]

/-- The same findings, recorded in another order. Which scope an object was registered to last is the
same. -/
structure Reorders (f g : Findings) : Prop where
  floors : f.floors.Perm g.floors
  flows : f.flows.Perm g.flows
  aliases : f.aliases.Perm g.aliases
  stores : f.stores.Perm g.stores
  holders : f.holders.Perm g.holders
  scopes : f.scopes = g.scopes

theorem Reorders.allFlows (h : f.Reorders g) : (a, b) ∈ f.allFlows ↔ (a, b) ∈ g.allFlows := by
  simp only [mem_allFlows, sameScope_iff, h.flows.mem_iff, h.stores.mem_iff, h.scopes]

theorem Reorders.allFloors (h : f.Reorders g) : (n, l) ∈ f.allFloors ↔ (n, l) ∈ g.allFloors := by
  simp only [mem_allFloors, sameScope_iff, h.floors.mem_iff, h.stores.mem_iff, h.scopes]

theorem Reorders.level_solve (h : f.Reorders g) (n : String) :
    f.solve.levels.level n = g.solve.levels.level n := by
  refine IsFarthest.unique (Findings.level_solve f n) ?_
  simp only [h.allFlows, h.allFloors]
  exact Findings.level_solve g n

theorem Reorders.mem_holders (h : f.Reorders g) : n ∈ f.solve.holders ↔ n ∈ g.solve.holders := by
  simp only [mem_holders_solve, h.holders.mem_iff, h.aliases.mem_iff]

/-- Findings of one kind are kept in a list of their own. -/
theorem mem_foldl_add {α : Type} {part : Findings → List α} {kind : α → Finding}
    (hadd : ∀ f x a, a ∈ part (f.add x) ↔ a ∈ part f ∨ x = kind a) {l : List Finding} {a : α} :
    a ∈ part (l.foldl add f) ↔ a ∈ part f ∨ kind a ∈ l := by
  induction l generalizing f with
  | nil => simp
  | cons x rest ih => rw [List.foldl_cons, ih, hadd, List.mem_cons, or_assoc, eq_comm (a := x)]

end Findings

/-! ### The findings of instructions -/

section

variable {pureCalls : Bool} {l : List Instr} {a b n : String}

/-- Some instruction of the list, or nested in one of them, says so. -/
def Says (pureCalls : Bool) (l : List Instr) (x : Finding) : Prop :=
  ∃ i ∈ Instr.preorderAll l, x ∈ i.findings pureCalls

/-- Both names were registered to the same scope, each the last time it was registered. -/
def Together (l : List Instr) (a b : String) : Prop :=
  ∃ k, RegisteredLast (Instr.preorderAll l) a k ∧ RegisteredLast (Instr.preorderAll l) b k

/-- The level of `a` is passed on to `b`: by a flow, or by a store within one scope. -/
def Passes (pureCalls : Bool) (l : List Instr) (a b : String) : Prop :=
  Says pureCalls l (.flow a b) ∨ Says pureCalls l (.store a b) ∧ Together l a b

/-- A name escapes at least that far: by a floor, or because it is stored across scopes. -/
def Bounds (pureCalls : Bool) (l : List Instr) (n : String) (level : EscapeLevel) : Prop :=
  Says pureCalls l (.floor n level) ∨
    level = .global ∧ ∃ v, Says pureCalls l (.store v n) ∧ ¬ Together l v n

theorem mem_ofInstrs {α : Type} (part : Findings → List α) (kind : α → Finding)
    (hadd : ∀ f x a, a ∈ part (f.add x) ↔ a ∈ part f ∨ x = kind a)
    (hempty : part { scopes := .empty } = []) (x : α) :
    x ∈ part (.ofInstrs pureCalls l) ↔ Says pureCalls l (kind x) := by
  unfold Findings.ofInstrs Says
  rw [Findings.mem_foldl_add hadd, hempty, List.mem_flatMap]
  simp

variable {level : EscapeLevel}

theorem mem_floors_ofInstrs :
    (n, level) ∈ (Findings.ofInstrs pureCalls l).floors ↔ Says pureCalls l (.floor n level) :=
  mem_ofInstrs Findings.floors (fun x => .floor x.1 x.2)
    (fun f x a => by cases x <;> simp [Findings.add, Prod.ext_iff, eq_comm]) rfl (n, level)

theorem mem_flows_ofInstrs :
    (a, b) ∈ (Findings.ofInstrs pureCalls l).flows ↔ Says pureCalls l (.flow a b) :=
  mem_ofInstrs Findings.flows (fun x => .flow x.1 x.2)
    (fun f x a => by cases x <;> simp [Findings.add, Prod.ext_iff, eq_comm]) rfl (a, b)

theorem mem_stores_ofInstrs :
    (a, b) ∈ (Findings.ofInstrs pureCalls l).stores ↔ Says pureCalls l (.store a b) :=
  mem_ofInstrs Findings.stores (fun x => .store x.1 x.2)
    (fun f x a => by cases x <;> simp [Findings.add, Prod.ext_iff, eq_comm]) rfl (a, b)

theorem mem_aliases_ofInstrs :
    (a, b) ∈ (Findings.ofInstrs pureCalls l).aliases ↔ Says pureCalls l (.aliasing a b) :=
  mem_ofInstrs Findings.aliases (fun x => .aliasing x.1 x.2)
    (fun f x a => by cases x <;> simp [Findings.add, Prod.ext_iff, eq_comm]) rfl (a, b)

theorem mem_holders_ofInstrs :
    n ∈ (Findings.ofInstrs pureCalls l).holders ↔ Says pureCalls l (.holder n) :=
  mem_ofInstrs Findings.holders .holder
    (fun f x a => by cases x <;> simp [Findings.add, eq_comm]) rfl n

/-- A later registration replaces an earlier one. -/
theorem scopes_ofInstrs {object scope : String} :
    (Findings.ofInstrs pureCalls l).scopes.get? object = some scope ↔
      RegisteredLast (Instr.preorderAll l) object scope := by
  constructor
  · intro h
    rcases registeredLast_of_scopes { scopes := .empty } h with h | ⟨h, _⟩
    · exact h
    · cases h
  · rintro ⟨before, i, after, hl, hi, hafter⟩
    unfold Findings.ofInstrs
    rw [hl, List.flatMap_append, List.flatMap_cons, findings_of_registers hi, List.foldl_append,
      List.singleton_append, List.foldl_cons, scopes_foldl_add]
    · exact FinMap.get?_insert_self _ object scope
    · intro other hmem
      obtain ⟨j, hj, hmem⟩ := List.mem_flatMap.1 hmem
      exact hafter j hj other (registers_of_mem_findings hmem)

theorem sameScope_ofInstrs :
    (Findings.ofInstrs pureCalls l).sameScope a b = true ↔ Together l a b := by
  simp only [Findings.sameScope_iff, scopes_ofInstrs, Together]

theorem mem_allFlows_ofInstrs :
    (a, b) ∈ (Findings.ofInstrs pureCalls l).allFlows ↔ Passes pureCalls l a b := by
  simp only [Findings.mem_allFlows, mem_flows_ofInstrs, mem_stores_ofInstrs, sameScope_ofInstrs,
    Passes]

theorem mem_allFloors_ofInstrs :
    (n, level) ∈ (Findings.ofInstrs pureCalls l).allFloors ↔ Bounds pureCalls l n level := by
  simp only [Findings.mem_allFloors, mem_floors_ofInstrs, mem_stores_ofInstrs, sameScope_ofInstrs,
    Bounds]

end

/-- The analysis of any instructions finds the least solution. A name escapes as far as the farthest
floor of a name that leads to it, and holds a reference if an alias path leads to it from a name that was
found to hold one. Both searches end, within a number of passes that the number of edges bounds, and the
same findings in another order have the same solution. -/
theorem solve_least (pureCalls : Bool) (l : List Instr) :
    (∀ n, IsFarthest
      (fun level => ∃ m, Bounds pureCalls l m level ∧ ReflTransGen (Passes pureCalls l) m n)
      ((Findings.ofInstrs pureCalls l).solve.levels.level n)) ∧
    (∀ n, n ∈ (Findings.ofInstrs pureCalls l).solve.holders ↔
      ∃ h, Says pureCalls l (.holder h) ∧
        ReflTransGen (fun a b => Says pureCalls l (.aliasing a b)) h n) ∧
    (let f := Findings.ofInstrs pureCalls l
     untilStable (Levels.pass f.allFlows) (2 * f.allFlows.length + 1) (Levels.ofFloors f.allFloors) =
       some f.solve.levels ∧
     untilStable (Holders.pass f.aliases) (f.aliases.length + 1) (f.holders.foldl Holders.add []) =
       some f.solve.holders) ∧
    ∀ g, (Findings.ofInstrs pureCalls l).Reorders g → ∀ n,
      g.solve.levels.level n = (Findings.ofInstrs pureCalls l).solve.levels.level n ∧
      (n ∈ g.solve.holders ↔ n ∈ (Findings.ofInstrs pureCalls l).solve.holders) := by
  refine ⟨fun n => ?_, fun n => ?_, ⟨Levels.untilStable_pass _ _, Holders.untilStable_pass _ _⟩,
    fun g hg n => ⟨(hg.level_solve n).symm, hg.mem_holders.symm⟩⟩
  · have h := Findings.level_solve (.ofInstrs pureCalls l) n
    simpa only [mem_allFloors_ofInstrs, mem_allFlows_ofInstrs] using h
  · simp only [Findings.mem_holders_solve, mem_holders_ofInstrs, mem_aliases_ofInstrs]

end ScopedIR.Escape
