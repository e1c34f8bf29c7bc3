import Mathlib.Data.Set.Card
import ScopedIR.Operator

/-!
# One-to-one maps stay one-to-one

A one-to-one map holds its pairs twice, and storing one pair may drop two others. Whatever is stored,
and in whatever order, its two directions hold the same pairs: the ones that were stored and that no
later pair contradicts.

Main definitions:

* `Bijection.OneToOne`: both directions hold the same pairs;
* `Bijection.Survives`: a pair is stored and never contradicted later.

Main statement: `ofList_pairs`, for every sequence of stored pairs.
-/

namespace ScopedIR

variable {κ ν : Type} [DecidableEq κ] [DecidableEq ν]

namespace Bijection

/-- Both directions hold the same pairs, and no left side has two of them. -/
structure OneToOne (m : Bijection κ ν) : Prop where
  inverse : ∀ k v, m.get? k = some v ↔ m.getRev? v = some k
  keys : m.map.keys.Nodup

/-- The pair is stored, and every later pair has either both of its sides or none. -/
def Survives (history : List (κ × ν)) (k : κ) (v : ν) : Prop :=
  ∃ before after, history = before ++ (k, v) :: after ∧ ∀ p ∈ after, p.1 = k ↔ p.2 = v

variable {m : Bijection κ ν} {k : κ} {v : ν}

omit [DecidableEq ν] in
theorem get?_erase_eq_some {m : FinMap κ ν} {a : κ} {b : ν} :
    (m.erase k).get? a = some b ↔ a ≠ k ∧ m.get? a = some b := by
  rw [FinMap.get?_erase]
  by_cases h : k = a <;> simp [h, eq_comm]

/-- Two pairs share both sides or none. -/
theorem OneToOne.eq_iff (h : m.OneToOne) {a : κ} {b : ν} (hk : m.get? k = some v)
    (ha : m.get? a = some b) : a = k ↔ b = v := by
  constructor
  · rintro rfl
    exact Option.some.inj (ha.symm.trans hk)
  · rintro rfl
    exact Option.some.inj (((h.inverse a b).1 ha).symm.trans ((h.inverse k b).1 hk))

/-- Another pair than one that is stored differs from it on either side. -/
theorem OneToOne.ne_iff (h : m.OneToOne) (hk : m.get? k = some v) (a : κ) (b : ν) :
    (a ≠ k ∧ m.get? a = some b) ↔ (b ≠ v ∧ m.get? a = some b) :=
  and_congr_left fun ha => not_congr (h.eq_iff hk ha)

/-- Dropping a pair from both maps leaves the others. -/
theorem OneToOne.erase (h : m.OneToOne) (hk : m.get? k = some v) :
    OneToOne ⟨m.map.erase k, m.rev.erase v⟩ where
  inverse a b := by
    refine get?_erase_eq_some.trans ((h.ne_iff hk a b).trans ?_)
    rw [h.inverse a b]
    exact get?_erase_eq_some.symm
  keys := FinMap.nodup_keys_erase h.keys k

theorem OneToOne.dropLeft (h : m.OneToOne) (k : κ) :
    (m.dropLeft k).OneToOne ∧
      ∀ a b, (m.dropLeft k).get? a = some b ↔ a ≠ k ∧ m.get? a = some b := by
  unfold Bijection.dropLeft
  split
  · next v hk => exact ⟨h.erase hk, fun a b => get?_erase_eq_some⟩
  · next hk =>
    refine ⟨h, fun a b => ⟨fun ha => ⟨?_, ha⟩, And.right⟩⟩
    rintro rfl
    cases hk.symm.trans ha

theorem OneToOne.dropRight (h : m.OneToOne) (v : ν) :
    (m.dropRight v).OneToOne ∧
      ∀ a b, (m.dropRight v).get? a = some b ↔ b ≠ v ∧ m.get? a = some b := by
  unfold Bijection.dropRight
  split
  · next k hv =>
    have hk : m.get? k = some v := (h.inverse k v).2 hv
    exact ⟨h.erase hk, fun a b => get?_erase_eq_some.trans (h.ne_iff hk a b)⟩
  · next hv =>
    refine ⟨h, fun a b => ⟨fun ha => ⟨?_, ha⟩, And.right⟩⟩
    rintro rfl
    cases hv.symm.trans ((h.inverse a b).1 ha)

/-- One step: storing a pair drops the pairs that share one side with it, and no others. -/
theorem OneToOne.insert (h : m.OneToOne) (k : κ) (v : ν) :
    (m.insert k v).OneToOne ∧ ∀ a b, (m.insert k v).get? a = some b ↔
      (a = k ∧ b = v) ∨ (a ≠ k ∧ b ≠ v ∧ m.get? a = some b) := by
  obtain ⟨hleft, hget⟩ := h.dropLeft k
  obtain ⟨hrest, hget'⟩ := hleft.dropRight v
  have hpairs : ∀ a b, ((m.dropLeft k).dropRight v).get? a = some b ↔
      b ≠ v ∧ a ≠ k ∧ m.get? a = some b := fun a b => by rw [hget', hget]
  have hmap : ∀ a b, (m.insert k v).get? a = some b ↔
      (a = k ∧ b = v) ∨ (a ≠ k ∧ b ≠ v ∧ m.get? a = some b) := by
    intro a b
    change (((m.dropLeft k).dropRight v).map.insert k v).get? a = some b ↔ _
    rw [FinMap.get?_insert]
    by_cases ha : k = a
    · simp [ha, eq_comm]
    · rw [if_neg ha]
      refine (hpairs a b).trans ?_
      simp [Ne.symm ha]
  refine ⟨⟨fun a b => ?_, FinMap.nodup_keys_insert hrest.keys k v⟩, hmap⟩
  rw [hmap]
  change _ ↔ (((m.dropLeft k).dropRight v).rev.insert v k).get? b = some a
  rw [FinMap.get?_insert]
  by_cases hb : v = b
  · simp [hb, eq_comm]
  · rw [if_neg hb]
    refine Iff.trans ?_ ((hpairs a b).symm.trans (hrest.inverse a b))
    simp [Ne.symm hb]

omit [DecidableEq ν] in
theorem survives_concat {history : List (κ × ν)} {a : κ} {b : ν} :
    Survives (history ++ [(k, v)]) a b ↔
      (a = k ∧ b = v) ∨ (a ≠ k ∧ b ≠ v ∧ Survives history a b) := by
  constructor
  · rintro ⟨before, after, he, hafter⟩
    rcases List.eq_nil_or_concat after with rfl | ⟨after, last, rfl⟩
    · obtain ⟨-, hlast⟩ := List.append_inj' he rfl
      cases hlast
      exact .inl ⟨rfl, rfl⟩
    · rw [List.concat_eq_append, ← List.cons_append, ← List.append_assoc] at he
      obtain ⟨rfl, hlast⟩ := List.append_inj' he rfl
      cases hlast
      have hboth : k = a ↔ v = b := hafter (k, v) (by simp)
      by_cases ha : a = k
      · exact .inl ⟨ha, (hboth.1 ha.symm).symm⟩
      · refine .inr ⟨ha, fun hb => ha (hboth.2 hb.symm).symm, before, after, rfl, fun p hp => ?_⟩
        exact hafter p (by simp [hp])
  · rintro (⟨rfl, rfl⟩ | ⟨ha, hb, before, after, rfl, hafter⟩)
    · exact ⟨history, [], rfl, by simp⟩
    · refine ⟨before, after ++ [(k, v)], by simp, fun p hp => ?_⟩
      rcases List.mem_append.1 hp with hp | hp
      · exact hafter p hp
      · obtain rfl := List.mem_singleton.1 hp
        exact ⟨fun h => absurd h.symm ha, fun h => absurd h.symm hb⟩

/-- A whole sequence, by induction on how many pairs were stored. -/
theorem oneToOne_ofList (history : List (κ × ν)) :
    (ofList history).OneToOne ∧
      ∀ k v, (ofList history).get? k = some v ↔ Survives history k v := by
  induction history using List.reverseRecOn with
  | nil =>
    refine ⟨⟨fun k v => ⟨nofun, nofun⟩, List.nodup_nil⟩, fun k v => ⟨nofun, ?_⟩⟩
    rintro ⟨before, after, he, -⟩
    cases before <;> cases he
  | append_singleton history p ih =>
    have hstep : ofList (history ++ [p]) = (ofList history).insert p.1 p.2 := by
      simp [ofList, List.foldl_append]
    obtain ⟨hone, hpairs⟩ := ih.1.insert p.1 p.2
    rw [hstep]
    refine ⟨hone, fun k v => (hpairs k v).trans ?_⟩
    rw [ih.2, survives_concat]

/-- The pairs that are stored, counted. -/
theorem OneToOne.encard (h : m.OneToOne) :
    {p : κ × ν | m.get? p.1 = some p.2}.encard = m.size := by
  have hset : {p : κ × ν | m.get? p.1 = some p.2} = (m.map.entries.toFinset : Set (κ × ν)) := by
    ext p
    rw [List.coe_toFinset]
    exact FinMap.get?_eq_some_iff h.keys
  have hnodup : m.map.entries.Nodup := .of_map _ h.keys
  rw [hset, Set.encard_coe_eq_coe_finsetCard, List.toFinset_card_of_nodup hnodup]
  rfl

end Bijection

/-- After storing any sequence of pairs the two directions are inverse to each other, as many pairs
are counted as there are, and a pair is there just if it was stored and no later one contradicts it.
So an operator stands for a method just if the method implements the operator, and every operator of
the table stands for its method. -/
theorem ofList_pairs (history : List (κ × ν)) :
    (∀ k v, (Bijection.ofList history).get? k = some v ↔
        (Bijection.ofList history).getRev? v = some k) ∧
      {p : κ × ν | (Bijection.ofList history).get? p.1 = some p.2}.encard =
        (Bijection.ofList history).size ∧
      (∀ k v, (Bijection.ofList history).get? k = some v ↔ Bijection.Survives history k v) ∧
      (∀ symbol method, Operator.methodFor? symbol = some method ↔
        Operator.symbolFor? method = some symbol) ∧
      ∀ o ∈ Operator.all, Operator.methodFor? o.symbol = some o.method := by
  obtain ⟨hone, hpairs⟩ := Bijection.oneToOne_ofList history
  refine ⟨hone.inverse, hone.encard, hpairs, ?_, by decide +kernel⟩
  exact (Bijection.oneToOne_ofList _).1.inverse

end ScopedIR
