/-!
# Finite maps

A finite map is an association list; the entry stored last stands first. Lookups see the first
entry of a key, and storing a key removes its older entry, so a map keeps one entry per key.

Main statements:

* `get?_insert`: a stored key is found, and every other key is looked up as before;
* `get?_erase`: an erased key is gone, and every other key is looked up as before.
-/

namespace ScopedIR

/-- A finite map from keys of type `κ` to values of type `α`. -/
structure FinMap (κ α : Type) where
  /-- The stored pairs, the latest first. -/
  entries : List (κ × α) := []
deriving DecidableEq, Inhabited

namespace FinMap

variable {κ α : Type}

/-- The map without entries. -/
def empty : FinMap κ α := ⟨[]⟩

instance : EmptyCollection (FinMap κ α) := ⟨empty⟩

variable (m : FinMap κ α)

/-- The keys of the map, the latest first. -/
def keys : List κ := m.entries.map (·.1)

/-- The values of the map, the latest first. -/
def values : List α := m.entries.map (·.2)

/-- The number of entries. -/
def size : Nat := m.entries.length

variable [DecidableEq κ]

/-- The value of the first pair with key `k`. -/
def find (k : κ) : List (κ × α) → Option α
  | [] => none
  | (k', v) :: rest => if k' = k then some v else find k rest

/-- The pairs without the first one of key `k`. -/
def drop (k : κ) : List (κ × α) → List (κ × α)
  | [] => []
  | (k', v) :: rest => if k' = k then rest else (k', v) :: drop k rest

/-- The value stored under `k`. -/
def get? (k : κ) : Option α := find k m.entries

/-- Whether something is stored under `k`. -/
def contains (k : κ) : Bool := (m.get? k).isSome

/-- Store `v` under `k`, in place of what was there. -/
def insert (k : κ) (v : α) : FinMap κ α := ⟨(k, v) :: drop k m.entries⟩

/-- Forget what is stored under `k`. -/
def erase (k : κ) : FinMap κ α := ⟨m.entries.filter fun e => e.1 ≠ k⟩

theorem find_drop_ne {k a : κ} (h : k ≠ a) (l : List (κ × α)) : find a (drop k l) = find a l := by
  induction l with
  | nil => rfl
  | cons e rest ih =>
    obtain ⟨k', v⟩ := e
    by_cases hk : k' = k
    · subst hk
      simp [drop, find, h]
    · simp only [drop, hk, if_false, find, ih]

theorem get?_insert (k a : κ) (v : α) :
    (m.insert k v).get? a = if k = a then some v else m.get? a := by
  by_cases h : k = a
  · simp [insert, get?, find, h]
  · simp [insert, get?, find, h, find_drop_ne h]

@[simp] theorem get?_insert_self (k : κ) (v : α) :
    (m.insert k v).get? k = some v := by
  simp [get?_insert]

theorem get?_insert_ne {k a : κ} (h : k ≠ a) (v : α) :
    (m.insert k v).get? a = m.get? a := by
  simp [get?_insert, h]

/-- What holds of a new entry and of all the others. -/
theorem forall_insert {m : FinMap κ α} {P : κ → α → Prop} {k : κ} {v : α} (hk : P k v)
    (h : ∀ a w, m.get? a = some w → P a w) : ∀ a w, (m.insert k v).get? a = some w → P a w := by
  intro a w ha
  rw [get?_insert] at ha
  split at ha
  · next hka => exact hka ▸ Option.some.inj ha ▸ hk
  · exact h a w ha

theorem find_filter_ne (k a : κ) (l : List (κ × α)) :
    find a (l.filter fun e => e.1 ≠ k) = if k = a then none else find a l := by
  induction l with
  | nil => simp [find]
  | cons e rest ih =>
    obtain ⟨k', v⟩ := e
    by_cases hk : k' = k
    · subst hk
      simp only [List.filter_cons, ne_eq, not_true_eq_false, decide_false, Bool.false_eq_true,
        if_false, ih, find]
      by_cases ha : k' = a <;> simp [ha]
    · by_cases ha : k' = a
      · subst ha
        have hne : ¬k = k' := fun h => hk h.symm
        simp [find, hk, hne]
      · simp only [List.filter_cons, ne_eq, hk, not_false_eq_true, decide_true, if_true, find, ha,
          if_false]
        exact ih

theorem get?_erase (k a : κ) :
    (m.erase k).get? a = if k = a then none else m.get? a :=
  find_filter_ne k a m.entries

/-! ### One entry per key -/

variable {k : κ} {entries : List (κ × α)} {m : FinMap κ α}

theorem filter_ne_of_notMem (hk : k ∉ entries.map (·.1)) :
    entries.filter (fun e => e.1 ≠ k) = entries := by
  refine List.filter_eq_self.2 fun e he => ?_
  have : e.1 ≠ k := fun h => hk (h ▸ List.mem_map_of_mem he)
  simpa using this

theorem drop_eq_filter (hk : (entries.map (·.1)).Nodup) :
    drop k entries = entries.filter fun e => e.1 ≠ k := by
  induction entries with
  | nil => rfl
  | cons e rest ih =>
    obtain ⟨hnot, hk⟩ := List.nodup_cons.1 hk
    by_cases hf : e.1 = k
    · subst hf
      simp only [drop, if_true, List.filter_cons, ne_eq, not_true_eq_false, decide_false,
        Bool.false_eq_true, if_false]
      exact (filter_ne_of_notMem hnot).symm
    · simp [drop, hf, ih hk]

theorem nodup_keys_insert (hm : m.keys.Nodup) (k : κ) (v : α) : (m.insert k v).keys.Nodup := by
  simp only [insert, keys, drop_eq_filter hm, List.map_cons]
  refine List.nodup_cons.2 ⟨?_, hm.sublist (List.filter_sublist.map _)⟩
  simp

theorem nodup_keys_erase (hm : m.keys.Nodup) (k : κ) : (m.erase k).keys.Nodup :=
  hm.sublist (List.filter_sublist.map _)

/-- Where no key has two entries, what is found is what is stored. -/
theorem get?_eq_some_iff (hm : m.keys.Nodup) {v : α} : m.get? k = some v ↔ (k, v) ∈ m.entries := by
  obtain ⟨entries⟩ := m
  unfold get?
  induction entries with
  | nil => simp [find]
  | cons e rest ih =>
    obtain ⟨k', v'⟩ := e
    obtain ⟨hnot, hrest⟩ := List.nodup_cons.1 hm
    simp only [find, List.mem_cons, Prod.mk.injEq]
    by_cases hk : k' = k
    · subst hk
      have hne : (k', v) ∉ rest := fun h => hnot (List.mem_map.2 ⟨_, h, rfl⟩)
      simp [hne, eq_comm]
    · have hne : ¬k = k' := fun h => hk h.symm
      rw [if_neg hk, ih hrest]
      simp [hne]

end FinMap

end ScopedIR
