import ScopedIR.Call

/-!
# Assignability is reachability

A type that is expanded leaves the search with its edges, so a path that passes it again is found from
where it last leaves the type. Cycles and repeated edges do not matter.

Main statement: `isAssignable_iff_above`, with what it says about the effects of calls.
-/

namespace ScopedIR

namespace Hierarchy

variable {edges : List (String × String)} {a b c ty : String}

theorem mem_supertypesOf : b ∈ supertypesOf edges ty ↔ (ty, b) ∈ edges := by
  simp [supertypesOf]

theorem mem_edgesBeside : (a, b) ∈ edgesBeside edges ty ↔ (a, b) ∈ edges ∧ a ≠ ty := by
  simp [edgesBeside]

/-- A path beside a type is a path. -/
theorem Above.of_beside (h : Above (edgesBeside edges ty) a c) : Above edges a c := by
  induction h with
  | direct he => exact .direct (mem_edgesBeside.1 he).1
  | step he _ ih => exact .step (mem_edgesBeside.1 he).1 ih

/-- A path avoids the edges of a type, or what follows the last of them does. -/
theorem Above.beside (h : Above edges a c) (ty : String) :
    Above (edgesBeside edges ty) a c ∨ c ∈ supertypesOf edges ty ∨
      ∃ q ∈ supertypesOf edges ty, Above (edgesBeside edges ty) q c := by
  induction h with
  | @direct a c he =>
    by_cases ha : a = ty
    · subst ha
      exact .inr (.inl (mem_supertypesOf.2 he))
    · exact .inl (.direct (mem_edgesBeside.2 ⟨he, ha⟩))
  | @step a b c he _ ih =>
    rcases ih with hb | hlast
    · by_cases ha : a = ty
      · subst ha
        exact .inr (.inr ⟨b, mem_supertypesOf.2 he, hb⟩)
      · exact .inl (.step (mem_edgesBeside.2 ⟨he, ha⟩) hb)
    · exact .inr hlast

/-- The search finds its target exactly if it is pending or above a pending type. -/
theorem reaches_iff (target : String) (edges : List (String × String)) (pending : List String) :
    reaches target edges pending = true ↔
      target ∈ pending ∨ ∃ p ∈ pending, Above edges p target := by
  fun_induction reaches target edges pending with
  | case1 edges | case2 edges rest => simp
  | case3 edges ty rest hne ih =>
    rw [ih]
    constructor
    · rintro (ht | ⟨p, hp, habove⟩)
      · rcases List.mem_append.1 ht with hs | hr
        · exact .inr ⟨ty, List.mem_cons_self, .direct (mem_supertypesOf.1 hs)⟩
        · exact .inl (List.mem_cons_of_mem _ hr)
      · rcases List.mem_append.1 hp with hs | hr
        · exact .inr ⟨ty, List.mem_cons_self, .step (mem_supertypesOf.1 hs) habove.of_beside⟩
        · exact .inr ⟨p, List.mem_cons_of_mem _ hr, habove.of_beside⟩
    · rintro (ht | ⟨p, hp, habove⟩)
      · exact .inl (List.mem_append_right _ (List.mem_of_ne_of_mem (Ne.symm hne) ht))
      · rcases habove.beside ty with hp' | hs | ⟨q, hq, hq'⟩
        · rcases List.mem_cons.1 hp with rfl | hr
          -- No edge beside a type starts at it.
          · cases hp' with
            | direct he | step he _ => exact absurd rfl (mem_edgesBeside.1 he).2
          · exact .inr ⟨p, List.mem_append_right _ hr, hp'⟩
        · exact .inl (List.mem_append_left _ hs)
        · exact .inr ⟨q, List.mem_append_left _ hq, hq'⟩

/-- The built-in types with supertypes recorded one after the other. -/
def recorded (supers : List (String × String)) : Hierarchy :=
  supers.foldl (fun h e => h.addSupertype e.1 e.2) builtin

theorem edges_foldl_addSupertype (supers : List (String × String)) (h : Hierarchy) :
    (supers.foldl (fun h e => h.addSupertype e.1 e.2) h).edges = h.edges ++ supers := by
  induction supers generalizing h with
  | nil => exact (List.append_nil _).symm
  | cons e rest ih =>
    rw [List.foldl_cons, ih, addSupertype, List.append_assoc]
    rfl

theorem isAssignable_iff (h : Hierarchy) (sub sup : String) :
    h.isAssignable sub sup = true ↔ sub = sup ∨ sup = TypeName.any ∨ Above h.edges sub sup := by
  simp only [isAssignable, Bool.or_eq_true, decide_eq_true_eq, reaches_iff, List.mem_singleton,
    exists_eq_left]
  grind

end Hierarchy

/-- Whatever supertypes are recorded, a type can be used as another exactly if it is that type, or the
other takes everything, or the recorded edges lead to it; and the facts of a call name input and output
exactly if its owner is that capability or the edges lead there. -/
theorem isAssignable_iff_above (supers : List (String × String)) :
    (∀ sub sup, (Hierarchy.recorded supers).isAssignable sub sup = true ↔
      sub = sup ∨ sup = TypeName.any ∨
        Hierarchy.Above (Hierarchy.builtin.edges ++ supers) sub sup) ∧
    ∀ s : Symbol,
      SideEffect.io ∈ (CallFacts.ofSymbol (Hierarchy.recorded supers).isAssignable s).effects ↔
        s.owner = TypeName.io ∨
          Hierarchy.Above (Hierarchy.builtin.edges ++ supers) s.owner TypeName.io := by
  have hiff := (Hierarchy.recorded supers).isAssignable_iff
  rw [Hierarchy.recorded, Hierarchy.edges_foldl_addSupertype, ← Hierarchy.recorded] at hiff
  refine ⟨hiff, fun s => ?_⟩
  have hio : SideEffect.io ∈ (CallFacts.ofSymbol (Hierarchy.recorded supers).isAssignable s).effects ↔
      (Hierarchy.recorded supers).isAssignable s.owner TypeName.io = true := by
    simp [CallFacts.effects, CallFacts.ofSymbol]
  have hany : TypeName.io ≠ TypeName.any := by decide
  rw [hio, hiff]
  simp only [hany, false_or]

end ScopedIR
