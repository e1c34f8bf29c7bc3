import ScopedIR.TypeName

/-!
# Type hierarchies

Which types can be used where others are expected. A hierarchy is a list of recorded edges from a
type to one of its supertypes; it may hold cycles and repeated edges.

Main definitions:

* `Hierarchy.isAssignable`: the search for a supertype;
* `Hierarchy.Above`: the relation the search decides.
-/

namespace ScopedIR

/-- Answers whether a value of the first type can be used where the second is expected. -/
abbrev TypeOracle := String → String → Bool

/-- The recorded pairs of a type and a direct supertype, in the order of recording. -/
structure Hierarchy where
  edges : List (String × String) := []
deriving DecidableEq, Inhabited

namespace Hierarchy

/-- Record that `supertype` is a supertype of `ty`. -/
def addSupertype (h : Hierarchy) (ty supertype : String) : Hierarchy :=
  ⟨h.edges ++ [(ty, supertype)]⟩

/-- The built-in types: both output streams have the capability of input and output. -/
def builtin : Hierarchy :=
  ⟨[(TypeName.stdout, TypeName.io), (TypeName.stderr, TypeName.io)]⟩

variable (edges : List (String × String))

/-- The built-in types with further edges. -/
def extend : Hierarchy := ⟨builtin.edges ++ edges⟩

/-- Reachability through one or more recorded edges. -/
inductive Above (edges : List (String × String)) : String → String → Prop
  | direct {a b : String} : (a, b) ∈ edges → Above edges a b
  | step {a b c : String} : (a, b) ∈ edges → Above edges b c → Above edges a c

/-- The direct supertypes of `ty`, in the order of recording. -/
def supertypesOf (ty : String) : List String :=
  (edges.filter fun e => e.1 = ty).map (·.2)

/-- The edges that do not start at `ty`. -/
def edgesBeside (ty : String) : List (String × String) :=
  edges.filter fun e => e.1 ≠ ty

theorem length_edgesBeside_add (ty : String) :
    (edgesBeside edges ty).length + (supertypesOf edges ty).length = edges.length := by
  induction edges with
  | nil => rfl
  | cons e rest ih =>
    simp only [edgesBeside, supertypesOf, List.length_map] at ih ⊢
    by_cases h : e.1 = ty
    · simp only [List.filter_cons, h, ne_eq, not_true_eq_false, decide_false, Bool.false_eq_true,
        if_false, decide_true, if_true, List.length_cons] at ih ⊢
      omega
    · simp only [List.filter_cons, h, ne_eq, not_false_eq_true, decide_true, if_true,
        decide_false, Bool.false_eq_true, if_false, List.length_cons] at ih ⊢
      omega

/-- Whether `target` is among the pending types or above one of them. Each type is expanded once:
its edges leave the search together. -/
def reaches (target : String) (edges : List (String × String)) (pending : List String) : Bool :=
  match pending with
  | [] => false
  | ty :: rest =>
    if ty = target then true
    else reaches target (edgesBeside edges ty) (supertypesOf edges ty ++ rest)
termination_by edges.length + pending.length
decreasing_by
  have := length_edgesBeside_add edges ty
  simp only [List.length_append, List.length_cons]
  omega

/-- Whether a value of type `sub` can be used where `sup` is expected. -/
def isAssignable (h : Hierarchy) : TypeOracle := fun sub sup =>
  sub = sup || sup = TypeName.any || reaches sup h.edges [sub]

end Hierarchy

end ScopedIR
