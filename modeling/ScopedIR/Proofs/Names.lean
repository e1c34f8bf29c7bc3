import ScopedIR.Proofs.Generation
import Mathlib.Data.List.Nodup
import Mathlib.Data.List.Perm.Basic

/-!
# Fresh names

Lowering numbers its temporaries and scopes from one counter each. The names a piece of code binds,
and the scopes it enters, are collected from every depth; a piece that takes the counter from `a` to
`b` draws its names from the numbers in between, each at most once.

Main definitions: `binds` and `enters`, what code binds and enters at any depth, and `Numbered`.

Main statements: `Numbered.append`, and `not_isTemp_of_head`.
-/

namespace ScopedIR

/-- The name with a number. -/
def numbered (stem : String) (n : Nat) : String := stem ++ Nat.repr n

theorem numbered_injective (stem : String) {i j : Nat} (h : numbered stem i = numbered stem j) :
    i = j := by
  have hl := congrArg String.toList h
  simp only [numbered, String.toList_append] at hl
  have hd := congrArg (fun ds => Nat.ofDigitChars 10 ds 0) (List.append_cancel_left hl)
  simpa [Nat.repr_eq_ofList_toDigits] using hd

/-- A name of the form that temporaries have. -/
def IsTemp (x : String) : Prop := ∃ n, x = numbered "_temp" n

theorem isTemp_temp (s : Lowering.State) : IsTemp s.temp.1 := ⟨s.temps + 1, rfl⟩

variable {x : String}

/-- A name that does not begin like a temporary is none. -/
theorem not_isTemp_of_head (h : x.toList.head? ≠ some '_') : ¬ IsTemp x := by
  rintro ⟨n, rfl⟩
  apply h
  simp [numbered]

/-- A temporary has no dot in its name. -/
theorem IsTemp.dot_notMem (h : IsTemp x) : '.' ∉ x.toList := by
  obtain ⟨n, rfl⟩ := h
  intro hd
  simp only [numbered, Nat.repr_eq_ofList_toDigits, String.toList_append, String.toList_ofList,
    List.mem_append] at hd
  rcases hd with hd | hd
  · revert hd
    decide
  · have := Nat.isDigit_of_mem_toDigits (by omega) (by omega) hd
    revert this
    decide

/-- A name that no temporary has and that leads to no field. -/
def Ordinary (x : String) : Prop := ¬ IsTemp x ∧ '.' ∉ x.toList

/-! ### Names numbered in an interval -/

/-- The names are different, and each has a number after `a` and up to `b`. -/
structure Numbered (stem : String) (a b : Nat) (l : List String) : Prop where
  le : a ≤ b
  nodup : l.Nodup
  mem : ∀ x ∈ l, ∃ n, a < n ∧ n ≤ b ∧ x = numbered stem n

namespace Numbered

variable {stem : String} {a b c : Nat} {l r : List String}

theorem nil (h : a ≤ b) : Numbered stem a b [] := ⟨h, List.nodup_nil, by simp⟩

theorem single (stem : String) (a : Nat) : Numbered stem a (a + 1) [numbered stem (a + 1)] where
  le := by omega
  nodup := by simp
  mem := by
    intro x hx
    exact ⟨a + 1, by omega, by omega, by simpa using hx⟩

theorem perm (h : Numbered stem a b l) (p : l.Perm r) : Numbered stem a b r :=
  ⟨h.le, p.nodup_iff.1 h.nodup, fun x hx => h.mem x (p.mem_iff.2 hx)⟩

/-- Names of one interval and names of the next are all different. -/
theorem append (hl : Numbered stem a b l) (hr : Numbered stem b c r) :
    Numbered stem a c (l ++ r) where
  le := Nat.le_trans hl.le hr.le
  nodup := by
    refine List.nodup_append.2 ⟨hl.nodup, hr.nodup, ?_⟩
    rintro x hx y hy rfl
    obtain ⟨n, -, hn, rfl⟩ := hl.mem x hx
    obtain ⟨m, hm, -, hnm⟩ := hr.mem _ hy
    have := numbered_injective stem hnm
    omega
  mem := by
    intro x hx
    have := hl.le
    have := hr.le
    rcases List.mem_append.1 hx with hx | hx
    · obtain ⟨n, hn, hn', rfl⟩ := hl.mem x hx
      exact ⟨n, hn, by omega, rfl⟩
    · obtain ⟨n, hn, hn', rfl⟩ := hr.mem x hx
      exact ⟨n, by omega, hn', rfl⟩

end Numbered

theorem Numbered.isTemp {a b : Nat} {l : List String} (h : Numbered "_temp" a b l) (hx : x ∈ l) :
    IsTemp x := by
  obtain ⟨n, -, -, rfl⟩ := h.mem x hx
  exact ⟨n, rfl⟩

/-! ### What code binds and enters -/

namespace Instr

variable {f : Instr → List String}

/-- What `f` says of the instructions of a list and of everything nested in them. -/
def gather (f : Instr → List String) (l : List Instr) : List String := (preorderAll l).flatMap f

theorem gather_append (l r : List Instr) : gather f (l ++ r) = gather f l ++ gather f r := by
  simp [gather, preorderAll]

theorem gather_cons (i : Instr) (l : List Instr) :
    gather f (i :: l) = f i ++ gather f i.lists.flatten ++ gather f l := by
  have h : i.lists.flatMap (fun l => l.flatMap preorder) = preorderAll i.lists.flatten := by
    simp [preorderAll, List.flatMap, List.map_flatten, List.flatten_flatten, Function.comp_def]
  simp only [gather, preorderAll, List.flatMap_cons, List.flatMap_append]
  rw [preorder_eq, h]
  simp [preorderAll]

/-- The names bound by an instruction itself: its result, and the exception of a try chain. -/
def ownBinds (i : Instr) : List String :=
  i.result.toList ++ ((i.chain?.bind (·.tryBlock)).map (·.exception)).toList

/-- The scope an instruction itself enters. -/
def ownEnters (i : Instr) : List String :=
  if i.opcode = .scopeEnter then (i.operand? 0).toList else []

end Instr

open Instr

/-- The names that code binds at any depth, apart from variables. -/
def binds (l : List Instr) : List String := gather ownBinds l

/-- The scopes that code enters at any depth. -/
def enters (l : List Instr) : List String := gather ownEnters l

@[simp] theorem binds_nil : binds [] = [] := rfl

@[simp] theorem enters_nil : enters [] = [] := rfl

theorem binds_append (l r : List Instr) : binds (l ++ r) = binds l ++ binds r := gather_append l r

theorem enters_append (l r : List Instr) : enters (l ++ r) = enters l ++ enters r :=
  gather_append l r

theorem binds_cons (i : Instr) (l : List Instr) :
    binds (i :: l) = ownBinds i ++ binds i.lists.flatten ++ binds l := gather_cons i l

theorem enters_cons (i : Instr) (l : List Instr) :
    enters (i :: l) = ownEnters i ++ enters i.lists.flatten ++ enters l := gather_cons i l

section Forms

variable (location : Option Location) (opcode : Opcode) (operands : List String)
  (result : Option String) (site : CallSite) (c : Chain Instr) (t : String) (b : LogicalBlock Instr)

@[simp] theorem lists_simple : (simple location opcode operands result).lists = [] := rfl

@[simp] theorem lists_calling : (calling location opcode result site).lists = [] := rfl

@[simp] theorem lists_chained : (chained location c).lists = c.lists := rfl

@[simp] theorem lists_logicalBlock :
    (logicalBlock location t b).lists = [b.leftEvaluation, b.rightEvaluation, b.computation] := rfl

@[simp] theorem ownBinds_simple :
    ownBinds (simple location opcode operands result) = result.toList := by
  simp [ownBinds, simple, chain?]

@[simp] theorem ownBinds_calling :
    ownBinds (calling location opcode result site) = result.toList := by
  simp [ownBinds, calling, chain?]

@[simp] theorem ownBinds_chained :
    ownBinds (chained location c) = c.result.toList ++ (c.tryBlock.map (·.exception)).toList := by
  simp [ownBinds, chained, chain?]

@[simp] theorem ownBinds_logicalBlock : ownBinds (logicalBlock location t b) = [t] := by
  simp [ownBinds, logicalBlock, chain?]

theorem ownEnters_simple : ownEnters (simple location opcode operands result) =
    if opcode = .scopeEnter then operands.head?.toList else [] := by
  rw [List.head?_eq_getElem?]
  rfl

@[simp] theorem ownEnters_chained : ownEnters (chained location c) = [] := rfl

@[simp] theorem ownEnters_logicalBlock : ownEnters (logicalBlock location t b) = [] := by
  cases h : b.op <;> simp [ownEnters, logicalBlock, logicalOpcode, h]

end Forms

end ScopedIR
