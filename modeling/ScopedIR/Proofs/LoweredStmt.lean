import ScopedIR.Proofs.LoweredExceptions
import ScopedIR.Proofs.LoweredSwitch

/-!
# Lowered statements have the layout

Every statement and every block is lowered to code of the form `Emits`. Under a policy that asks for
names, the source must be well scoped. Under one that asks for held objects, the source must have
neither counting loops nor assignments to fields. Under one that asks for plain names, the source must
mention ordinary names only.

Main statements: `Stmt.stmtYields_lower` and `Stmt.blockYields_lowerBlock`, by recursion on the
source.
-/

namespace ScopedIR

open Lowering Gen Layout

namespace Layout

variable {π : Policy} {setting : Setting} {V N : List String} {d : Bool}

/-- Where a statement was written does not matter. -/
theorem StmtYields.located {token : Option Location} {g : Option Location → Gen Unit}
    (h : ∀ location, StmtYields π setting V N d (g location)) :
    StmtYields π setting V N d (Gen.location token >>= g) := by
  intro s Γ hF
  rw [ensures_bind, ensures_location]
  exact h _ s Γ hF

theorem Reads.of_ordinary {U : List String} (hn : π.named → U ⊆ V)
    (hp : π.plain → ∀ x ∈ U, Ordinary x) : Reads π U V :=
  ⟨hn, fun hs x hx ht => absurd ht (hp hs x hx).1⟩

theorem guardYields_lower {guard : Option Guard} (h : π.named → GuardIn V guard)
    (hp : π.plain → ∀ x ∈ Stmt.guardMentions guard, Ordinary x) :
    GuardYields π setting V (guard.map Guard.lower) := by
  intro g hg
  obtain ⟨guard, rfl, rfl⟩ := Option.map_eq_some_iff.1 hg
  simp only [Stmt.guardMentions, Option.map_some, Option.getD_some, List.forall_mem_cons] at hp
  exact ⟨⟨fun hs => (h hs guard rfl).1, fun hs => (hp hs).1⟩, guard.init.reads,
    .of_ordinary (fun hs => (h hs guard rfl).2) fun hs => (hp hs).2, guard.init.codeYields_lower⟩

theorem guardName_lower (guard : Option Guard) :
    guardName (guard.map Guard.lower) = guardNames guard := by
  cases guard <;> rfl

theorem testYields {test : SwitchTest} (h : π.named → test.ScopedIn V)
    (hp : π.plain → ∀ x ∈ Stmt.testReads test, Ordinary x) : TestYields π setting V test := by
  rintro e rfl
  exact ⟨e.reads, .of_ordinary h hp, e.codeYields_lower⟩

theorem reads_subset_of_forall {e : Option Expr} (h : ∀ x ∈ e, x.reads ⊆ V) :
    (e.map Expr.reads).getD [] ⊆ V := by
  cases e with
  | none => simp
  | some e => exact h e rfl

theorem codeYields_lower_map (e : Option Expr) :
    ∀ c ∈ e.map Expr.lower, CodeYields π setting ((e.map Expr.reads).getD []) c := by
  intro c hc
  obtain ⟨e, rfl, rfl⟩ := Option.map_eq_some_iff.1 hc
  exact e.codeYields_lower

theorem expr_yields {e : Expr} (h : Reads π e.reads V) :
    StmtYields π setting V [] false (e.lower.gen >>= fun _ => pure ()) := by
  intro s Γ hF
  obtain ⟨k, hk, -⟩ := hF.exists_current
  have hc : CodeYields π setting e.reads e.lower := e.codeYields_lower
  refine (hc s k hk).bind fun a s1 l hy => .pure ?_
  obtain ⟨Γ', hcalc, htail, hF', -, -⟩ := hF.calc_of_yields h hy
  exact ⟨Γ', by simpa using Laid.compute hcalc htail hy, fun _ => by simpa using hF'⟩

theorem BlockYields.nil : BlockYields π setting V (pure false) :=
  fun s Γ hF => .pure ⟨Γ, .nil Γ s, fun _ => ⟨[], by simpa using hF⟩⟩

theorem BlockYields.cons {g : Gen Unit} {rest : BlockCode} (hg : StmtYields π setting V N d g)
    (hr : BlockYields π setting (V ++ N) rest) :
    BlockYields π setting V (g >>= fun _ => if d then pure true else rest) := by
  intro s Γ hF
  refine (hg s Γ hF).bind ?_
  rintro _ s1 l1 ⟨Γ1, hlaid1, hF1⟩
  cases d with
  | true => exact .pure ⟨Γ1, by simpa using hlaid1, by simp⟩
  | false =>
    refine (hr s1 Γ1 (hF1 rfl)).mono ?_
    rintro d s2 l2 ⟨Γ2, hlaid2, hF2⟩
    refine ⟨Γ2, hlaid1.append hlaid2, fun hd => ?_⟩
    obtain ⟨N', hF2⟩ := hF2 hd
    exact ⟨N ++ N', by simpa using hF2⟩

end Layout

namespace Stmt

/-- A statement that is neither a counting loop nor an assignment to a field. -/
def Simple (s : Stmt) : Prop := s.isForRange = false ∧ s.isFieldAssignment = false

variable {π : Policy} {setting : Setting}

variable {V : List String}

/-- Names that are declared are no temporaries. -/
theorem notTemp_append {N : List String} (hV : ∀ x ∈ V, ¬ IsTemp x) (hN : ∀ x ∈ N, ¬ IsTemp x) :
    ∀ x ∈ V ++ N, ¬ IsTemp x := List.forall_mem_append.2 ⟨hV, hN⟩

theorem notTemp_guardNames {guard : Option Guard} (h : GuardIn V guard) :
    ∀ x ∈ guardNames guard, ¬ IsTemp x := by
  cases guard with
  | none => simp [guardNames]
  | some g => simpa [guardNames] using (h g rfl).1.2.1

theorem notTemp_declares {s : Stmt} (h : s.ScopedIn V) : ∀ x ∈ s.declares, ¬ IsTemp x := by
  cases s with
  | declare token name type init =>
    simp only [ScopedIn] at h
    simpa [declares] using h.1.2.1
  | switch token guard subject cases otherwise returning =>
    simp only [ScopedIn] at h
    exact notTemp_guardNames h.2.2.1
  | _ => simp [declares]

mutual

/-- The code of a statement has the layout. -/
theorem stmtYields_lower (s : Stmt) (V : List String)
    (hV : π.named → ∀ x ∈ V, ¬ IsTemp x) (hn : π.named → s.ScopedIn V)
    (hh : π.held → s.All Simple) (hp : π.plain → s.All Spelled) :
    StmtYields π setting V s.declares s.departs s.lower := by
  cases s
  all_goals
    simp only [ScopedIn] at hn
    simp only [All] at hh
    simp only [All, Spelled, mentions] at hp
    unfold lower
  case declare token name type init =>
    simp only [List.forall_mem_cons] at hp
    exact .located fun location => genDeclare_yields
      ⟨fun hs => (hn hs).1, fun hs => (hp hs).1⟩
      (.of_ordinary (fun hs => reads_subset_of_forall (hn hs).2) fun hs => (hp hs).2)
      (codeYields_lower_map init)
  case assign token name value =>
    simp only [List.forall_mem_cons] at hp
    exact .located fun location => genAssign_yields
      ⟨fun hs => ⟨(hn hs).1, hV hs name (hn hs).1⟩, fun hs => (hp hs).1⟩
      (.of_ordinary (fun hs => (hn hs).2) fun hs => (hp hs).2) value.codeYields_lower
  case assignField token object field value =>
    simp only [Simple, isFieldAssignment] at hh
    simp only [List.forall_mem_cons] at hp
    exact .located fun location => genAssignField_yields (fun h => by simpa using (hh h).2)
      ⟨fun hs => ⟨(hn hs).1, hV hs object (hn hs).1⟩, fun hs => (hp hs).1⟩
      (.of_ordinary (fun hs => (hn hs).2) fun hs => (hp hs).2) value.codeYields_lower
  case assignUnset token name value =>
    simp only [List.forall_mem_cons] at hp
    exact .located fun location => genAssignUnset_yields
      ⟨fun hs => ⟨(hn hs).1, hV hs name (hn hs).1⟩, fun hs => (hp hs).1⟩
      (.of_ordinary (fun hs => (hn hs).2) fun hs => (hp hs).2) value.codeYields_lower
  case expr token e =>
    exact expr_yields (.of_ordinary hn hp)
  case ifElse token guard branches otherwise =>
    simp only [List.forall_mem_append] at hp
    have hg : GuardYields π setting V (guard.map Guard.lower) :=
      guardYields_lower (fun hs => (hn hs).1) fun hs => (hp hs).1.1
    have hV' : π.named → ∀ x ∈ V ++ guardNames guard, ¬ IsTemp x :=
      fun hs => notTemp_append (hV hs) (notTemp_guardNames (hn hs).1)
    refine .located fun location => genIf_yields hg ?_ ?_
    · rw [guardName_lower]
      exact branchYields_lowerBranches branches _ hV' (fun hs => (hn hs).2.1)
        (fun h => (hh h).2.1) fun hs => ⟨(hp hs).2.1, (hp hs).1.2⟩
    · rw [guardName_lower]
      exact blockYields_lowerBlock? otherwise _ hV' (fun hs => (hn hs).2.2) (fun h => (hh h).2.2)
        fun hs => (hp hs).2.2
  case switch token guard subject cases otherwise returning =>
    simp only [List.forall_mem_append] at hp
    have hg : GuardYields π setting V (guard.map Guard.lower) :=
      guardYields_lower (fun hs => (hn hs).1) fun hs => (hp hs).1.1.1.1
    have hr : GuardYields π setting (V ++ guardNames guard) (returning.map Guard.lower) :=
      guardYields_lower (fun hs => (hn hs).2.2.1) fun hs => (hp hs).1.2
    have hV' : π.named → ∀ x ∈ V ++ guardNames guard ++ guardNames returning, ¬ IsTemp x :=
      fun hs => notTemp_append (notTemp_append (hV hs) (notTemp_guardNames (hn hs).1))
        (notTemp_guardNames (hn hs).2.2.1)
    refine .located fun location => ?_
    have hd : (switch token guard subject cases otherwise returning).declares
        = guardName (returning.map Guard.lower) := (guardName_lower returning).symm
    rw [hd]
    refine genSwitch_yields (U := subject.reads) hg ?_ subject.codeYields_lower ?_ ?_ ?_
    · rw [guardName_lower]
      exact .of_ordinary (fun hs => (hn hs).2.1) fun hs => (hp hs).1.1.1.2
    · rw [guardName_lower]
      exact hr
    · rw [guardName_lower, guardName_lower]
      exact caseYields_lowerCases cases _ hV' (fun hs => (hn hs).2.2.2.1) (fun h => (hh h).2.1)
        fun hs => ⟨(hp hs).2.1, (hp hs).1.1.2⟩
    · rw [guardName_lower, guardName_lower]
      exact blockYields_lowerBlock? otherwise _ hV' (fun hs => (hn hs).2.2.2.2)
        (fun h => (hh h).2.2) fun hs => (hp hs).2.2
  case whileLoop token guard condition body =>
    simp only [List.forall_mem_append] at hp
    have hg : GuardYields π setting V (guard.map Guard.lower) :=
      guardYields_lower (fun hs => (hn hs).1) fun hs => (hp hs).1.1
    have hV' : π.named → ∀ x ∈ V ++ guardNames guard, ¬ IsTemp x :=
      fun hs => notTemp_append (hV hs) (notTemp_guardNames (hn hs).1)
    refine .located fun location => genWhile_yields (U := condition.reads) hg ?_
      condition.codeYields_lower ?_
    · rw [guardName_lower]
      exact .of_ordinary (fun hs => (hn hs).2.1) fun hs => (hp hs).1.2
    · rw [guardName_lower]
      exact blockYields_lowerBlock body _ hV' (fun hs => (hn hs).2.2) (fun h => (hh h).2)
        fun hs => (hp hs).2
  case doWhile token body condition =>
    refine .located fun location => ?_
    intro s Γ hF
    refine (genLoop_yields rfl hF (.of_ordinary (fun hs => (hn hs).2) fun hs => (hp hs).1)
      condition.codeYields_lower (blockYields_lowerBlock body V hV (fun hs => (hn hs).1)
        (fun h => (hh h).2) fun hs => (hp hs).2) (by simp [Renews])).mono ?_
    exact fun _ s1 l h => hF.settled h.1.code h.1.issued h.2
  case forIn token name type collection body =>
    simp only [List.forall_mem_cons] at hp
    have hV' : π.named → ∀ x ∈ V ++ [name], ¬ IsTemp x :=
      fun hs => notTemp_append (hV hs) (by simpa using (hn hs).2.1.2.1)
    exact .located fun location => genForIn_yields
      (.of_ordinary (fun hs => (hn hs).1) fun hs => (hp hs).1.2) collection.codeYields_lower
      ⟨fun hs => (hn hs).2.1, fun hs => (hp hs).1.1⟩
      (blockYields_lowerBlock body _ hV' (fun hs => (hn hs).2.2) (fun h => (hh h).2)
        fun hs => (hp hs).2)
  case forRange token name type first last step body =>
    simp only [Simple, isForRange] at hh
    simp only [List.forall_mem_cons] at hp
    have hV' : π.named → ∀ x ∈ V ++ [name], ¬ IsTemp x :=
      fun hs => notTemp_append (hV hs) (by simpa using (hn hs).2.2.2.1.2.1)
    refine .located fun location => genForRange_yields
      (U := first.reads ++ last.reads ++ (step.map Expr.reads).getD [])
      (fun h => by simpa using (hh h).1.1) (.of_ordinary ?_ fun hs => (hp hs).1.2) ?_ ?_ ?_
      ⟨fun hs => (hn hs).2.2.2.1, fun hs => (hp hs).1.1⟩
      (blockYields_lowerBlock body _ hV' (fun hs => (hn hs).2.2.2.2) (fun h => (hh h).2)
        fun hs => (hp hs).2)
    · intro hs
      obtain ⟨h1, h2, h3, -⟩ := hn hs
      exact List.append_subset.2 ⟨List.append_subset.2 ⟨h1, h2⟩, reads_subset_of_forall h3⟩
    · exact first.codeYields_lower.mono (by simp)
    · exact last.codeYields_lower.mono (by simp)
    · exact fun c hc => (codeYields_lower_map step c hc).mono (by simp)
  case tryCatch token body catches finallyBody =>
    simp only [List.forall_mem_map] at hp
    exact .located fun location => genTry_yields
      (blockYields_lowerBlock body V hV (fun hs => (hn hs).1) (fun h => (hh h).2.1)
        fun hs => (hp hs).2.1)
      (catchYields_lowerCatches catches V hV (fun hs => (hn hs).2.1) (fun h => (hh h).2.2.1)
        fun hs => ⟨(hp hs).2.2.1, (hp hs).1⟩)
      (blockYields_lowerBlock? finallyBody V hV (fun hs => (hn hs).2.2) (fun h => (hh h).2.2.2)
        fun hs => (hp hs).2.2.2)
  case ret token value =>
    exact .located fun location => genReturn_yields
      (.of_ordinary (fun hs => reads_subset_of_forall (hn hs)) hp) (codeYields_lower_map value)
  case throw token value =>
    exact .located fun location => genThrow_yields (.of_ordinary hn hp) value.codeYields_lower
  case assert token condition =>
    exact .located fun location => genAssert_yields (.of_ordinary hn hp) condition.codeYields_lower

/-- The code of a block has the layout. -/
theorem blockYields_lowerBlock (l : List Stmt) (V : List String)
    (hV : π.named → ∀ x ∈ V, ¬ IsTemp x) (hn : π.named → BlockIn V l)
    (hh : π.held → BlockAll Simple l) (hp : π.plain → BlockAll Spelled l) :
    BlockYields π setting V (lowerBlock l) := by
  cases l with
  | nil =>
    unfold lowerBlock
    exact .nil
  | cons s rest =>
    simp only [BlockIn] at hn
    simp only [BlockAll] at hh hp
    unfold lowerBlock
    exact .cons
      (stmtYields_lower s V hV (fun hs => (hn hs).1) (fun h => (hh h).1) fun hs => (hp hs).1)
      (blockYields_lowerBlock rest _
        (fun hs => notTemp_append (hV hs) (notTemp_declares (hn hs).1)) (fun hs => (hn hs).2)
        (fun h => (hh h).2) fun hs => (hp hs).2)

theorem blockYields_lowerBlock? (l : Option (List Stmt)) (V : List String)
    (hV : π.named → ∀ x ∈ V, ¬ IsTemp x) (hn : π.named → BlockIn? V l)
    (hh : π.held → BlockAll? Simple l) (hp : π.plain → BlockAll? Spelled l) :
    ∀ b ∈ lowerBlock? l, BlockYields π setting V b := by
  cases l with
  | none => simp [lowerBlock?]
  | some block =>
    simp only [BlockIn?] at hn
    simp only [BlockAll?] at hh hp
    intro b hb
    simp only [lowerBlock?] at hb
    cases hb
    exact blockYields_lowerBlock block V hV hn hh hp

theorem branchYields_lowerBranches (l : List (Expr × List Stmt))
    (V : List String) (hV : π.named → ∀ x ∈ V, ¬ IsTemp x) (hn : π.named → BranchesIn V l)
    (hh : π.held → BranchesAll Simple l)
    (hp : π.plain → BranchesAll Spelled l ∧ ∀ x ∈ l.flatMap (·.1.reads), Ordinary x) :
    ∀ b ∈ lowerBranches l, BranchYields π setting V b := by
  cases l with
  | nil => simp [lowerBranches]
  | cons b rest =>
    obtain ⟨condition, block⟩ := b
    simp only [BranchesIn, BranchIn] at hn
    simp only [BranchesAll, BranchAll] at hh
    simp only [BranchesAll, BranchAll, List.flatMap_cons, List.forall_mem_append] at hp
    rw [lowerBranches, lowerBranch, List.forall_mem_cons]
    refine ⟨⟨⟨condition.reads, .of_ordinary (fun hs => (hn hs).1.1) fun hs => (hp hs).2.1,
      condition.codeYields_lower⟩, ?_⟩, ?_⟩
    · exact blockYields_lowerBlock block V hV (fun hs => (hn hs).1.2) (fun h => (hh h).1)
        fun hs => (hp hs).1.1
    · exact branchYields_lowerBranches rest V hV (fun hs => (hn hs).2) (fun h => (hh h).2)
        fun hs => ⟨(hp hs).1.2, (hp hs).2.2⟩

theorem caseYields_lowerCases (l : List (SwitchCase (List Stmt)))
    (V : List String) (hV : π.named → ∀ x ∈ V, ¬ IsTemp x) (hn : π.named → CasesIn V l)
    (hh : π.held → CasesAll Simple l)
    (hp : π.plain → CasesAll Spelled l ∧ ∀ x ∈ l.flatMap (testReads ·.test), Ordinary x) :
    ∀ c ∈ lowerCases l, SwitchCaseYields π setting V c := by
  cases l with
  | nil => simp [lowerCases]
  | cons c rest =>
    obtain ⟨test, body⟩ := c
    simp only [CasesIn, CaseIn] at hn
    simp only [CasesAll, CaseAll] at hh
    simp only [CasesAll, CaseAll, List.flatMap_cons, List.forall_mem_append] at hp
    rw [lowerCases, lowerCase, List.forall_mem_cons]
    refine ⟨⟨testYields (fun hs => (hn hs).1.1) fun hs => (hp hs).2.1, ?_⟩, ?_⟩
    · exact blockYields_lowerBlock body V hV (fun hs => (hn hs).1.2) (fun h => (hh h).1)
        fun hs => (hp hs).1.1
    · exact caseYields_lowerCases rest V hV (fun hs => (hn hs).2) (fun h => (hh h).2)
        fun hs => ⟨(hp hs).1.2, (hp hs).2.2⟩

theorem catchYields_lowerCatches (l : List (Catch (List Stmt)))
    (V : List String) (hV : π.named → ∀ x ∈ V, ¬ IsTemp x) (hn : π.named → CatchesIn V l)
    (hh : π.held → CatchesAll Simple l)
    (hp : π.plain → CatchesAll Spelled l ∧ ∀ c ∈ l, Ordinary c.variableName) :
    ∀ c ∈ lowerCatches l, Introduces π V c.variableName ∧
      BlockYields π setting (V ++ [c.variableName]) c.body := by
  cases l with
  | nil => simp [lowerCatches]
  | cons c rest =>
    obtain ⟨exceptionType, variableName, body⟩ := c
    simp only [CatchesIn, CatchIn] at hn
    simp only [CatchesAll, CatchAll] at hh
    simp only [CatchesAll, CatchAll, List.forall_mem_cons] at hp
    rw [lowerCatches, lowerCatch, List.forall_mem_cons]
    refine ⟨⟨⟨fun hs => (hn hs).1.1, fun hs => (hp hs).2.1⟩, ?_⟩, ?_⟩
    · exact blockYields_lowerBlock body _
        (fun hs => notTemp_append (hV hs) (by simpa using (hn hs).1.1.2.1))
        (fun hs => (hn hs).1.2) (fun h => (hh h).1) fun hs => (hp hs).1.1
    · exact catchYields_lowerCatches rest V hV (fun hs => (hn hs).2) (fun h => (hh h).2)
        fun hs => ⟨(hp hs).1.2, (hp hs).2.2⟩

end

end Stmt

end ScopedIR
