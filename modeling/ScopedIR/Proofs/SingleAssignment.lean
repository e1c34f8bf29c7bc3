import ScopedIR.Proofs.ScopeDiscipline

/-!
# Single assignment

Everything that knows about names goes by the names alone, so two instructions of an operation must not
share one. The results of instructions and the exceptions that try chains bind are temporaries drawn from
one counter, at whatever depth they stand and however often a body is laid out; scopes are drawn from
another.

Main definition: `SingleAssignment`. Main statement: `singleAssignment_of_lower`.
-/

namespace ScopedIR

open Instr Layout

/-- The name that a try chain binds the exception to. -/
def Instr.exception? (i : Instr) : Option String := (i.chain?.bind (·.tryBlock)).map (·.exception)

/-- The scope that an instruction enters. -/
def Instr.entered? (i : Instr) : Option String :=
  if i.opcode = .scopeEnter then i.operand? 0 else none

/-- In some code, with everything nested in it, no two instructions have the same result, no two try
chains bind the same exception, no exception is a result, and no two instructions enter the same scope. -/
structure SingleAssignment (l : List Instr) : Prop where
  results : ((preorderAll l).filterMap (·.result)).Nodup
  exceptions : ((preorderAll l).filterMap (·.exception?)).Nodup
  apart : ((preorderAll l).filterMap (·.exception?)).Disjoint ((preorderAll l).filterMap (·.result))
  scopes : ((preorderAll l).filterMap (·.entered?)).Nodup

/-- The names that code binds are its results and its exceptions. -/
theorem binds_perm (l : List Instr) : ((preorderAll l).filterMap (·.result) ++
    (preorderAll l).filterMap (·.exception?)).Perm (binds l) := by
  simp only [List.filterMap_eq_flatMap_toList]
  exact List.flatMap_append_perm _ _ _

theorem enters_eq_filterMap (l : List Instr) : enters l = (preorderAll l).filterMap (·.entered?) := by
  have hown : ownEnters = fun i => i.entered?.toList := by
    funext i
    unfold ownEnters entered?
    split <;> rfl
  rw [enters, gather, List.filterMap_eq_flatMap_toList, hown]

theorem singleAssignment_of_nodup {l : List Instr} (hb : (binds l).Nodup) (he : (enters l).Nodup) :
    SingleAssignment l := by
  obtain ⟨hr, hx, hne⟩ := List.nodup_append.1 ((binds_perm l).nodup_iff.2 hb)
  exact ⟨hr, hx, fun x hx hr => hne x hr x hx rfl, enters_eq_filterMap l ▸ he⟩

/-- Every operation of a module that is lowered without a defect assigns each name once. -/
theorem singleAssignment_of_lower (m : SourceModule) (types : TypeOracle) (debug : Bool) (u : CodeUnit)
    (h : m.lower types debug = .ok u) : ∀ op ∈ u.operations, SingleAssignment op.body.instrs := by
  intro op hop
  obtain ⟨entry, k, d, l, Γ, hbody, -, hbinds, -, henters⟩ := operationLaid_of_lower h op hop
  have hinstrs : op.body.instrs = operationCode k d l := by
    rw [hbody]
    exact List.append_nil _
  rw [hinstrs]
  refine singleAssignment_of_nodup ?_ ?_
  · rw [operationCode, binds_append, binds_scoping]
    cases d <;> simpa [binds_cons] using hbinds
  · rw [enters_operationCode]
    exact henters

/-- A function with a try block in a loop over a range, whose body is laid out three times. -/
def tryInRange : SourceModule :=
  { name := "sample"
    constructs := [.function
      { name := "run"
        returnType := TypeName.void
        body := [.forRange none "i" TypeName.integer (.ofInt 1) (.ofInt 3) none
          [.tryCatch none [.throw none (.ofString "stop")] [] (some [])]] }] }

theorem singleAssignment_tryInRange :
    ∃ u op, tryInRange.lower (fun _ _ => false) false = .ok u ∧ op ∈ u.operations ∧
      ((preorderAll op.body.instrs).filterMap (·.exception?)).length = 3 ∧
      SingleAssignment op.body.instrs := by
  have hthree : ((tryInRange.lower (fun _ _ => false) false).toOption.bind fun u =>
      u.operations.head?.map fun op =>
        ((preorderAll op.body.instrs).filterMap (·.exception?)).length) = some 3 := by
    decide +kernel
  obtain ⟨u, hu, hthree⟩ := Option.bind_eq_some_iff.1 hthree
  obtain ⟨op, ho, hthree⟩ := Option.map_eq_some_iff.1 hthree
  have hu := toOption_eq_some hu
  have hop : op ∈ u.operations := List.mem_of_mem_head? ho
  exact ⟨u, op, hu, hop, hthree,
    singleAssignment_of_lower tryInRange (fun _ _ => false) false u hu op hop⟩

end ScopedIR
