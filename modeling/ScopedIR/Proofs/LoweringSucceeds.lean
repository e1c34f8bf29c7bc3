import ScopedIR.Lowering.Module
import ScopedIR.Proofs.LoweredStmt
import ScopedIR.Proofs.SucceedingControl

/-!
# Lowering succeeds on well-formed modules

No defect is reported for a well-formed module. Every statement is lowered where the state agrees with
its surroundings in the source; a module gets there through the outermost scope of an operation, in
which exactly the parameters are declared.

Main statements: `Stmt.lower_succeeds` and `Stmt.lowerBlock_succeeds`, by recursion on the source, and
`exists_lower_of_wellFormed`.
-/

namespace ScopedIR

open Lowering Gen Layout

/-! ### Parts of statements -/

theorem Guard.WellFormed.lower_succeeds {g : Guard} (h : g.WellFormed) : g.lower.Succeeds :=
  ⟨h.1, h.2.1, h.2.2.lower_valued⟩

theorem guard_succeeds {guard : Option Guard} (h : ∀ g ∈ guard, g.WellFormed) :
    ∀ g ∈ guard.map Guard.lower, g.Succeeds := by
  intro g hg
  obtain ⟨guard, hguard, rfl⟩ := Option.map_eq_some_iff.1 hg
  exact (h guard hguard).lower_succeeds

theorem values_valued {e : Option Expr} (h : ∀ v ∈ e, v.IsValue) :
    ∀ c ∈ e.map Expr.lower, c.Valued := by
  intro c hc
  obtain ⟨v, hv, rfl⟩ := Option.map_eq_some_iff.1 hc
  exact (h v hv).lower_valued

namespace Stmt

theorem lowerBranches_eq_map (l : List (Expr × List Stmt)) :
    lowerBranches l = l.map lowerBranch := by
  induction l with
  | nil => simp [lowerBranches]
  | cons b rest ih => simp [lowerBranches, ih]

theorem lowerCases_eq_map (l : List (SwitchCase (List Stmt))) : lowerCases l = l.map lowerCase := by
  induction l with
  | nil => simp [lowerCases]
  | cons c rest ih => simp [lowerCases, ih]

theorem lowerCatches_eq_map (l : List (Catch (List Stmt))) :
    lowerCatches l = l.map lowerCatch := by
  induction l with
  | nil => simp [lowerCatches]
  | cons c rest ih => simp [lowerCatches, ih]

theorem lowerCase_test (c : SwitchCase (List Stmt)) : (lowerCase c).test = c.test := by
  obtain ⟨test, body⟩ := c
  simp [lowerCase]

theorem isSome_lowerBlock? (block : Option (List Stmt)) :
    (lowerBlock? block).isSome = block.isSome := by
  cases block <;> simp [lowerBlock?]

theorem isConstantCase_lowerCase (c : SwitchCase (List Stmt)) :
    isConstantCase (lowerCase c) = c.test.isConstant := by
  obtain ⟨test, body⟩ := c
  cases test <;> simp [lowerCase, isConstantCase, SwitchTest.isConstant]

/-- A switch over an enumeration tests for constants of that enumeration. -/
theorem testFits_lowerCases {setting : Setting} {type : String} {cases : List (SwitchCase (List Stmt))}
    (h : ConstantsKnown setting.enums type cases) :
    ∀ k ∈ lowerCases cases, TestFits (enumOf setting type (lowerCases cases)) k.test := by
  intro k hk e he
  unfold enumOf at he
  split at he
  · rename_i hover
    have hall : ∀ c ∈ cases, c.test.isConstant = true := by
      intro c hc
      rw [← isConstantCase_lowerCase]
      have hboth := (Bool.and_eq_true_iff.1 hover).2
      rw [lowerCases_eq_map] at hboth
      exact List.all_eq_true.1 hboth _ (List.mem_map_of_mem hc)
    rw [lowerCases_eq_map] at hk
    obtain ⟨c, hc, rfl⟩ := List.mem_map.1 hk
    have hconstant := hall c hc
    rw [lowerCase_test]
    cases htest : c.test with
    | value v =>
      rw [htest] at hconstant
      cases hconstant
    | enumConstant constant => exact ⟨constant, rfl, h hall e he c hc constant htest⟩
  · cases he

/-! ### Statements -/

variable {setting : Setting}

mutual

/-- A well-formed statement is lowered without a defect. -/
theorem lower_succeeds (s : Stmt) (c : Surroundings) (h : WellFormedIn setting.enums c s) :
    StmtSucceeds setting c s.declares s.lower := by
  cases s <;> simp only [WellFormedIn] at h <;> unfold lower
  case declare token name type init =>
    exact .located fun _ => genDeclare_succeeds h.1 h.2.1 (values_valued h.2.2)
  case assign token name value =>
    exact .still fun _ => genAssign_moves h.1 h.2.1 h.2.2.lower_valued
  case assignField token object field value =>
    exact .still fun _ => genAssignField_moves h.lower_valued
  case assignUnset token name value =>
    exact .still fun _ => genAssignUnset_moves h.1 h.2.1 h.2.2.lower_valued
  case expr token e =>
    exact .of_same fun hs => .bind ((e.lower_computes h).moves hs.ready) fun _ _ => .pure trivial
  case ifElse token guard branches otherwise =>
    obtain ⟨hguard, hne, hbranches, hotherwise⟩ := h
    rw [← guardName_lower] at hbranches hotherwise
    refine .still fun _ => genIf_moves (guard_succeeds hguard) ?_
      (lowerBranches_succeed branches _ hbranches) (lowerBlock?_succeeds otherwise _ hotherwise)
    rw [lowerBranches_eq_map]
    simpa using hne
  case switch token guard subject cases otherwise returning =>
    obtain ⟨hguard, hreturning, ⟨hsubject, htype⟩, hparts, hknown, hcases, hotherwise⟩ := h
    rw [← subject.type_lower] at htype hknown
    have hdeclares : (switch token guard subject cases otherwise returning).declares =
        guardName (returning.map Guard.lower) := (guardName_lower returning).symm
    rw [← guardName_lower, ← guardName_lower] at hcases hotherwise
    rw [hdeclares]
    refine .located fun _ => genSwitch_succeeds (guard_succeeds hguard) (guard_succeeds hreturning)
      hsubject.lower_valued htype ?_ (lowerCases_succeed cases _ hcases) (testFits_lowerCases hknown)
      (lowerBlock?_succeeds otherwise _ hotherwise)
    rw [isSome_lowerBlock?, lowerCases_eq_map]
    simpa using hparts
  case whileLoop token guard condition body =>
    obtain ⟨hguard, hcondition, hbody⟩ := h
    rw [← guardName_lower] at hbody
    exact .still fun _ => genWhile_moves (guard_succeeds hguard) hcondition.lower_valued
      (lowerBlock_succeeds body _ hbody)
  case doWhile token body condition =>
    exact .still fun _ => genLoop_moves rfl h.2.lower_valued (lowerBlock_succeeds body c h.1) (by simp)
  case forIn token name type collection body =>
    obtain ⟨⟨hname, htype, hvoid⟩, hcollection, hbody⟩ := h
    exact .still fun _ => genForIn_moves hname htype hvoid hcollection.lower_valued
      (lowerBlock_succeeds body _ hbody)
  case forRange token name type first last step body =>
    obtain ⟨⟨hname, htype, hvoid⟩, hfirst, hlast, hstep, hbody⟩ := h
    exact .still fun _ => genForRange_moves hname htype hvoid hfirst.lower_valued hlast.lower_valued
      (values_valued hstep) (lowerBlock_succeeds body _ hbody)
  case tryCatch token body catches finallyBody =>
    obtain ⟨hparts, hbody, hcatches, hfinally⟩ := h
    rw [← isSome_lowerBlock? finallyBody] at hbody hcatches
    refine .still fun _ => genTry_moves ?_ (lowerBlock_succeeds body _ hbody)
      (lowerCatches_succeed catches _ hcatches) (lowerBlock?_succeeds finallyBody _ hfinally)
    rw [isSome_lowerBlock?, lowerCatches_eq_map]
    simpa using hparts
  case ret token value =>
    exact .still fun _ => genReturn_moves (values_valued h.2.2) h.1 h.2.1
  case throw token value =>
    exact .still fun _ => genThrow_moves h.2.lower_valued h.1
  case assert token condition =>
    exact .still fun _ _ hs => genAssert_moves h.lower_valued hs.ready

/-- A well-formed block is lowered without a defect. -/
theorem lowerBlock_succeeds (l : List Stmt) (c : Surroundings)
    (h : BlockWellFormed setting.enums c l) : BlockSucceeds setting c (lowerBlock l) := by
  cases l with
  | nil =>
    unfold lowerBlock
    exact .of_reaches fun hs => block_ends hs (.refl _)
  | cons s rest =>
    simp only [BlockWellFormed] at h
    unfold lowerBlock
    refine .of_reaches fun hs => ((lower_succeeds s c h.1).reaches hs).reach fun _ s1 h1 => ?_
    cases s.departs with
    | true => exact block_ends h1.2.of_hide h1.1
    | false => exact (lowerBlock_succeeds rest _ h.2).after h1.2 h1.1 .of_hide

theorem lowerBlock?_succeeds (l : Option (List Stmt)) (c : Surroundings)
    (h : BlockWellFormed? setting.enums c l) :
    ∀ b ∈ lowerBlock? l, BlockSucceeds setting c b := by
  cases l with
  | none => simp [lowerBlock?]
  | some block =>
    simp only [BlockWellFormed?] at h
    simp only [lowerBlock?]
    intro b hb
    cases hb
    exact lowerBlock_succeeds block c h

theorem lowerBranches_succeed (l : List (Expr × List Stmt)) (c : Surroundings)
    (h : BranchesWellFormed setting.enums c l) :
    ∀ b ∈ lowerBranches l, b.1.Valued ∧ BlockSucceeds setting c b.2 := by
  cases l with
  | nil => simp [lowerBranches]
  | cons b rest =>
    obtain ⟨condition, block⟩ := b
    simp only [BranchesWellFormed, BranchWellFormed] at h
    rw [lowerBranches, lowerBranch, List.forall_mem_cons]
    exact ⟨⟨h.1.1.lower_valued, lowerBlock_succeeds block c h.1.2⟩, lowerBranches_succeed rest c h.2⟩

theorem lowerCases_succeed (l : List (SwitchCase (List Stmt))) (c : Surroundings)
    (h : CasesWellFormed setting.enums c l) : ∀ k ∈ lowerCases l, CaseSucceeds setting c k := by
  cases l with
  | nil => simp [lowerCases]
  | cons k rest =>
    obtain ⟨test, body⟩ := k
    simp only [CasesWellFormed, CaseWellFormed] at h
    rw [lowerCases, lowerCase, List.forall_mem_cons]
    exact ⟨⟨h.1.1, lowerBlock_succeeds body c h.1.2⟩, lowerCases_succeed rest c h.2⟩

theorem lowerCatches_succeed (l : List (Catch (List Stmt))) (c : Surroundings)
    (h : CatchesWellFormed setting.enums c l) : ∀ k ∈ lowerCatches l, CatchSucceeds setting c k := by
  cases l with
  | nil => simp [lowerCatches]
  | cons k rest =>
    obtain ⟨exceptionType, variableName, body⟩ := k
    simp only [CatchesWellFormed, CatchWellFormed] at h
    rw [lowerCatches, lowerCatch, List.forall_mem_cons]
    exact ⟨⟨h.1.1, h.1.2.1, lowerBlock_succeeds body _ h.1.2.2⟩, lowerCatches_succeed rest c h.2⟩

end

end Stmt

namespace Lowering

/-! ### Operations -/

variable {setting : Setting}

variable {c : Surroundings} {block : BlockCode} {params : List TypedName}

/-- Declaring parameters makes names of parameters visible, and no others. -/
theorem declareParams_reaches {s : State} (params : List TypedName) (h : s.Within c)
    (hparams : ∀ p ∈ params, p.name ∈ c.params) :
    (params.forM fun p => Gen.declare p.name p.type true).Reaches setting s
      fun _ s' => Kept s s' ∧ s'.Within c := by
  induction params generalizing s with
  | nil => exact fun _ hs => succeeds_pure ⟨hs.kept, h.same hs⟩
  | cons p rest ih =>
    intro s1 hs
    obtain ⟨s2, hs2⟩ := (h.same hs).ready.declare p.name p.type true
    have hwithin := (h.same hs).declareParam (hparams p List.mem_cons_self) hs2
    refine succeeds_bind (succeeds_tryUpdate hs2 ((ih hwithin fun q hq =>
      hparams q (List.mem_cons_of_mem _ hq)) s2 (.refl s2) |>.mono fun _ _ h3 => ?_))
    exact ⟨hs.kept.trans ((kept_declare hs2).trans h3.1), h3.2⟩

/-- Nothing is visible in the outermost scope when it is entered. -/
theorem within_outermost {k : String} (c : Surroundings) (hk : k ≠ "") :
    (({} : State).enterScope k).Within c where
  ready := ⟨by simp [State.enterScope], by simpa [State.enterScope] using hk⟩
  params x v hv := by cases hv
  inFinally h := by cases h
  pastFinally h := by cases h

theorem label_moves (stem : String) {s : State} : (Gen.label stem).Moves setting s (· ≠ "") s :=
  fun _ hs => succeeds_fresh
    ⟨numbered_ne_empty (by simp) _, hs.scopes, hs.handlers, hs.finallyDepth⟩

theorem genOuter_moves (hblock : BlockSucceeds setting { params := paramNames params } block) :
    (genOuter params block).Moves setting {} (· ≠ "") {} := by
  refine (label_moves "_entry").bind fun entry hentry => scopeId_moves.bind fun k hk => ?_
  refine .bind (.emit (Instr.scopeEnter_ok hk)) fun _ _ => enterScope_moves.bind fun _ _ => ?_
  refine (declareParams_reaches params (within_outermost { params := paramNames params } hk) fun p hp =>
    List.mem_map_of_mem hp).reach fun _ s1 h1 => ?_
  refine (hblock.after h1.2 h1.1 id).reach fun departs s2 h2 => ?_
  refine (exitScope_moves h2.1).bind fun _ _ => ?_
  cases departs with
  | true => exact .pure hentry
  | false =>
    exact .bind (.emit (Instr.scopeExit_ok hk)) fun _ _ =>
      .bind (.emit (Instr.ret_ok none)) fun _ _ => .pure hentry

theorem exists_operation {name returnType : String} {token : Option Location}
    (hblock : BlockSucceeds setting { params := paramNames params } block) :
    ∃ op, operationOf setting (genOperation name params returnType token block) = .ok op := by
  have hoperation : (genOperation name params returnType token block).Moves setting {}
      (fun _ => True) {} := by
    refine .capturing (genOuter_moves hblock) fun entry instrs hentry => ?_
    have hadd : Body.empty.addBlock entry =
        .ok { blocks := ⟨#[{ label := entry }]⟩, index := ⟨[(entry, 0)]⟩ } := by
      unfold Body.addBlock
      rw [if_neg (by simpa using hentry)]
      rfl
    exact .check hadd (.check rfl (.located (.pure trivial)))
  obtain ⟨r, hr, -⟩ := hoperation {} (.refl _)
  unfold operationOf
  rw [hr]
  exact ⟨_, rfl⟩

theorem exists_lowerFunction {f : FunctionDef} (name : String) (h : f.WellFormed setting.enums) :
    ∃ op, lowerFunction setting name f = .ok op :=
  exists_operation (Stmt.lowerBlock_succeeds f.body _ h)

/-! ### Modules -/

theorem genFields_succeeds {fields : List FieldDef}
    (h : ∀ field ∈ fields, ∀ e ∈ field.init, e.IsValue) :
    BlockSucceeds setting c (genFields fields) := by
  induction fields with
  | nil => exact .of_reaches fun hs => block_ends hs (.refl _)
  | cons field rest ih =>
    have hrest := ih fun field hfield => h field (List.mem_cons_of_mem _ hfield)
    refine .of_reaches fun {s} hs => ?_
    unfold genFields
    cases hinit : field.init with
    | none => exact hrest.after hs (.refl s) id
    | some e =>
      have hvalue := (h field List.mem_cons_self e hinit).lower_valued
      have hname : "this." ++ field.name ≠ "" := by
        simp
      exact (hvalue.moves hs.ready).bind fun value hne => .bind
        (.emitAll (Ownership.initialise_ok hname hne)) fun _ _ => hrest.after hs (.refl s) id

theorem exists_lowerType {t : TypeDef} (hfields : ∀ field ∈ t.fields, ∀ e ∈ field.init, e.IsValue)
    (hmethods : ∀ m ∈ t.methods, m.WellFormed setting.enums) :
    ∃ ops, lowerType setting t = .ok ops := by
  obtain ⟨init, hinit⟩ : ∃ op, operationOf setting
      (genOperation initOperation [] TypeName.void none (genFields t.fields)) = .ok op :=
    exists_operation (genFields_succeeds hfields)
  obtain ⟨methods, hmapped⟩ : ∃ ops,
      (t.methods.mapM fun m => lowerFunction setting m.name m) = .ok ops :=
    exists_mapM fun m hm => exists_lowerFunction m.name (hmethods m hm)
  unfold lowerType
  rw [hinit, hmapped]
  split
  · exact ⟨_, rfl⟩
  · exact ⟨_, rfl⟩

theorem exists_lowerConstruct {c : ConstructDef} (h : c.WellFormed setting.enums) :
    ∃ construct, lowerConstruct setting c = .ok construct := by
  cases c with
  | function f =>
    obtain ⟨op, hop⟩ := exists_lowerFunction functionOperation h
    simp only [lowerConstruct, hop]
    exact ⟨_, rfl⟩
  | type t =>
    obtain ⟨ops, hops⟩ := exists_lowerType h.1 h.2
    simp only [lowerConstruct, hops]
    exact ⟨_, rfl⟩
  | program p =>
    obtain ⟨op, hop⟩ : ∃ op, lowerFunction setting programOperation
        { name := p.name, returnType := TypeName.void, body := p.body, token := p.token } = .ok op :=
      exists_lowerFunction programOperation h
    simp only [lowerConstruct, hop]
    exact ⟨_, rfl⟩

end Lowering

/-- A well-formed module is lowered without a defect, whatever the oracle on types says. -/
theorem exists_lower_of_wellFormed (m : SourceModule) (types : TypeOracle) (debug : Bool)
    (h : m.WellFormed) : ∃ u, m.lower types debug = .ok u := by
  have hconstructs : ∀ c ∈ m.constructs,
      ∃ construct, lowerConstruct { debug, types, enums := m.enums } c = .ok construct :=
    fun c hc => exists_lowerConstruct (h c hc)
  obtain ⟨constructs, hmapped⟩ := exists_mapM hconstructs
  unfold SourceModule.lower
  dsimp only
  rw [hmapped]
  exact ⟨_, rfl⟩

/-- A loop variable hides the parameter of its name, so that it may be assigned, and a switch over an
enumeration throws past a finally block. -/
def hidingModule : SourceModule :=
  { name := "sample"
    enums := [{ name := "sample::Color", constants := ["Red", "Green"] }]
    constructs := [
      .function
        { name := "run"
          params := [{ name := "item", type := TypeName.integer },
            { name := "color", type := "sample::Color" }]
          returnType := TypeName.integer
          body := [
            .tryCatch none
              [.forRange none "item" TypeName.integer (.ofVar "item" TypeName.integer)
                  (.literal { type := TypeName.integer } "9") none
                  [.assign none "item"
                    (.binary { type := TypeName.integer } "+" (.ofVar "item" TypeName.integer)
                      (.ofVar "item" TypeName.integer)
                      (.method TypeName.integer "_add" TypeName.integer))],
                .switch none none (.ofVar "color" "sample::Color")
                  [⟨.enumConstant "Red", [.throw none (.ofVar "item" TypeName.integer)]⟩] none
                  (some { name := "shade", type := TypeName.string, init := .ofString "dark" })]
              []
              (some [.assert none
                (.isSet { type := TypeName.boolean } (.ofVar "item" TypeName.integer))]),
            .ret none (some (.ofVar "item" TypeName.integer))] }] }

theorem exists_lower_hidingModule : hidingModule.WellFormed ∧
    ∃ u, hidingModule.lower (fun _ _ => false) true = .ok u := by
  have hadd : Operator.methodFor? "+" = some "_add" := by decide +kernel
  have hwell : hidingModule.WellFormed := by
    intro c hc
    rw [List.mem_singleton.1 hc]
    simp [ConstructDef.WellFormed, FunctionDef.WellFormed, Stmt.BlockWellFormed,
      Stmt.BlockWellFormed?, Stmt.CatchesWellFormed, Stmt.CasesWellFormed, Stmt.CaseWellFormed,
      Stmt.WellFormedIn, Stmt.declares, Expr.IsValue, Expr.hasValue, Expr.WellFormed, Expr.ofVar,
      Expr.ofString, Expr.type, Expr.info, Guard.WellFormed, guardNames, SwitchTest.WellFormed,
      ConstantsKnown, Symbol.method, Operator.Resolved, hadd, Surroundings.hide,
      Surroundings.protect, TypeName.integer, TypeName.void, TypeName.string, hidingModule]
  exact ⟨hwell, exists_lower_of_wellFormed hidingModule _ true hwell⟩

end ScopedIR
