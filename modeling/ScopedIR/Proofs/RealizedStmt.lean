import ScopedIR.Proofs.LoweringSucceeds
import ScopedIR.Proofs.RealizedCounting

/-!
# Statements do what their evaluation does

The code of assertions, departures and try chains does what their evaluation does. With the other
statements, by recursion on the source, the code of every block does what its evaluation does.

Main statement: `Stmt.lowerBlock_realizes`.
-/

namespace ScopedIR

open Exec Instr Layout Lowering Gen

variable {σ α : Type}

namespace Lowering

variable {E : Evaluator σ} {setting : Setting} {s : State} {location : Option Location} {V : Visible}

/-! ### Assertions and departures -/

theorem genAssert_realizes (hE : E.Agrees setting) {condition : Expr} (token : Option Location) :
    StmtRealizes E setting V V (genAssert location condition.lower)
      (E.stmt V (.assert token condition)) := by
  apply StmtRealizes.of_same
  intro s hs
  refine (genAssert_at location hE (valueOf_realizes hE condition s)).mono ?_
  rintro _ s1 l ⟨hlater, hdoes⟩
  refine ⟨hlater.same, hlater.temps, ?_⟩
  have hperforms := hdoes.performs
  rw [condition.type_lower] at hperforms
  have hgoes : ∀ p : Bool, ((if p then pure () else Evaluation.fail (.assertionFailed "")) >>=
      fun _ => pure .next : Evaluation σ Completion) =
        if p then pure .next else Evaluation.fail (.assertionFailed "") := by
    rintro (_ | _) <;> rfl
  simp only [bind_assoc, hgoes] at hperforms
  rw [Evaluator.stmt, Evaluator.holds, bind_assoc]
  exact hperforms

theorem isIdle_leaving (ks : List String) : ∀ i ∈ leaving location ks, i.IsIdle := by
  intro i hi
  obtain ⟨k, -, rfl⟩ := List.mem_map.1 hi
  exact isIdle_scopeExit location k

variable {old : Nat} {exception : String} {k : Catch (List Stmt)}
  {clauses : List (Catch (List Stmt))} {c : Chain Instr} {body : List Stmt}

/-- A departure with a value: the value is kept, and scopes are left. -/
theorem departing_performs {t : String} {b : Binding} {ks : List String} {i : Instr}
    {A : Evaluation σ Completion} (h : Performs E old [i] A (Bound t b)) :
    Performs E old (simple location .retain [t] none :: (leaving location ks ++ [i])) A (Bound t b) := by
  intro M m ht hb
  exact Does.prepend_idle (l := simple location .retain [t] none :: leaving location ks)
    (List.forall_mem_cons.2 ⟨isIdle_retain location t, isIdle_leaving ks⟩)
    fun n => h M { m with steps := n } { ht with } hb

theorem genReturn_realizes (hE : E.Agrees setting) {value : Option Expr} (token : Option Location) :
    StmtRealizes E setting V V (genReturn location (value.map Expr.lower))
      (E.stmt V (.ret token value)) := by
  apply StmtRealizes.of_same
  intro s hs
  unfold genReturn
  refine .state ?_
  split
  · exact ensures_bind.2 .fail
  refine .state ?_
  split
  · exact ensures_bind.2 .fail
  rw [ensures_bind]
  cases value with
  | none =>
    rw [Evaluator.stmt]
    refine .pure (.state (.emitAll Ownership.exits_eq_ok (.lastAt ret_eq_ok ?_)))
    refine ⟨.refl s, Nat.le_refl _, fun M m ht _ => ?_⟩
    apply Does.prepend_idle (isIdle_leaving s.openScopes)
    intro n r M' hr
    obtain ⟨rfl, rfl⟩ := Evaluation.pure_eq_ok hr
    exact ⟨.ret none, _, Completes.retNone, { ht with }, .refl _ _, rfl⟩
  | some e =>
    rw [Evaluator.stmt]
    refine (valueOf_realizes hE e s).bind ?_
    rintro t s1 l1 ⟨hlater, ht, hdoes⟩
    refine .pure (.emitAt retain_eq_ok (.state (.emitAll Ownership.exits_eq_ok (.lastAt ret_eq_ok ?_))))
    refine ⟨hlater.same, hlater.temps, ?_⟩
    rw [List.append_nil]
    apply hdoes.perform (fun b => departing_performs ?_) hlater.temps fun _ _ _ _ _ hv => hv
    intro M m ht hb r M' hr
    obtain ⟨rfl, rfl⟩ := Evaluation.pure_eq_ok hr
    exact ⟨.ret (some b), _, Completes.ret (lookup_eq_ok hb), ht.tick, .refl _ _, rfl⟩

theorem genThrow_realizes (hE : E.Agrees setting) {value : Expr} (token : Option Location) :
    StmtRealizes E setting V V (genThrow location value.lower) (E.stmt V (.throw token value)) := by
  apply StmtRealizes.of_same
  intro s hs
  unfold genThrow
  rw [Evaluator.stmt]
  refine .state ?_
  split
  · exact ensures_bind.2 .fail
  refine (valueOf_realizes hE value s).bind ?_
  rintro t s1 l1 ⟨hlater, ht, hdoes⟩
  refine .emitAt retain_eq_ok (.state (.emitAll Ownership.exits_eq_ok (.lastAt throw_eq_ok ?_)))
  refine ⟨hlater.same, hlater.temps, ?_⟩
  apply hdoes.perform (fun b => departing_performs ?_) hlater.temps fun _ _ _ _ _ hv => hv
  intro M m ht hb r M' hr
  cases hr
  exact ⟨.throw b, _, Completes.throw (lookup_eq_ok hb), ht.tick, .refl _ _, rfl⟩

/-! ### Exceptions -/

/-- The case does what a catch clause does with the exception that a name is bound to. -/
structure Caught (E : Evaluator σ) (V : Visible) (old : Nat) (exception : String)
    (k : Catch (List Stmt)) (e : Case Instr) : Prop where
  kind : e.kind = .handler k.exceptionType k.variableName
  body : ∀ ex, Performs E old e.body.evaluation (E.clause V ex k) (Bound exception ex)

/-- What is generated for the block of a catch clause. -/
def CatchRealizes (E : Evaluator σ) (setting : Setting) (V : Visible) (k : Catch (List Stmt)) : Prop :=
  Ordinary k.variableName ∧
    Realized E setting (V.insert k.variableName k.exceptionType) k.body

theorem genCatch_realizes (hk : CatchRealizes E setting V k) (hs : Typed V s)
    (hup : TempUpTo s.temps exception) :
    (genCatch exception (Stmt.lowerCatch k)).Ensures setting s fun e s' l => Reserves s s' l ∧
      Caught E V s.temps exception k e := by
  obtain ⟨type, name, body⟩ := k
  obtain ⟨hname, hb⟩ := hk
  unfold Stmt.lowerCatch
  have hclause : ∀ ex, (genScoped s.scopeId.1 do
      Gen.emit (Instr.reference name type)
      Gen.emit (Instr.store name exception)
      Gen.emit (Instr.scopeRegister name s.scopeId.1)
      Gen.declare name type
      Stmt.lowerBlock body).Ensures setting s.scopeId.2 fun _ s' l => Same s s' ∧
        s.temps ≤ s'.temps ∧ Performs E s.temps l (E.clause V ex ⟨type, name, body⟩)
          (Bound exception ex) := by
    intro ex
    rw [Evaluator.clause]
    apply genConfined_realizes
    refine .emit reference_eq_ok (.emit store_eq_ok (.emit scopeRegister_eq_ok
      (.declare fun s1 hs1 => (hb s1 (hs.enter.declare hs1)).mono ?_)))
    rintro _ s2 l ⟨hkept, htemps, hdoes⟩
    have htemps1 : s1.temps = s.inside.temps := temps_declare hs1
    rw [htemps1] at htemps hdoes
    refine ⟨(kept_declare hs1).trans hkept, htemps, ?_⟩
    apply (reference_realizes hname).perform (H := fun _ => Bound exception ex)
      _ (Nat.le_refl s.temps) fun _ _ _ hex hkeeps _ => (hkeeps.temps _ hup).trans hex
    intro _
    exact ((store_realizes none).append_idle (List.forall_mem_singleton.2
      (isIdle_scopeRegister none name s.scopeId.1))).perform (fun _ => hdoes) (Nat.le_refl s.temps)
      fun _ _ _ _ _ _ => trivial
  refine .scopeId (.captured ((Ensures.all hclause).mono fun _ s1 l h => ?_))
  obtain ⟨hsame, htemps, -⟩ := h .null
  refine .ofExcept fun e he => .pure ?_
  unfold Case.handler at he
  split at he
  · cases he
  · cases he
    exact ⟨⟨rfl, hsame, htemps⟩, rfl, fun ex => (h ex).2.2⟩

theorem Caught.of_le {old' : Nat} {e : Case Instr} (h : Caught E V old' exception k e)
    (ho : old ≤ old') : Caught E V old exception k e :=
  ⟨h.kind, fun ex => (h.body ex).of_le ho⟩

theorem genCatches_realizes (hc : ∀ k ∈ clauses, CatchRealizes E setting V k) (hs : Typed V s)
    (hup : TempUpTo s.temps exception) :
    (genCatches exception (Stmt.lowerCatches clauses)).Ensures setting s fun cases s' l =>
      Reserves s s' l ∧ List.Forall₂ (Caught E V s.temps exception) clauses cases := by
  induction clauses generalizing s with
  | nil =>
    unfold Stmt.lowerCatches
    exact .pure ⟨.refl s, .nil⟩
  | cons k rest ih =>
    unfold Stmt.lowerCatches
    refine (genCatch_realizes (hc k (by simp)) hs hup).reserves fun e s1 hsame1 htemps1 he => ?_
    refine (ih (fun k hk => hc k (by simp [hk])) (hs.same hsame1) (hup.mono htemps1)).reserves
      fun cases s2 hsame2 htemps2 hcases => .pure ⟨⟨rfl, hsame1.trans hsame2,
        Nat.le_trans htemps1 htemps2⟩, .cons he ?_⟩
    exact hcases.imp fun _ _ h => h.of_le htemps1

/-- The first clause that takes an exception is the same on both sides. -/
theorem handles_of_caught (h : List.Forall₂ (Caught E V old exception) clauses c.cases)
    (ex : Binding) :
    Handles E.handler old c exception ex fun type => E.catches V ex type clauses := by
  intro type
  unfold Chain.handlerFor
  generalize c.cases = cases at h
  induction h with
  | nil =>
    show E.catches V ex type [] = throw ex
    rw [Evaluator.catches]
  | @cons k e clauses cases he _ ih =>
    beta_reduce at ih ⊢
    rw [List.find?_cons, he.kind, Evaluator.catches]
    by_cases htype : k.exceptionType = type ∨ k.exceptionType = TypeName.exception
    · have htakes : (decide (k.exceptionType = type) ||
          decide (k.exceptionType = TypeName.exception)) = true := by simpa using htype
      simp only [CaseKind.handler?, htakes, if_pos htype]
      exact fun M m ht hex => he.body ex M m ht hex
    · have htakes : (decide (k.exceptionType = type) ||
          decide (k.exceptionType = TypeName.exception)) = false := by simpa using htype
      simp only [CaseKind.handler?, htakes, if_neg htype]
      exact ih

theorem genFinally_realizes {body : Option (List Stmt)}
    (hb : ∀ b ∈ body, Realized E setting V b)
    (hs : Typed V s) :
    (genFinally (Stmt.lowerBlock? body)).Ensures setting s fun f s' l => Reserves s s' l ∧
      match body with
      | none => f = none
      | some b => ∃ last, f = some last ∧
        Performs E s.temps last.evaluation (Evaluation.confined (E.block V b)) fun _ => True := by
  cases body with
  | none =>
    unfold Stmt.lowerBlock?
    exact .pure ⟨.refl s, rfl⟩
  | some b =>
    unfold Stmt.lowerBlock? genFinally
    rw [ensures_bind, ensures_update]
    refine (scopedBody_realizes (s := s.enterFinally) (hb b rfl _ hs)).reserves ?_
    rintro ⟨scope, code⟩ s1 hsame htemps hdoes
    rw [ensures_bind, ensures_tryUpdate]
    intro s2 hs2
    unfold State.exitFinally at hs2
    split at hs2
    · cases hs2
    cases hs2
    refine .pure ⟨⟨rfl, ⟨hsame.scopes, hsame.handlers, ?_⟩, htemps⟩, _, rfl, hdoes.confined⟩
    show s1.finallyDepth - 1 = s.finallyDepth
    rw [hsame.finallyDepth]
    rfl

/-- The block and the clauses of a try statement. -/
def attempted (E : Evaluator σ) (V : Visible) (body : List Stmt) (clauses : List (Catch (List Stmt))) :
    Evaluation σ Completion :=
  Evaluator.rescue (Evaluation.confined (E.block V body)) fun e => do
    E.catches V e (← Evaluation.act do Exec.ofExcept ((← get).typeOf e)) clauses

theorem attempt_ends {b : TryBlock Instr} {M m : Machine σ}
    (hbody : Performs E old b.evaluation (Evaluation.confined (E.block V body)) fun _ => True)
    (hname : FreshTemp old b.exception)
    (hcases : List.Forall₂ (Caught E V old b.exception) clauses c.cases) (ht : Tracks M m)
    (depth : Nat) :
    Ends (attempt E.handler c b.evaluation b.exception depth) old (attempted E V body clauses) M m :=
  Ends.rescue depth (hbody M m ht trivial) fun ex _ _ ht1 _ =>
    (handles_of_caught hcases ex).ends hname ht1 depth

theorem genTry_realizes {finallyBody : Option (List Stmt)}
    (hb : Realized E setting V body)
    (hc : ∀ k ∈ clauses, CatchRealizes E setting V k) (hf : ∀ b ∈ finallyBody,
      Realized E setting V b)
    (token : Option Location) :
    StmtRealizes E setting V V
      (genTry location (Stmt.lowerBlock body) (Stmt.lowerCatches clauses)
        (Stmt.lowerBlock? finallyBody))
      (E.stmt V (.tryCatch token body clauses finallyBody)) := by
  apply StmtRealizes.of_same
  intro s hs
  refine .scopeId (.enterScope ?_)
  rw [ensures_bind, ensures_update]
  -- the protected block
  refine (scopedBody_realizes (s := s.inside.enterHandler
    (Stmt.lowerBlock? finallyBody).isSome) (hb _ hs)).reserves ?_
  rintro ⟨tryScope, code⟩ s1 hsame1 htemps1 hdoes1
  have htyped1 : Typed V s1 := by
    intro x
    unfold State.lookup
    rw [hsame1.scopes]
    exact hs x
  -- the clauses
  have hexception := newTemp_temp s1
  refine .temp ((genCatches_realizes hc (s := s1.temp.2) htyped1 hexception.upTo).reserves
    fun cases s2 hsame2 htemps2 hcases => ?_)
  rw [ensures_bind, ensures_tryUpdate]
  intro s3 hs3
  have hs3 : s3 = { s2 with handlers := s.handlers } := by
    unfold State.exitHandler at hs3
    rw [hsame2.handlers, show s1.temp.2.handlers = s1.handlers from rfl, hsame1.handlers] at hs3
    exact (Except.ok.inj hs3).symm
  have hsame3 : Same s.inside s3 := by
    rw [hs3]
    exact ⟨hsame2.scopes.trans hsame1.scopes, rfl, hsame2.finallyDepth.trans hsame1.finallyDepth⟩
  -- the finally block
  refine .check Chain.start_eq_ok ((genFinally_realizes hf (hs.enter.same hsame3)).reserves
    fun fin s4 hsame4 htemps4 hfin => .exitScope fun s5 hs5 => .check Chain.validate_eq_ok
      (.lastAll Chain.place_eq_ok ?_))
  have htemps23 : s3.temps = s2.temps := by rw [hs3]
  have htemps12 : s1.temps ≤ s2.temps := by
    have : s1.temp.2.temps = s1.temps + 1 := rfl
    omega
  have hold : s.temps ≤ s1.temps := htemps1
  refine ⟨same_of_exitNew (hsame3.trans hsame4).kept hs5, ?_, ?_⟩
  · rw [exitScope_eq hs5]
    show s.temps ≤ s4.temps
    omega
  apply placed_realizes
  intro M m ht _
  have hnew : FreshTemp s.temps s1.temp.1 := (freshTemp s1).of_le hold
  have hcaught : List.Forall₂ (Caught E V s.temps s1.temp.1) clauses cases :=
    hcases.imp fun _ _ h => Caught.of_le h (Nat.le_trans hold (Nat.le_succ _))
  cases finallyBody with
  | none =>
    subst hfin
    rw [Evaluator.stmt]
    exact Does.tryChain (b := ⟨tryScope, code, s1.temp.1⟩) rfl rfl rfl
      (attempt_ends hdoes1.confined hnew hcaught ht.tick _)
  | some b =>
    obtain ⟨last, rfl, hlast⟩ := hfin
    rw [Evaluator.stmt]
    exact Does.tryFinally (b := ⟨tryScope, code, s1.temp.1⟩) rfl rfl rfl
      (attempt_ends hdoes1.confined hnew hcaught ht.tick _)
      fun M1 m1 ht1 => (hlast M1 m1 ht1 trivial).of_le (by omega)

theorem expr_realizes (hE : E.Agrees setting) {e : Expr} (token : Option Location) :
    StmtRealizes E setting V V (do let _ ← e.lower.gen) (E.stmt V (.expr token e)) := by
  apply StmtRealizes.of_same
  intro s hs
  rw [Evaluator.stmt]
  refine (e.lower_realizes hE s).bind ?_
  rintro t s1 l ⟨hlater, _, hdoes⟩
  rw [ensures_pure, List.append_nil]
  exact ⟨hlater.same, hlater.temps, hdoes.performs⟩

/-- An assignment, as a statement. -/
theorem assigning_stmt_realizes {g : Gen Unit} {A : Evaluation σ Binding}
    {B : Binding → Evaluation σ Unit}
    (h : ∀ s, g.Ensures setting s fun _ s' l => Later s s' ∧
      Realizes E s.temps l (A >>= B) (fun _ => True) fun _ _ => True) :
    StmtRealizes E setting V V g (A >>= fun b => B b >>= fun _ => pure .next) := by
  apply StmtRealizes.of_same
  intro s hs
  refine (h s).mono ?_
  rintro _ s1 l ⟨hlater, hdoes⟩
  rw [← bind_assoc]
  exact ⟨hlater.same, hlater.temps, hdoes.performs⟩

end Lowering

/-! ### Recursion on the source -/

theorem GuardIn.named {U : List String} {guard : Option Guard} (h : GuardIn U guard) :
    ∀ g ∈ guard, Ordinary g.name :=
  fun g hg => (h g hg).1.2

namespace Stmt

variable {E : Evaluator σ} {setting : Setting}

mutual

/-- The code of a statement does what its evaluation does. -/
theorem lower_realizes (hE : E.Agrees setting) (s : Stmt) {U : List String} {V : Visible}
    (h : ScopedIn U s) :
    StmtRealizes E setting V (V.behind s) s.lower (E.stmt V s) := by
  cases s <;> simp only [ScopedIn] at h <;> unfold lower
  case declare token name type init =>
    exact .located fun location => genDeclare_realizes hE h.1.2 token
  case assign token name value =>
    refine .located fun location => ?_
    rw [Evaluator.stmt]
    exact assigning_stmt_realizes fun s => genAssign_realizes (valueOf_realizes hE value s)
  case assignField token object field value =>
    refine .located fun location => ?_
    rw [Evaluator.stmt]
    exact assigning_stmt_realizes fun s => genAssignField_realizes (valueOf_realizes hE value)
  case assignUnset token name value =>
    exact .located fun location => genAssignUnset_realizes hE token
  case expr token e => exact expr_realizes hE token
  case ifElse token guard branches otherwise =>
    obtain ⟨hguard, hbranches, hotherwise⟩ := h
    exact .located fun location => genIf_realizes hE hguard.named
      (branches_realize hE branches hbranches)
      (block?_realizes hE otherwise hotherwise) token
  case switch token guard subject cases otherwise returning =>
    obtain ⟨hguard, -, hreturning, hcases, hotherwise⟩ := h
    exact .located fun location => genSwitch_realizes hE hguard.named hreturning.named
      (cases_realize hE cases hcases)
      (block?_realizes hE otherwise hotherwise) token
  case whileLoop token guard condition body =>
    exact .located fun location => genWhile_realizes hE h.1.named
      (lowerBlock_realizes hE body h.2.2) token
  case doWhile token body condition =>
    exact .located fun location => genDoWhile_realizes hE
      (lowerBlock_realizes hE body h.1) token
  case forIn token name type collection body =>
    exact .located fun location => genForIn_realizes hE h.2.1.2
      (lowerBlock_realizes hE body h.2.2) token
  case forRange token name type first last step body =>
    exact .located fun location => genForRange_realizes hE h.2.2.2.1.2
      (lowerBlock_realizes hE body h.2.2.2.2) token
  case tryCatch token body catches finallyBody =>
    exact .located fun location => genTry_realizes
      (lowerBlock_realizes hE body h.1) (catches_realize hE catches h.2.1)
      (block?_realizes hE finallyBody h.2.2) token
  case ret token value => exact .located fun location => genReturn_realizes hE token
  case throw token value => exact .located fun location => genThrow_realizes hE token
  case assert token condition => exact .located fun location => genAssert_realizes hE token

/-- The code of a block does what its evaluation does. -/
theorem lowerBlock_realizes (hE : E.Agrees setting) (l : List Stmt) {U : List String} {V : Visible}
    (h : BlockIn U l) : Realized E setting V l := by
  cases l with
  | nil =>
    unfold Realized lowerBlock
    rw [Evaluator.block]
    refine fun s hs => .pure ⟨.refl s, Nat.le_refl _, fun M m ht _ r M' hr => ?_⟩
    obtain ⟨rfl, rfl⟩ := Evaluation.pure_eq_ok hr
    exact ⟨.next, m, .nil m, ht, .refl _ _, rfl⟩
  | cons stmt rest =>
    simp only [BlockIn] at h
    intro s hs
    unfold lowerBlock
    refine (lower_realizes hE stmt h.1 s hs).bind ?_
    rintro _ s1 l1 ⟨hkept1, htemps1, htyped1, hdoes1⟩
    cases hd : stmt.departs with
    | true =>
      rw [if_pos rfl, ensures_pure, List.append_nil, E.block_of_departs rest hd]
      exact ⟨hkept1, htemps1, hdoes1⟩
    | false =>
      rw [if_neg (by simp)]
      refine (lowerBlock_realizes hE rest h.2 s1 htyped1).mono ?_
      rintro _ s2 l2 ⟨hkept2, htemps2, hdoes2⟩
      rw [Evaluator.block]
      exact ⟨hkept1.trans hkept2, Nat.le_trans htemps1 htemps2,
        hdoes1.andThen (hdoes2.of_le htemps1) fun _ _ _ _ => trivial⟩

theorem block?_realizes (hE : E.Agrees setting) (l : Option (List Stmt)) {U : List String}
    {V : Visible} (h : BlockIn? U l) : ∀ b ∈ l, Realized E setting V b := by
  cases l with
  | none => simp
  | some block =>
    simp only [BlockIn?] at h
    intro b hb
    cases hb
    exact lowerBlock_realizes hE block h

theorem branches_realize (hE : E.Agrees setting) (l : List (Expr × List Stmt)) {U : List String}
    {V : Visible} (h : BranchesIn U l) : ∀ b ∈ l, Realized E setting V b.2 := by
  cases l with
  | nil => simp
  | cons b rest =>
    obtain ⟨condition, block⟩ := b
    simp only [BranchesIn, BranchIn] at h
    exact List.forall_mem_cons.2
      ⟨lowerBlock_realizes hE block h.1.2, branches_realize hE rest h.2⟩

theorem cases_realize (hE : E.Agrees setting) (l : List (SwitchCase (List Stmt))) {U : List String}
    {V : Visible} (h : CasesIn U l) : ∀ k ∈ l, Realized E setting V k.body := by
  cases l with
  | nil => simp
  | cons k rest =>
    obtain ⟨test, body⟩ := k
    simp only [CasesIn, CaseIn] at h
    exact List.forall_mem_cons.2
      ⟨lowerBlock_realizes hE body h.1.2, cases_realize hE rest h.2⟩

theorem catches_realize (hE : E.Agrees setting) (l : List (Catch (List Stmt))) {U : List String}
    {V : Visible} (h : CatchesIn U l) : ∀ k ∈ l, CatchRealizes E setting V k := by
  cases l with
  | nil => simp
  | cons k rest =>
    obtain ⟨type, name, body⟩ := k
    simp only [CatchesIn, CatchIn] at h
    exact List.forall_mem_cons.2 ⟨⟨h.1.1.2, lowerBlock_realizes hE body h.1.2⟩,
      catches_realize hE rest h.2⟩

end

end Stmt

end ScopedIR
