import ScopedIR.Proofs.RealizedChoice

/-!
# The code of loops realizes them

A loop is repeated as often in the run as evaluation repeats it. What a loop works with besides its
variable, such as an iterator, stays in temporaries that were issued in front of the loop, and its
rounds leave these alone.

Main statements: `genWhile_realizes`, `genDoWhile_realizes` and `genForIn_realizes`.
-/

namespace ScopedIR.Lowering

open Exec Instr Layout Gen

variable {σ : Type} {E : Evaluator σ} {setting : Setting} {s s0 : State} {V : Visible} {old : Nat}
  {location : Option Location} {G : Vars → Prop} {name type : String} {B : Evaluation σ Completion}
  {block : BlockCode} {T : Evaluation σ Bool} {guard : Option Guard} {condition : Code}
  {kind : ChainKind} {body : List Stmt}

/-! ### Loops -/

/-- The condition and the block of a loop, whichever was generated first. -/
theorem genLoopParts_realizes {bodyFirst : Bool}
    (hcondition : ∀ s', s.temps ≤ s'.temps → TestAt E setting s' (genCondition condition) T G)
    (hblock : ∀ s', s.temps ≤ s'.temps → Typed V s' → BlockAt E setting s' block B G)
    (hs : Typed V s) :
    (genLoopParts bodyFirst condition block).Ensures setting s fun r s' l => Reserves s s' l ∧
      Realizes E s.temps r.1.1.evaluation T G (fun p => Bound r.1.1.primitive (.primitive p)) ∧
      Performs E s.temps r.2.2 B G := by
  unfold genLoopParts
  cases bodyFirst with
  | true =>
    refine (scopedBody_realizes (hblock _ (Nat.le_refl _) hs.enter)).reserves
      fun body s1 hsame1 htemps1 hdoes1 => ?_
    refine (hcondition s1 htemps1).reserves fun test s2 hsame2 htemps2 hdoes2 => .pure ?_
    exact ⟨⟨rfl, hsame1.trans hsame2, Nat.le_trans htemps1 htemps2⟩, hdoes2.of_le htemps1, hdoes1⟩
  | false =>
    refine (hcondition s (Nat.le_refl _)).reserves fun test s1 hsame1 htemps1 hdoes1 => ?_
    refine (scopedBody_realizes (hblock _ htemps1 (hs.same hsame1).enter)).reserves
      fun body s2 hsame2 htemps2 hdoes2 => .pure ?_
    exact ⟨⟨rfl, hsame1.trans hsame2, Nat.le_trans htemps1 htemps2⟩, hdoes1, hdoes2.of_le htemps1⟩

theorem genGuardUpdate_realizes (hE : E.Agrees setting) (g : Guard) (hs : Typed V s) :
    (genGuardUpdate g.lower).Ensures setting s fun updates s' l => Reserves s s' l ∧
      Performs E s.temps updates
        ((E.valueOf g.init >>= Evaluation.assign g.name) >>= fun _ => pure .next) fun _ => True := by
  refine .scopeId (.captured ((genScoped_realizes (assigning_block hE _ hs.enter)).mono ?_))
  rintro _ s1 l1 ⟨hsame, htemps, hdoes⟩
  exact .pure ⟨⟨rfl, ⟨hsame.scopes, hsame.handlers, hsame.finallyDepth⟩, htemps⟩, hdoes⟩

/-- A loop in its place, and what its parts do. -/
def Repeats (E : Evaluator σ) (old : Nat) (location : Option Location) (kind : ChainKind)
    (l : List Instr) (T : Evaluation σ Bool) (B : Evaluation σ Completion) (G : Vars → Prop) : Prop :=
  ∃ c e, l = Chain.placed c none location ∧ c.LoopsOn kind e ∧ LoopParts E.handler old e T B G

/-- The end of a loop: the chain in its place. -/
theorem closeLoop_realizes {cases : List (Case Instr)}
    (hsame : Same s0.inside s) :
    (do
      Gen.exitScope s0.scopeId.1
      let chain ← Gen.ofExcept (Chain.start kind s0.scopeId.1)
      let chain ← Gen.ofExcept (Chain.validate { chain with cases })
      Gen.emitAll (chain.place none location)).Ensures setting s fun _ s' l => Same s0 s' ∧
        s.temps ≤ s'.temps ∧
        l = Chain.placed { kind, scope := s0.scopeId.1, cases } none location := by
  refine .exitScope fun s1 hs1 => .check Chain.start_eq_ok (.check Chain.validate_eq_ok
    (.lastAll Chain.place_eq_ok ⟨same_of_exitNew hsame.kept hs1, ?_, rfl⟩))
  rw [exitScope_eq hs1]

theorem loopParts_case {e : Case Instr} {U : Evaluation σ Completion}
    (htest : Realizes E old e.condition.evaluation T G
      fun p => Bound e.condition.primitive (.primitive p))
    (hbody : Performs E old e.body.evaluation B G)
    (hupdates : Performs E old e.updates U fun _ => True)
    (hkeep : Lasting old G) : LoopParts E.handler old e T
      (Evaluation.confined B >>= fun k => match k with
        | .next => U
        | left => pure left) G where
  test := htest
  body := hbody.confined.andThen hupdates fun _ _ _ _ => trivial
  keep := hkeep

/-- Going on with nothing. -/
theorem bind_completed (A : Evaluation σ Completion) :
    (A >>= fun k => match k with
      | .next => pure .next
      | left => pure left) = A := by
  have heta : (fun k : Completion => match k with
      | .next => pure .next
      | left => pure left : Completion → Evaluation σ Completion) = pure := by
    funext k
    cases k <;> rfl
  rw [heta, bind_pure]

theorem genLoop_realizes
    (hcondition : ∀ s', s.temps ≤ s'.temps → TestAt E setting s' (genCondition condition) T G)
    (hblock : ∀ s', s.temps ≤ s'.temps → Typed V s' → BlockAt E setting s' block B G)
    (hkeep : Lasting s.temps G) (hs : Typed V s) :
    (genLoop location kind condition block none).Ensures setting s fun _ s' l => Same s s' ∧
      s.temps ≤ s'.temps ∧
      Repeats E s.temps location kind l T (Evaluation.confined B) G := by
  refine .scopeId (.enterScope ((genLoopParts_realizes
    (s := s.inside) hcondition hblock hs.enter).reserves ?_))
  rintro ⟨⟨condition, conditionScope⟩, ⟨bodyScope, body⟩⟩ s1 hsame1 htemps1 ⟨htest, hbody⟩
  refine ensures_bind.2 (.pure ((closeLoop_realizes hsame1).mono ?_))
  rintro _ s2 l2 ⟨hsame2, htemps2, rfl⟩
  refine ⟨hsame2, Nat.le_trans htemps1 htemps2, _, _, rfl, ⟨rfl, rfl, rfl, rfl⟩, ?_⟩
  have hnothing : Performs E s.temps [] (pure .next) fun _ => True :=
    fun M m ht _ => (Does.pure (P := fun k _ => k = .next) ht rfl).mono fun k c vars h => by
      rw [h.1, h.2]
      rfl
  have hparts := loopParts_case (e := { Case.build .expression (some conditionScope) condition
      { evaluation := body } with bodyScope := some bodyScope }) htest hbody hnothing hkeep
  rw [bind_completed] at hparts
  exact hparts

theorem genLoop_guarded_realizes (hE : E.Agrees setting)
    (hcondition : TestRealizes E setting (genCondition condition) T)
    (hblock : BlockRealizes E setting V block B) (g : Guard) (hs : Typed V s) :
    (genLoop location kind condition block (some g.lower)).Ensures setting s fun _ s' l => Same s s' ∧
      s.temps ≤ s'.temps ∧
      Repeats E s.temps location kind l T
        (Evaluation.confined B >>= fun k => match k with
          | .next => (E.valueOf g.init >>= Evaluation.assign g.name) >>= fun _ => pure .next
          | left => pure left) fun _ => True := by
  refine .scopeId (.enterScope ((genLoopParts_realizes (fun s' _ => hcondition s')
    (fun s' _ => hblock s') hs.enter).reserves ?_))
  rintro ⟨⟨condition, conditionScope⟩, ⟨bodyScope, body⟩⟩ s1 hsame1 htemps1 ⟨htest, hbody⟩
  refine (genGuardUpdate_realizes hE g (hs.enter.same hsame1)).reserves
    fun updates s2 hsame2 htemps2 hupdates => (closeLoop_realizes (hsame1.trans hsame2)).mono ?_
  rintro _ s3 l3 ⟨hsame3, htemps3, rfl⟩
  refine ⟨hsame3, Nat.le_trans htemps1 (Nat.le_trans htemps2 htemps3), _, _, rfl,
    ⟨rfl, rfl, rfl, rfl⟩, ?_⟩
  exact loopParts_case (e := { Case.build .expression (some conditionScope) condition
      { evaluation := body } with bodyScope := some bodyScope, updates }) htest hbody
    (hupdates.of_le htemps1) fun _ _ _ _ => trivial

/-- A loop with the test first. -/
theorem Repeats.while {l : List Instr} (h : Repeats E old location .whileLoop l T B G) (n : Nat) :
    Performs E old l (Evaluation.repeatWhile T B n) G := by
  obtain ⟨c, e, rfl, hc, hparts⟩ := h
  apply placed_realizes
  intro M m ht hg
  exact Does.whileLoop hc hparts n ht hg

theorem genWhile_realizes (hE : E.Agrees setting) {condition : Expr}
    (hname : ∀ g ∈ guard, Ordinary g.name)
    (hb : Realized E setting (V.guard guard) body) (token : Option Location) :
    StmtRealizes E setting V V
      (genWhile location (guard.map Guard.lower) condition.lower (Stmt.lowerBlock body))
      (E.stmt V (.whileLoop token guard condition body)) := by
  apply StmtRealizes.of_same
  intro s hs
  rw [Evaluator.stmt]
  cases guard with
  | none =>
    refine (genLoop_realizes (fun s' _ => holds_realizes hE condition s') (fun s' _ => hb s')
      (fun _ _ _ _ => trivial) hs).mono ?_
    rintro _ s1 l ⟨hsame, htemps, hrepeats⟩
    refine ⟨hsame, htemps, ?_⟩
    have hloop := hrepeats.while E.rounds
    rw [← bind_completed (Evaluation.confined _)] at hloop
    exact hloop
  | some g =>
    refine (openGuard_realizes hE (hname g rfl) hs).bind ?_
    rintro guards s1 l1 ⟨rfl, htemps1, hs1, hkept1, hscope, hdoes1⟩
    refine .captured ((genLoop_guarded_realizes hE (holds_guarded_realizes hE g condition) hb g
      hs1).mono ?_)
    rintro _ s2 l2 ⟨hsame2, htemps2, c, e, rfl, hc, hparts⟩
    refine .exitScope fun s3 hs3 => .emit scopeEnter_eq_ok (.emitAll (fun h => (Except.ok.inj h).symm)
      (.last scopeExit_eq_ok ?_))
    rw [hscope] at hs3
    refine ⟨same_of_exitNew (hkept1.trans hsame2.kept) hs3, ?_, ?_⟩
    · rw [exitScope_eq hs3]
      exact Nat.le_trans htemps1 htemps2
    · have hloop : Performs E s.temps [chained location c]
          (Evaluation.repeatWhile (E.holds (some g) condition)
            (Evaluation.confined (E.block (V.insert g.name g.type) body) >>= fun k => match k with
              | .next => (E.valueOf g.init >>= Evaluation.assign g.name) >>= fun _ => pure .next
              | left => pure left) E.rounds) fun _ => True :=
        fun M m ht hg => (Does.whileLoop hc hparts E.rounds ht hg).of_le htemps1
      have hsetup : SetsUp E s.temps (some g) (some guards) := hdoes1
      have hplaced := placed_guarded_realizes hsetup hloop
      simp only [bind_assoc] at hplaced
      show Performs E s.temps ([_] ++ ((guards.setup ++ c.placed none location) ++ [_])) _ _
      rw [← List.append_assoc]
      exact hplaced

theorem genDoWhile_realizes (hE : E.Agrees setting) {condition : Expr}
    (hb : Realized E setting V body)
    (token : Option Location) :
    StmtRealizes E setting V V
      (genLoop location .doWhileLoop condition.lower (Stmt.lowerBlock body) none)
      (E.stmt V (.doWhile token body condition)) := by
  apply StmtRealizes.of_same
  intro s hs
  refine (genLoop_realizes (fun s' _ => holds_realizes hE condition s') (fun s' _ => hb s')
    (fun _ _ _ _ => trivial) hs).mono ?_
  rintro _ s1 l ⟨hsame, htemps, c, e, hl, hc, hparts⟩
  refine ⟨hsame, htemps, ?_⟩
  rw [hl, Evaluator.stmt]
  apply placed_realizes
  intro M m ht hg
  exact Does.doWhile hc hparts E.rounds ht hg

/-! ### Operands in temporaries -/

variable {A : Evaluation σ Binding} {c : Code} {args : List Code} {symbol : Symbol}

theorem ValueAt.mono {g : Gen String} {H : Vars → Prop} (h : ValueAt E setting s g A G)
    (hG : ∀ vars, H vars → G vars) : ValueAt E setting s g A H :=
  Ensures.mono h fun _ _ _ h => ⟨h.1, h.2.1, h.2.2.mono hG fun _ _ h => h⟩

/-- The value of code that always has one. -/
theorem ValueAt.value {g : Gen String} (h : ValueAt E setting s g A G) (hc : c.gen = some <$> g) :
    ValueAt E setting s c.value A G := by
  unfold ValueAt Code.value
  rw [hc, ensures_bind, ensures_map]
  refine Ensures.mono h fun t s1 l1 ht => ?_
  rw [ensures_pure, List.append_nil]
  exact ht

theorem lookup_at (x type : String) :
    ValueAt E setting s (Code.ofVar x type).value (Evaluation.lookup x) G :=
  ((variable_realizes x s).value rfl).mono fun _ _ => trivial

/-- A temporary that evaluation knows the value of. -/
theorem copy_at (x type : String) {b : Binding} (hx : ∀ vars, G vars → Bound x b vars) :
    ValueAt E setting s (Code.ofVar x type).value (pure b) G :=
  ((genVar_realizes copy_realizes).value rfl).mono hx

/-- What is generated for arguments in the state `s`. -/
def ValuesAt (E : Evaluator σ) (setting : Setting) (s : State) (args : List Code)
    (As : Evaluation σ (List Binding)) (given : Vars → Prop) : Prop :=
  (Code.values args).Ensures setting s fun ts s' l => Later s s' ∧
    Realizes E s.temps l As given fun bs vars => AllBound vars ts bs

theorem nothing_at : ValuesAt E setting s [] (pure []) G :=
  .pure ⟨.refl s, .pure fun _ _ => .nil⟩

theorem single_at (h : ValueAt E setting s c.value A G) :
    ValuesAt E setting s [c] ((fun b => [b]) <$> A) G := by
  refine Ensures.bind h ?_
  rintro t s1 l1 ⟨hlater, -, hdoes⟩
  refine ensures_bind.2 (.pure (.pure ⟨hlater, Realizes.map ?_⟩))
  rw [List.append_nil, List.append_nil]
  exact hdoes.mono (fun _ h => h) fun b vars hb => .cons hb .nil

/-- A call of a method. Its receiver stays what it is while the arguments are evaluated. -/
theorem ofCall_at (c : Code) (symbol : Symbol) (args : List Code) (hE : E.Agrees setting)
    {As : Evaluation σ (List Binding)} (hc : symbol.isConstructor = false) (hd : symbol.dispatch = .method) (hG : Lasting s.temps G)
    (ht : ValueAt E setting s c.value A G)
    (ha : ∀ s', s.temps ≤ s'.temps → ValuesAt E setting s' args As G) :
    ValueAt E setting s (Code.ofCall c symbol args).value
      (A >>= fun b => As >>= fun bs => E.ask b symbol bs) G := by
  unfold ValueAt Code.value Code.ofCall
  dsimp only
  rw [ensures_bind]
  unfold genApply
  rw [hc, if_neg (by simp), ensures_bind, genTarget, hd]
  dsimp only
  rw [ensures_bind]
  refine Ensures.mono ht ?_
  rintro t s1 l1 ⟨hlater1, ht, hdoes1⟩
  rw [ensures_pure, ensures_bind]
  refine Ensures.mono (ha s1 hlater1.temps) ?_
  rintro ts s2 l2 ⟨hlater2, hdoes2⟩
  refine (genCall_realizes hE).mono ?_
  rintro y s3 l3 ⟨hlater3, hy, hdoes3⟩
  cases y with
  | none => exact .fail
  | some u =>
    have hlater := hlater1.trans hlater2
    refine .pure ⟨hlater.trans hlater3, (hy u rfl).between hlater (.refl s3), ?_⟩
    have hopcode : (if symbol.traitMember = true then Opcode.callVirtual else Opcode.call) ≠
        Opcode.callStatic := by
      split <;> simp
    have hask : ∀ b bs, Realizes E s2.temps l3 (E.ask b symbol bs)
        (fun vars => Bound t b vars ∧ AllBound vars ts bs) (Bound u) := fun b bs =>
      Realizes.valued ((hdoes3 (some b) bs).mono (fun _ h => ⟨⟨hopcode, h.1⟩, h.2⟩) fun _ _ h => h)
    have hargs : ∀ b, Realizes E s1.temps (l2 ++ l3) (As >>= fun bs => E.ask b symbol bs)
        (fun vars => Bound t b vars ∧ G vars) (Bound u) := fun b =>
      (hdoes2.mono (fun _ h => h.2) fun _ _ h => h).bind (hask b) hlater2.temps
        fun bs vars vars' h hk hbs => ⟨(hk.temps _ ht.upTo).trans h.1, hbs⟩
    have hcall := hdoes1.bind hargs hlater1.temps fun b vars vars' hg hk hb => ⟨hb, hG _ _ hg hk⟩
    simpa using hcall

/-! ### Loops over collections -/

/-- A call on the iterator of a loop. -/
theorem cursor_at (hE : E.Agrees setting) {x : String} (hc : symbol.isConstructor = false)
    (hd : symbol.dispatch = .method) (b : Binding) (hx : TempUpTo s.temps x) :
    ValueAt E setting s (Code.ofCall (Code.ofVar x type) symbol []).value (E.ask b symbol [])
      (Bound x b) := by
  have h : ValueAt E setting s (Code.ofCall (Code.ofVar x type) symbol []).value
      (pure b >>= fun b => pure [] >>= fun bs => E.ask b symbol bs) (Bound x b) :=
    ofCall_at _ _ _ hE hc hd (fun _ _ hb hk => (hk.temps x hx).trans hb) (copy_at x type fun _ h => h)
      fun _ _ => nothing_at
  simpa using h

theorem genForIn_realizes (hE : E.Agrees setting) {collection : Expr}
    (hname : Ordinary name)
    (hb : Realized E setting (V.insert name type) body) (token : Option Location) :
    StmtRealizes E setting V V
      (genForIn location name type collection.lower (Stmt.lowerBlock body))
      (E.stmt V (.forIn token name type collection body)) := by
  apply StmtRealizes.of_same
  intro s hs
  rw [Evaluator.stmt]
  refine .scopeId ?_
  -- every round takes the next item first
  have hround : ∀ (iterator : String) b s, TempUpTo s.temps iterator → Typed (V.insert name type) s →
      BlockAt E setting s (do
        genAssign none name (.ofCall (.ofVar iterator TypeName.iterator)
          (Symbol.method TypeName.iterator "next" type) [])
        Stmt.lowerBlock body)
      ((E.ask b (Symbol.method TypeName.iterator "next" type) [] >>= Evaluation.assign name) >>=
        fun _ => E.block (V.insert name type) body) (Bound iterator b) := by
    refine fun iterator b s hup hs => (genAssign_realizes (cursor_at hE rfl rfl b hup)).bind ?_
    rintro _ s1 l1 ⟨hlater, hdoes1⟩
    refine (hb s1 (hs.same hlater.same)).mono ?_
    rintro _ s2 l2 ⟨hkept, htemps, hdoes2⟩
    refine ⟨hlater.same.kept.trans hkept, Nat.le_trans hlater.temps htemps, ?_⟩
    exact hdoes1.perform (fun _ => hdoes2) hlater.temps fun _ _ _ _ _ h => h
  apply genConfined_realizes
  rw [collection.type_lower]
  refine (valueOf_realizes hE collection _).bind ?_
  rintro items s1 l1 ⟨hlater1, hitems, hdoes1⟩
  refine (genCallValue_realizes hE).bind ?_
  rintro iterator s2 l2 ⟨hlater2, hiterator, hdoes2⟩
  refine .emitAll Ownership.declare_eq_ok (.declare fun s3 hs3 => ensures_bind.2 ?_)
  have htemps3 := temps_declare hs3
  have hlater := hlater1.trans hlater2
  have hup : TempUpTo s3.temps iterator := htemps3 ▸ hiterator.upTo
  refine (Ensures.all fun b => genLoop_realizes
    (fun s' h => genCondition_realizes hE (cursor_at hE rfl rfl b (hup.mono h)))
    (fun s' h => hround iterator b s' (hup.mono h)) ?_
    ((hs.enter.same hlater.same).declare hs3)).mono ?_
  · exact fun vars vars' hb hk => (hk.temps _ hup).trans hb
  · intro _ s4 l4 hloop
    obtain ⟨hsame4, htemps4, -⟩ := hloop .null
    rw [ensures_pure, List.append_nil]
    refine ⟨hlater.same.kept.trans ((kept_declare hs3).trans hsame4.kept),
      Nat.le_trans hlater.temps (htemps3 ▸ htemps4), ?_⟩
    apply hdoes1.perform _ hlater1.temps fun _ _ _ _ _ h => h
    intro list
    apply ((hdoes2 list []).mono (fun _ h => ⟨h, .nil⟩) fun _ _ h => h).perform _ hlater2.temps
      fun _ _ _ _ _ h => h
    intro b
    have hrounds := (hloop b).2.2.while E.rounds
    simp only [bind_assoc] at hrounds
    apply (declare_realizes hname).perform (fun _ => hrounds) (Nat.le_of_eq htemps3.symm)
    intro _ vars vars' hb hk _
    exact (hk.temps _ hiterator.upTo).trans hb

end ScopedIR.Lowering
