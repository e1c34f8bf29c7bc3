import ScopedIR.Proofs.RealizedCalls

/-!
# The code of expressions realizes them

Every form of expression is lowered to code that does what evaluating the expression does, and that
binds the name it answers to the value of the expression.

Main statement: `Expr.lower_realizes`, by recursion on the source.
-/

namespace ScopedIR

variable {σ : Type}

open Exec Instr

namespace Lowering

open Gen

variable {E : Evaluator σ} {setting : Setting} {location : Option Location} {s : State} {old : Nat}
  {t type x op : String} {b : Binding} {A L R : Evaluation σ (Option Binding)} {es : List Expr}
  {symbol operator : Symbol} {left right : Code} {target : Option Expr}

theorem ofOperator_eq {method : String} {params : List String}
    (h : operatorMethod op = .ok method) :
    Symbol.ofOperator type op params =
      ((Symbol.method type method TypeName.boolean).asPure).withParams params := by
  unfold operatorMethod at h
  unfold Symbol.ofOperator
  cases hm : Operator.methodFor? op with
  | none =>
    rw [hm] at h
    cases h
  | some name =>
    rw [hm] at h
    cases h
    rfl

/-- The test for null. -/
theorem isNull_realizes (ht : FreshTemp old t) :
    Realizes E old [simple location .isNull [x] (some t)] (pure (decide (b = .null))) (Bound x b)
      fun p => Bound t (.primitive p) := by
  intro M m htracks hb r M' hr
  obtain ⟨rfl, rfl⟩ := Evaluation.pure_eq_ok hr
  exact ⟨.next, _, Completes.isNull (Layout.lookup_eq_ok hb), htracks.tick.temp ht.isTemp,
    .insert ht.fresh, rfl, FinMap.get?_insert_self _ _ _⟩

theorem isSet_eq (type : String) (b : Binding) :
    E.isSet type b = pure (decide (b = .null)) >>= fun p =>
      if p then Evaluation.literal "false" TypeName.boolean
      else E.ask b (Symbol.ofOperator type "?" []) [] := by
  rw [pure_bind]
  unfold Evaluator.isSet
  by_cases hb : b = .null
  · simp [hb]
  · simp [hb]

theorem logical_eq (op : LogicalOp) (leftType rightType : String) (left right : Evaluation σ Binding) :
    E.logical op leftType rightType left right =
      (left >>= fun l => E.truth leftType l >>= fun p => pure (l, p)) >>= fun q =>
        if decides op q.2 then pure q.1
        else right >>= fun r =>
          E.ask q.1 (Symbol.ofOperator leftType (logicalSymbol op) [rightType]) [r] := by
  simp only [Evaluator.logical, bind_assoc, pure_bind]

/-- The receiver of a call stays what it is while arguments are evaluated. -/
theorem genTarget_realizes (h : ∀ e ∈ target, e.lower.Realizes E setting (E.expr e)) :
    (genTarget symbol (target.map Expr.lower)).Ensures setting s fun a s' l =>
      Later s s' ∧ (a.1 = .callStatic ∨ TempUpTo s'.temps a.2) ∧
        Realizes E s.temps l (E.receiver (symbol.dispatch ≠ .static) target) (fun _ => True)
          fun b vars => Receives a.1 a.2 vars b := by
  unfold genTarget
  cases target with
  | none =>
    simp only [Option.map_none, Evaluator.receiver]
    exact .pure ⟨.refl s, .inl rfl, .pure fun _ _ => rfl⟩
  | some e =>
    have he := h e rfl
    -- a target that receives the call
    have hvalue : ∀ opcode : Opcode, opcode ≠ .callStatic →
        (e.lower.value >>= fun t => pure (opcode, t)).Ensures setting s fun a s' l =>
          Later s s' ∧ (a.1 = .callStatic ∨ TempUpTo s'.temps a.2) ∧
            Realizes E s.temps l (E.expr e >>= fun b => some <$> Evaluation.value b) (fun _ => True)
              fun b vars => Receives a.1 a.2 vars b := by
      refine fun opcode hopcode => (value_realizes he s).bind ?_
      rintro t s1 l1 ⟨hlater, ht, hdoes⟩
      rw [ensures_pure, List.append_nil, ← map_bind]
      refine ⟨hlater, .inr ht.upTo, Realizes.map ?_⟩
      exact hdoes.mono (fun _ h => h) fun b vars hb => ⟨hopcode, hb⟩
    simp only [Option.map_some, Evaluator.receiver]
    cases symbol.dispatch with
    | static =>
      refine (he s).bind ?_
      rintro x s1 l1 ⟨hlater, _, hdoes⟩
      exact .pure ⟨hlater, .inl rfl, hdoes.andThen (fun b => .pure fun _ _ => rfl) (Nat.le_refl _)⟩
    | dispatcher => exact hvalue .callDispatcher (by simp)
    | method =>
      cases symbol.traitMember with
      | true => exact hvalue .callVirtual (by simp)
      | false => exact hvalue .call (by simp)

/-- A value is answered by a temporary. -/
theorem ValueRealizes.answered {g : Gen String} {V : Evaluation σ Binding}
    (h : ValueRealizes E setting g V) : CodeAt E setting s (some <$> g) (some <$> V) := by
  refine ensures_map.2 ((h s).mono ?_)
  rintro t s' l ⟨hlater, ht, hdoes⟩
  refine ⟨hlater, ?_, hdoes.answers⟩
  intro t' ht'
  cases ht'
  exact ht

/-! ### Forms of expressions -/

section

variable (hE : E.Agrees setting)

include hE

theorem genConstruct_realizes (location : Option Location) (symbol : Symbol)
    (h : ∀ e ∈ es, e.lower.Realizes E setting (E.expr e)) :
    ValueRealizes E setting (genConstruct location symbol (es.map Expr.lower))
      (E.exprs es >>= E.construct symbol) := by
  refine fun s => (values_realize h).bind ?_
  rintro ts s1 l1 ⟨hlater1, hts, hdoes1⟩
  refine .temp (.currentScope fun k hk => .emitAt Instr.allocObject_eq_ok
    (.emitAll Ownership.register_eq_ok ((genCall_realizes hE).bind ?_)))
  rintro x s3 l3 ⟨hlater3, _, hdoes3⟩
  have hlater2 := Later.temp s1
  have hobject : TempUpTo s1.temp.2.temps s1.temp.1 := tempUpTo_temp s1
  refine .pure ⟨hlater1.trans (hlater2.trans hlater3), (newTemp_temp s1).between hlater1 hlater3, ?_⟩
  refine hdoes1.andThen (fun bs => ?_) hlater1.temps
  -- the arguments stay bound while the object is created
  have hcreate := (make_realizes (E := E) (G := fun vars => AllBound vars ts bs)
    (i := simple location .allocObject [symbol.owner] (some s1.temp.1)) (freshTemp s1)
    fun _ => .allocObject).append_idle (registering_idle location s1.temp.1 k)
  show Realizes E s1.temps ([simple location .allocObject [symbol.owner] (some s1.temp.1)] ++
    Layout.registering location s1.temp.1 k ++ (l3 ++ [])) _ _ _
  refine hcreate.bind (H := fun object vars => Bound s1.temp.1 object vars ∧ AllBound vars ts bs)
    (fun object => ?_) hlater2.temps fun object vars vars' hbs hk hobj => ⟨hobj, hbs.keep hk hts⟩
  refine ((hdoes3 (some object) bs).mono (fun _ h => ⟨receives_call h.1, h.2⟩) fun _ _ h => h).bind
    (H := fun _ => Bound s1.temp.1 object) (fun _ => .pure fun _ h => h) (Nat.le_refl _) ?_
  intro _ vars vars' hg hk _
  exact (hk.temps _ hobject).trans hg.1

theorem genItems_realizes {list : String}
    (h : ∀ e ∈ es, e.lower.Realizes E setting (E.expr e)) (hlist : TempUpTo s.temps list) :
    (genItems location list (es.map Expr.lower)).Ensures setting s fun _ s' l =>
      Later s s' ∧ ∀ b, Realizes E s.temps l (E.items b es) (Bound list b) fun _ => Bound list b := by
  induction es generalizing s with
  | nil =>
    simp only [List.map_nil, genItems, Evaluator.items]
    exact .pure ⟨.refl s, fun b => .pure fun _ h => h⟩
  | cons e rest ih =>
    rw [List.forall_mem_cons] at h
    simp only [List.map_cons, genItems, Evaluator.items]
    refine (value_realizes h.1 s).bind ?_
    rintro t s1 l1 ⟨hlater1, ht, hdoes1⟩
    refine (genCall_realizes hE).bind ?_
    rintro x s2 l2 ⟨hlater2, _, hdoes2⟩
    have hlist2 := hlist.mono (hlater1.trans hlater2).temps
    refine (ih h.2 hlist2).mono ?_
    rintro _ s3 l3 ⟨hlater3, hdoes3⟩
    refine ⟨hlater1.trans (hlater2.trans hlater3), fun b => ?_⟩
    rw [← bind_assoc]
    refine hdoes1.given.bind (H := fun v vars => Bound list b vars ∧ Bound t v vars) (fun v => ?_)
      hlater1.temps fun v vars vars' hb hk hv => ⟨(hk.temps _ hlist).trans hb, hv⟩
    have hsend := (hdoes2 (some b) [v]).mono (R := Answers x)
      (fun vars (hg : Bound list b vars ∧ Bound t v vars) =>
        ⟨receives_call hg.1, .cons hg.2 .nil⟩) fun _ _ h => h
    rw [e.type_lower] at hsend
    apply hsend.bind (fun _ => hdoes3 b) hlater2.temps
    intro _ vars vars' hg hk _
    exact (hk.temps _ (hlist.mono hlater1.temps)).trans hg.1

theorem genList_realizes
    (h : ∀ e ∈ es, e.lower.Realizes E setting (E.expr e)) :
    ValueRealizes E setting (genList location (es.map Expr.lower))
      (E.construct (Symbol.constructor TypeName.list).asPure [] >>= fun list =>
        E.items list es >>= fun _ => pure list) := by
  have hnone : ∀ e ∈ ([] : List Expr), e.lower.Realizes E setting (E.expr e) := by
    simp
  refine fun s => (genConstruct_realizes hE _ _ hnone s).bind ?_
  rintro t s1 l1 ⟨hlater1, ht, hdoes1⟩
  refine (genItems_realizes hE h ht.upTo).bind ?_
  rintro _ s2 l2 ⟨hlater2, hdoes2⟩
  refine .pure ⟨hlater1.trans hlater2, ht.between (.refl s) hlater2, ?_⟩
  have hconstruct : Realizes E s.temps l1 (E.construct (Symbol.constructor TypeName.list).asPure [])
      (fun _ => True) (Bound t) := by
    simpa [Evaluator.exprs] using hdoes1
  refine hconstruct.andThen (fun b => ?_) hlater1.temps
  exact (hdoes2 b).andThen (fun _ => .pure fun _ hb => hb) (Nat.le_refl _)

theorem genBinary_realizes (hl : left.Realizes E setting L)
    (hr : right.Realizes E setting R) :
    CodeAt E setting s (genBinary location op left right operator)
      ((L >>= Evaluation.value) >>= fun l => (R >>= Evaluation.value) >>= fun r =>
        E.send (some l) operator [r]) := by
  refine .ofExcept fun _ _ => (value_realizes hl s).bind ?_
  rintro a s1 l1 ⟨hlater1, ha, hdoes1⟩
  refine (value_realizes hr s1).bind ?_
  rintro b s2 l2 ⟨hlater2, hb, hdoes2⟩
  refine (genCall_realizes hE).mono ?_
  rintro x s3 l3 ⟨hlater3, hx, hdoes3⟩
  refine ⟨hlater1.trans (hlater2.trans hlater3),
    fun t ht => (hx t ht).between (hlater1.trans hlater2) (.refl s3), ?_⟩
  refine hdoes1.andThen (fun v => ?_) hlater1.temps
  apply hdoes2.given.bind (fun w => hdoes3 (some v) [w]) hlater2.temps
  intro w vars vars' hv hk hw
  exact ⟨receives_call ((hk.temps _ ha.upTo).trans hv), .cons hw .nil⟩

theorem genUnary_realizes {operand : Code}
    (h : operand.Realizes E setting A) :
    CodeAt E setting s (genUnary location op operand operator)
      ((A >>= Evaluation.value) >>= fun b => E.send (some b) operator []) := by
  refine .ofExcept fun _ _ => (value_realizes h s).bind ?_
  rintro a s1 l1 ⟨hlater1, ha, hdoes1⟩
  refine (genCall_realizes hE).mono ?_
  rintro x s2 l2 ⟨hlater2, hx, hdoes2⟩
  refine ⟨hlater1.trans hlater2, fun t ht => (hx t ht).between hlater1 (.refl s2), ?_⟩
  apply hdoes1.bind (fun v => hdoes2 (some v) []) hlater1.temps
  intro v vars vars' _ _ hv
  exact ⟨receives_call hv, .nil⟩

theorem genIsSet_realizes {operand : String}
    (hoperand : TempUpTo s.temps operand) :
    (genIsSet location operand type).Ensures setting s fun t s' l =>
      Later s s' ∧ NewTemp s s' t ∧ ∀ b,
        Realizes E s.temps l (E.isSet type b) (Bound operand b) (Bound t) := by
  refine .currentScope fun k hk => .temp (.check Instr.isNull_eq_ok (.check CaseCondition.build_eq_ok
    (.captured ((genLiteral_realizes (E := E) _).mono ?_))))
  rintro f s1 l1 ⟨hlater1, hf, hdoes1⟩
  refine .ofExcept fun method hmethod => .captured ((genCallValue_realizes hE).mono ?_)
  rintro v s2 l2 ⟨hlater2, hv, hdoes2⟩
  refine .temp (.check Chain.question_eq_ok (.emitAt Instr.ofChain_eq_ok (.pure ?_)))
  have hlater0 := Later.temp s
  have hlater := hlater0.trans (hlater1.trans hlater2)
  refine ⟨hlater.trans (.temp s2), (newTemp_temp s2).between hlater (.refl _), ?_⟩
  intro b M m htracks hb
  rw [isSet_eq]
  apply Does.chain_value (t := s2.temp.1) (by simp) rfl rfl rfl rfl ((freshTemp s2).of_le hlater.temps)
    htracks
  intro M1 m1 ht1 hk1
  have hb1 : Bound operand b m1.vars := (hk1.temps _ hoperand).trans hb
  apply Chooses.cons rfl
  · exact isNull_realizes (freshTemp s) M1 m1 ht1 hb1
  · intro M2 m2 ht2 _
    apply ((hdoes1 M2 m2 ht2 trivial).of_le hlater0.temps).mono
    rintro w ctl vars ⟨rfl, hw⟩
    exact ⟨f, rfl, hw⟩
  · intro M2 m2 ht2 hk2
    apply Chooses.default
    have hb2 : Bound operand b m2.vars := (hk2.temps _ hoperand).trans hb1
    rw [ofOperator_eq hmethod]
    apply ((hdoes2 b [] M2 m2 ht2 ⟨hb2, .nil⟩).of_le (hlater0.trans hlater1).temps).mono
    rintro w ctl vars ⟨rfl, hw⟩
    exact ⟨v, rfl, hw⟩

theorem genLogical_realizes (location : Option Location) (op : LogicalOp)
    (hl : left.Realizes E setting L) (hr : right.Realizes E setting R) :
    ValueRealizes E setting (genLogical location op left right)
      (E.logical op left.type right.type (L >>= Evaluation.value) (R >>= Evaluation.value)) := by
  refine fun s => .currentScope fun k hk => .captured ((value_realizes hl s).bind ?_)
  rintro a s1 l1 ⟨hlater1, ha, hdoes1⟩
  refine (genPrimitive_realizes hE).bind ?_
  rintro p s2 l2 ⟨hlater2, hp, hdoes2⟩
  refine .pure (.captured ((value_realizes hr s2).mono ?_))
  rintro b s3 l3 ⟨hlater3, hb, hdoes3⟩
  refine .ofExcept fun method hmethod => .captured ((genCallValue_realizes hE).mono ?_)
  rintro c s4 l4 ⟨hlater4, hc, hdoes4⟩
  refine .temp (.emitAt Instr.ofLogical_eq_ok (.pure ?_))
  rw [logical_eq]
  have hlater := hlater1.trans (hlater2.trans (hlater3.trans hlater4))
  refine ⟨hlater.trans (.temp s4), (newTemp_temp s4).between hlater (.refl _), ?_⟩
  have hleft : Realizes E s.temps (l1 ++ (l2 ++ []))
      ((L >>= Evaluation.value) >>= fun l => E.truth left.type l >>= fun p => pure (l, p))
      (fun _ => True) fun q vars => Bound a q.1 vars ∧ Bound p (.primitive q.2) vars := by
    refine hdoes1.andThen (fun v => ?_) hlater1.temps
    refine (hdoes2 v).bind (H := fun q vars => Bound a v vars ∧ Bound p (.primitive q) vars)
      (fun q => .pure fun _ h => h) (Nat.le_refl _) ?_
    intro q vars vars' hv hk hq
    exact ⟨(hk.temps _ ha.upTo).trans hv, hq⟩
  have hright : ∀ v, Realizes E s2.temps (l3 ++ l4)
      ((R >>= Evaluation.value) >>= fun r =>
        E.ask v (Symbol.ofOperator left.type (logicalSymbol op) [right.type]) [r])
      (Bound a v) (Bound c) := by
    intro v
    rw [ofOperator_eq hmethod]
    apply hdoes3.given.bind (fun w => hdoes4 v [w]) hlater3.temps
    intro w vars vars' hv hk hw
    exact ⟨(hk.temps _ (ha.upTo.mono hlater2.temps)).trans hv, .cons hw .nil⟩
  intro M m htracks _
  apply Does.logicalBlock ((freshTemp s4).of_le hlater.temps)
    (b := { op, leftEvaluation := l1 ++ (l2 ++ []), left := a, condition := p
            rightEvaluation := l3, right := b, computation := l4, result := c, scope := k })
    (R := fun v => (R >>= Evaluation.value) >>= fun r =>
      E.ask v (Symbol.ofOperator left.type (logicalSymbol op) [right.type]) [r])
  · exact hleft M (ticked m) htracks.tick trivial
  · intro v M1 m1 ht1 hk1 hv
    exact (hright v M1 m1 ht1 hv).of_le (hlater1.trans hlater2).temps

theorem genApply_realizes (location : Option Location) (symbol : Symbol)
    {args : List Expr}
    (ht : ∀ e ∈ target, e.lower.Realizes E setting (E.expr e))
    (ha : ∀ e ∈ args, e.lower.Realizes E setting (E.expr e)) (info : ExprInfo) :
    CodeAt E setting s (genApply location (target.map Expr.lower) symbol (args.map Expr.lower))
      (E.expr (.call info target symbol args)) := by
  unfold genApply
  rw [Evaluator.expr]
  by_cases hc : symbol.isConstructor = true
  · -- a constructor evaluates its target for nothing
    have hconstruct := fun s1 => (genConstruct_realizes hE location symbol ha).answered (s := s1)
    simp only [map_bind] at hconstruct
    simp only [hc, if_true]
    cases target with
    | none =>
      simp only [Option.map_none, Evaluator.receiver, pure_bind]
      exact hconstruct s
    | some e =>
      simp only [Option.map_some, Evaluator.receiver, Bool.false_eq_true, if_false, bind_assoc,
        pure_bind]
      refine (ht e rfl s).bind ?_
      rintro x s1 l1 ⟨hlater1, _, hdoes1⟩
      refine (hconstruct s1).mono ?_
      rintro y s2 l2 ⟨hlater2, hy, hdoes2⟩
      refine ⟨hlater1.trans hlater2, fun t ht => (hy t ht).between hlater1 (.refl s2), ?_⟩
      exact hdoes1.andThen (fun _ => hdoes2.given) hlater1.temps
  · simp only [hc, Bool.false_eq_true, if_false]
    refine (genTarget_realizes ht).bind ?_
    rintro ⟨opcode, name⟩ s1 l1 ⟨hlater1, hname, hdoes1⟩
    dsimp only at hname hdoes1 ⊢
    refine (values_realize ha).bind ?_
    rintro ts s2 l2 ⟨hlater2, hts, hdoes2⟩
    refine (genCall_realizes hE).mono ?_
    rintro x s3 l3 ⟨hlater3, hx, hdoes3⟩
    refine ⟨hlater1.trans (hlater2.trans hlater3),
      fun t ht => (hx t ht).between (hlater1.trans hlater2) (.refl s3), ?_⟩
    refine hdoes1.andThen (fun b => ?_) hlater1.temps
    apply hdoes2.given.bind (fun bs => hdoes3 b bs) hlater2.temps
    intro bs vars vars' hb hk hbs
    exact ⟨hb.keep hk hname, hbs⟩

end

end Lowering

/-! ### Expressions -/

namespace Expr

open Lowering Gen

variable {E : Evaluator σ} {setting : Setting}

mutual

/-- The code of an expression does what evaluating the expression does. -/
theorem lower_realizes (hE : E.Agrees setting) (e : Expr) :
    e.lower.Realizes E setting (E.expr e) := by
  intro s
  cases e <;> simp only [lower, Evaluator.expr] <;> refine .located ?_
  case literal info text => exact genLiteral_realizes.answered
  case var info name => exact (variable_realizes name).answered
  case enumConstant info constant => exact genLiteral_realizes.answered
  case binary info op left right operator =>
    refine (genBinary_realizes hE (lower_realizes hE left) (lower_realizes hE right)).mono ?_
    intro x s' l h
    simp only [bind_assoc] at h
    exact h
  case unary info op operand operator =>
    refine (genUnary_realizes hE (lower_realizes hE operand)).mono ?_
    intro x s' l h
    simp only [bind_assoc] at h
    exact h
  case isSet info operand =>
    refine (value_realizes (lower_realizes hE operand) s).bind ?_
    rintro a s1 l1 ⟨hlater1, ha, hdoes1⟩
    rw [ensures_map]
    refine (genIsSet_realizes hE ha.upTo).mono ?_
    rintro t s2 l2 ⟨hlater2, ht, hdoes2⟩
    refine ⟨hlater1.trans hlater2, ?_, ?_⟩
    · intro t' ht'
      cases ht'
      exact ht.between hlater1 (.refl s2)
    · rw [← bind_assoc]
      exact hdoes1.andThen (fun b => (hdoes2 b).answers) hlater1.temps
  case logical info op left right =>
    have h := genLogical_realizes hE (setting.location info.token) op
      (lower_realizes hE left) (lower_realizes hE right)
    rw [left.type_lower, right.type_lower] at h
    exact h.answered
  case call info target symbol args =>
    rw [lowerTarget_eq_map, lowerAll_eq_map]
    have h := genApply_realizes (s := s) hE (setting.location info.token) symbol
      (lowerTarget_realizes hE target) (lowerAll_realize hE args) info
    rw [Evaluator.expr] at h
    exact h
  case list info items =>
    rw [lowerAll_eq_map]
    have h : CodeAt E setting s (some <$> genList (setting.location info.token) _) _ :=
      (genList_realizes hE (lowerAll_realize hE items)).answered
    simp only [map_bind, map_pure] at h
    exact h
  case field info object name => exact (variable_realizes _).answered

theorem lowerTarget_realizes (hE : E.Agrees setting) (target : Option Expr) :
    ∀ e ∈ target, e.lower.Realizes E setting (E.expr e) := by
  cases target with
  | none => simp
  | some e =>
    intro e' he'
    cases he'
    exact lower_realizes hE e

theorem lowerAll_realize (hE : E.Agrees setting) (es : List Expr) :
    ∀ e ∈ es, e.lower.Realizes E setting (E.expr e) := by
  cases es with
  | nil => simp
  | cons e rest =>
    rw [List.forall_mem_cons]
    exact ⟨lower_realizes hE e, lowerAll_realize hE rest⟩

end

end Expr

end ScopedIR
