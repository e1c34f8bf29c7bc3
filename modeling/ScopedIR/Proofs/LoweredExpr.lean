import ScopedIR.Proofs.Layout
import ScopedIR.Proofs.Scoping

/-!
# The code of expressions has the layout

Every form of expression is lowered to code of the form `Calc`, its temporaries numbered in order.
The statement about a generator says what it reads, which names it takes as given, and which names
it answers, for whatever context the code is put into.

Main definition: `Yields`, and `CodeYields` for the code of an expression.

Main statement: `Expr.codeYields_lower`.
-/

namespace ScopedIR.Layout

open Instr Lowering Gen

/-- Between the states `s` and `s'` the code `l` of an expression was generated in scope `k`. It
reads `U` and uses the names `R` that it is given, and it answers the names `r` and the truths `p`. -/
structure Yields (π : Policy) (U R : List String) (k : String) (s : State) (l : List Instr)
    (s' : State) (r p : List String) : Prop where
  scope : s.currentScope = .ok k
  state : s' = { s with temps := s'.temps }
  issues : Numbered "_temp" s.temps s'.temps (binds l)
  quiet : enters l = []
  isTemp : ∀ x ∈ r, IsTemp x
  code : ∀ (Γ : Context) (B : List String), k ∈ Γ.reach → (∀ x ∈ U, Readable π B x) →
    (∀ x ∈ R, x ∈ Γ.names) →
    ∃ Γ', Calc π B k Γ l Γ' ∧ (∀ x ∈ r, Γ'.Near k x) ∧ ∀ x ∈ p, x ∈ Γ'.truths

namespace Yields

variable {π : Policy} {U R : List String} {k : String} {s s1 s2 : State} {l l' : List Instr}
  {r r' p p' : List String}

theorem scope_after (h : Yields π U R k s l s1 r p) : s1.currentScope = .ok k := by
  rw [h.state]
  exact h.scope

theorem nil (hs : s.currentScope = .ok k) : Yields π U R k s [] s [] [] where
  scope := hs
  state := rfl
  issues := .nil (Nat.le_refl _)
  quiet := rfl
  isTemp := by simp
  code := fun Γ B _ _ _ => ⟨Γ, .nil, by simp, by simp⟩

/-- The second piece of code may use what the first one answers. -/
theorem append (h : Yields π U R k s l s1 r p) (h' : Yields π U (r ++ R) k s1 l' s2 r' p') :
    Yields π U R k s (l ++ l') s2 (r' ++ r) (p' ++ p) where
  scope := h.scope
  state := by
    rw [h'.state, h.state]
  issues := by
    rw [binds_append]
    exact h.issues.append h'.issues
  quiet := by rw [enters_append, h.quiet, h'.quiet, List.append_nil]
  isTemp := by
    intro x hx
    rcases List.mem_append.1 hx with hx | hx
    · exact h'.isTemp x hx
    · exact h.isTemp x hx
  code := by
    intro Γ B hk hU hR
    obtain ⟨Γ1, hc, hr, hp⟩ := h.code Γ B hk hU hR
    have hk' : k ∈ Γ1.reach := by rwa [hc.alike.reach]
    have hR' : ∀ x ∈ r ++ R, x ∈ Γ1.names := by
      intro x hx
      rcases List.mem_append.1 hx with hx | hx
      · exact (hr x hx).mem_names
      · exact hc.names_subset (hR x hx)
    obtain ⟨Γ2, hc', hr', hp'⟩ := h'.code Γ1 B hk' hU hR'
    refine ⟨Γ2, hc.append hc', ?_, ?_⟩
    · intro x hx
      rcases List.mem_append.1 hx with hx | hx
      · exact hr' x hx
      · exact hc'.near (hr x hx)
    · intro x hx
      rcases List.mem_append.1 hx with hx | hx
      · exact hp' x hx
      · exact hc'.truths_subset (hp x hx)

/-- Code may read less and be given more. -/
theorem weaken {U' R' : List String} (h : Yields π U R k s l s1 r p) (hU : U ⊆ U') (hR : R ⊆ R') :
    Yields π U' R' k s l s1 r p :=
  { h with code := fun Γ B hk hU' hR' =>
      h.code Γ B hk (fun x hx => hU' x (hU hx)) fun x hx => hR' x (hR hx) }

/-- What code answers may be passed over. -/
theorem select (h : Yields π U R k s l s1 r p) (hr : r' ⊆ r) (hp : p' ⊆ p) :
    Yields π U R k s l s1 r' p' :=
  { h with
    isTemp := fun x hx => h.isTemp x (hr hx)
    code := fun Γ B hk hU hR => by
      obtain ⟨Γ', hc, hr', hp'⟩ := h.code Γ B hk hU hR
      exact ⟨Γ', hc, fun x hx => hr' x (hr hx), fun x hx => hp' x (hp hx)⟩ }

/-- Run one piece of code after the other, for the answer of the second. -/
theorem andThen (h : Yields π U R k s l s1 r p) (h' : Yields π U (r ++ R) k s1 l' s2 r' p') :
    Yields π U R k s (l ++ l') s2 r' p' :=
  (h.append h').select (List.subset_append_left _ _) (List.subset_append_left _ _)

end Yields

/-- The code of an expression that reads `U`, generated in any scope. -/
def CodeYields (π : Policy) (setting : Setting) (U : List String) (c : Code) : Prop :=
  ∀ s k, s.currentScope = .ok k → c.gen.Ensures setting s fun a s' l =>
    Yields π U [] k s l s' a.toList []

section

variable {π : Policy} {setting : Setting} {U R : List String} {k : String} {s : State}
  {location : Option Location}

theorem CodeYields.mono {U' : List String} {c : Code} (h : CodeYields π setting U c)
    (hU : U ⊆ U') : CodeYields π setting U' c :=
  fun s k hs => (h s k hs).mono fun _ _ _ hy => hy.weaken hU (List.Subset.refl _)

theorem binds_registering (t k : String) : binds (registering location t k) = [] := by
  simp [registering, binds_cons]

theorem enters_registering (t k : String) : enters (registering location t k) = [] := by
  simp [registering, enters_cons, ownEnters_simple]

theorem numbered_temp (s : State) :
    Numbered "_temp" s.temps s.temp.2.temps [s.temp.1] := Numbered.single "_temp" s.temps

variable (hs : s.currentScope = .ok k)

include hs

/-- The value of an expression, when other names are given too. -/
theorem value_yields (π : Policy) (U R : List String) {c : Code} (h : CodeYields π setting U c) :
    c.value.Ensures setting s fun a s' l => Yields π U R k s l s' [a] [] := by
  unfold Code.value
  refine (h s k hs).bind ?_
  intro a s' l hy
  cases a with
  | none => exact .fail
  | some name =>
    rw [ensures_pure, List.append_nil]
    exact hy.weaken (List.Subset.refl _) (List.nil_subset _)

theorem values_yields (π : Policy) (U R : List String) {cs : List Code}
    (h : ∀ c ∈ cs, CodeYields π setting U c) :
    (Code.values cs).Ensures setting s fun as s' l => Yields π U R k s l s' as [] := by
  induction cs generalizing s R with
  | nil => exact .pure (.nil hs)
  | cons c rest ih =>
    unfold Code.values
    refine (value_yields hs π U R (h c List.mem_cons_self)).bind ?_
    intro a s1 l1 h1
    refine (ih (R := [a] ++ R) h1.scope_after
      fun c hc => h c (List.mem_cons_of_mem _ hc)).bind ?_
    intro as s2 l2 h2
    rw [ensures_pure, List.append_nil]
    refine (h1.append h2).select ?_ (by simp)
    intro x hx
    simpa [or_comm] using hx

theorem genOptional_yields (π : Policy) (U R : List String) {code : Option Code}
    (hc : ∀ c ∈ code, CodeYields π setting U c) :
    (genOptional code).Ensures setting s fun a s' l => Yields π U R k s l s' a.toList [] := by
  unfold genOptional
  cases code with
  | none => exact .pure (.nil hs)
  | some c =>
    refine (value_yields hs π U R (hc c rfl)).bind fun a s1 l1 h1 => ?_
    exact .pure (by simpa using h1)

/-! ### Objects, variables and calls -/

/-- A new object that the scope owns. -/
theorem Yields.create {opcode : Opcode} {operands : List String}
    (ho : opcode = .loadLiteral ∨ opcode = .allocObject) :
    Yields π U R k s
      ([simple location opcode operands (some s.temp.1)] ++ registering location s.temp.1 k)
      s.temp.2 [s.temp.1] [] where
  scope := hs
  state := rfl
  issues := by
    have hb : binds ([simple location opcode operands (some s.temp.1)]
        ++ registering location s.temp.1 k) = [s.temp.1] := by
      simp [binds_registering, binds_cons]
    rw [hb]
    exact numbered_temp s
  quiet := by
    rcases ho with rfl | rfl <;>
      simp [enters_registering, enters_cons, ownEnters_simple]
  isTemp := by simp [isTemp_temp]
  code := fun Γ B hk _ _ =>
    ⟨_, .create (isTemp_temp s) hk ho,
      by simpa using .own_self (Context.mem_ids_of_reach hk), by simp⟩

variable {post : String → State → List Instr → Prop} {text type target value op name : String}
  {opcode : Opcode} {args : List String} {symbol operator : Symbol} {items : List Code}
  {left right : Code}

omit hs in
/-- The code of a literal. -/
theorem genLiteral_emits (h : ∀ k, s.currentScope = .ok k → post s.temp.1 s.temp.2
      ([simple location .loadLiteral [text, type] (some s.temp.1)] ++
        registering location s.temp.1 k)) :
    (genLiteral location text type).Ensures setting s post :=
  .temp (.currentScope fun k hk => .emitAt Instr.loadLiteral_eq_ok
    (.emitAll Ownership.register_eq_ok (.pure (h k hk))))

theorem genLiteral_yields (π : Policy) (U R : List String) :
    (genLiteral location text type).Ensures setting s fun a s' l =>
      Yields π U R k s l s' [a] [] := by
  refine genLiteral_emits fun k' hk' => ?_
  obtain rfl : k = k' := Except.ok.inj (hs.symm.trans hk')
  exact .create hs (.inl rfl)

theorem Yields.load {x : String} (hx : x ∈ U) :
    Yields π U R k s [simple location .load [x] (some s.temp.1)] s.temp.2 [s.temp.1] [] where
  scope := hs
  state := rfl
  issues := by
    simpa [binds_cons] using numbered_temp s
  quiet := by simp [enters_cons, ownEnters_simple]
  isTemp := by simp [isTemp_temp]
  code := fun Γ B _ hU _ =>
    ⟨_, .load (isTemp_temp s) (hU x hx), by simpa using .share_self, by simp⟩

theorem Yields.loadField {o f : String} (ho : o ∈ U) :
    Yields π U R k s [simple location .load [o ++ "." ++ f] (some s.temp.1)] s.temp.2
      [s.temp.1] [] where
  scope := hs
  state := rfl
  issues := by
    simpa [binds_cons] using numbered_temp s
  quiet := by simp [enters_cons, ownEnters_simple]
  isTemp := by simp [isTemp_temp]
  code := fun Γ B _ hU _ =>
    ⟨_, .loadField (isTemp_temp s) (hU o ho), by simpa using .share_self, by simp⟩

omit hs in
/-- What loading a name emits. -/
theorem genVar_emits {x : String}
    (h : post s.temp.1 s.temp.2 [simple location .load [x] (some s.temp.1)]) :
    (genVar location x).Ensures setting s post :=
  .temp (.emitAt Instr.load_eq_ok (.pure h))

theorem Yields.call {opcode : Opcode} {site : CallSite} (hc : opcode.isCall = true)
    (hr : site.hasResult = true)
    (ht : opcode = .callStatic ∨ site.target ∈ R) (ha : site.args ⊆ R) :
    Yields π U R k s
      ([calling location opcode (some s.temp.1) site] ++ registering location s.temp.1 k)
      s.temp.2 [s.temp.1] [] where
  scope := hs
  state := rfl
  issues := by
    have hb : binds ([calling location opcode (some s.temp.1) site]
        ++ registering location s.temp.1 k) = [s.temp.1] := by
      simp [binds_registering, binds_cons]
    rw [hb]
    exact numbered_temp s
  quiet := by
    have hne : opcode ≠ .scopeEnter := by
      rintro rfl
      cases hc
    simp [enters_registering, enters_cons, ownEnters, calling, hne, lists, Payload.lists]
  isTemp := by simp [isTemp_temp]
  code := fun Γ B hk _ hR =>
    ⟨_, .call (isTemp_temp s) hk hc hr (ht.imp_right (hR _)) (fun a h => hR a (ha h)),
      by simpa using .own_self (Context.mem_ids_of_reach hk), by simp⟩

theorem Yields.perform {site : CallSite} (hc : opcode.isCall = true) (hr : site.hasResult = false)
    (ht : opcode = .callStatic ∨ site.target ∈ R)
    (ha : site.args ⊆ R) :
    Yields π U R k s [calling location opcode none site] s [] [] where
  scope := hs
  state := rfl
  issues := by
    simpa [binds_cons] using Numbered.nil (Nat.le_refl _)
  quiet := by
    have hne : opcode ≠ .scopeEnter := by
      rintro rfl
      cases hc
    simp [enters_cons, ownEnters, calling, hne, lists, Payload.lists]
  isTemp := by simp
  code := fun Γ B _ _ hR =>
    ⟨Γ, .perform hc hr (ht.imp_right (hR _)) (fun a h => hR a (ha h)), by simp, by simp⟩

theorem own_emits {t : String} {post : Unit → State → List Instr → Prop}
    (h : post () s (registering location t k)) :
    (own location t).Ensures setting s post :=
  .inScope hs (.lastAll Ownership.register_eq_ok h)

theorem genCall_yields (π : Policy) (U R : List String) (ht : opcode = .callStatic ∨ target ∈ R)
    (ha : args ⊆ R) :
    (genCall location opcode target symbol args).Ensures setting s fun a s' l =>
      Yields π U R k s l s' a.toList [] := by
  unfold genCall
  rw [ensures_bind, ensures_setting]
  dsimp only
  split
  · next hr =>
    rw [ensures_bind, ensures_temp, ensures_bind, ensures_emitAt]
    intro i hi
    obtain ⟨hc, rfl⟩ := Instr.call_eq_ok hi
    rw [ensures_bind]
    refine own_emits (s := s.temp.2) (k := k) hs ?_
    rw [ensures_pure, List.append_nil]
    exact .call hs hc hr ht ha
  · next hr =>
    rw [ensures_bind, ensures_emitAt]
    intro i hi
    obtain ⟨hc, rfl⟩ := Instr.call_eq_ok hi
    rw [ensures_pure, List.append_nil]
    exact .perform hs hc (by simpa using hr) ht ha

/-- The code of a call for its value. -/
theorem genCallValue_emits
    (h : ∀ site : CallSite, site.hasResult = true → site.target = target → site.args = args →
      site.method = symbol.name → post s.temp.1 s.temp.2
        ([calling none .call (some s.temp.1) site] ++ registering none s.temp.1 k)) :
    (genCallValue target symbol args).Ensures setting s post := by
  unfold genCallValue genCall
  rw [ensures_bind, ensures_bind, ensures_setting]
  dsimp only
  split
  · next hr =>
    rw [ensures_bind, ensures_temp, ensures_bind, ensures_emitAt]
    intro i hi
    obtain ⟨-, rfl⟩ := Instr.call_eq_ok hi
    rw [ensures_bind]
    refine own_emits (s := s.temp.2) (k := k) hs ?_
    rw [ensures_pure, ensures_pure]
    simpa using h _ hr rfl rfl rfl
  · rw [ensures_bind, ensures_emitAt]
    intro i hi
    rw [ensures_pure, ensures_fail]
    trivial

theorem genCallValue_yields (π : Policy) (U R : List String) (ht : target ∈ R) (ha : args ⊆ R) :
    (genCallValue target symbol args).Ensures setting s fun a s' l =>
      Yields π U R k s l s' [a] [] := by
  refine genCallValue_emits hs ?_
  rintro site hr rfl rfl -
  exact .call hs rfl hr (.inr ht) ha

theorem genConstruct_yields (π : Policy) (U R : List String) {args : List Code}
    (h : ∀ c ∈ args, CodeYields π setting U c) :
    (genConstruct location symbol args).Ensures setting s fun a s' l =>
      Yields π U R k s l s' [a] [] := by
  unfold genConstruct
  refine (values_yields hs π U R h).bind ?_
  intro as s1 l1 h1
  refine .temp (.inScope h1.scope_after (.emitAt Instr.allocObject_eq_ok
    (.emitAll Ownership.register_eq_ok ?_)))
  have h2 : Yields π U (as ++ R) k s1
      ([simple location .allocObject [symbol.owner] (some s1.temp.1)]
        ++ registering location s1.temp.1 k) s1.temp.2 [s1.temp.1] [] :=
    .create h1.scope_after (.inr rfl)
  refine (genCall_yields h2.scope_after π U ([s1.temp.1] ++ (as ++ R)) (.inr (by simp))
    (fun x hx => by simp [hx])).bind ?_
  intro b s3 l3 h3
  rw [ensures_pure, List.append_nil]
  have h4 := h1.andThen ((h2.append h3).select
    (show [s1.temp.1] ⊆ _ by simp) (List.nil_subset _))
  simpa [registering] using h4

theorem genItems_yields (π : Policy) (U R : List String) {list : String}
    (h : ∀ c ∈ items, CodeYields π setting U c) (hl : list ∈ R) :
    (genItems location list items).Ensures setting s fun _ s' l =>
      Yields π U R k s l s' [] [] := by
  induction items generalizing s with
  | nil => exact .pure (.nil hs)
  | cons item rest ih =>
    unfold genItems
    refine (value_yields hs π U R (h item List.mem_cons_self)).bind ?_
    intro a s1 l1 h1
    refine (genCall_yields h1.scope_after π U ([a] ++ R) (.inr (by simp [hl]))
      (by simp)).bind ?_
    intro b s2 l2 h2
    refine (ih h2.scope_after fun c hc => h c (List.mem_cons_of_mem _ hc)).mono ?_
    intro _ s3 l3 h3
    refine h1.andThen (h2.andThen (h3.weaken (List.Subset.refl _) ?_))
    intro x hx
    simp [hx]

theorem genList_yields (π : Policy) (U R : List String)
    (h : ∀ c ∈ items, CodeYields π setting U c) :
    (genList location items).Ensures setting s fun a s' l => Yields π U R k s l s' [a] [] := by
  unfold genList
  refine (genConstruct_yields hs π U R (by simp)).bind ?_
  intro a s1 l1 h1
  refine (genItems_yields h1.scope_after π U ([a] ++ R) h (by simp)).bind ?_
  intro _ s2 l2 h2
  rw [ensures_pure, List.append_nil]
  exact (h1.append h2).select (by simp) (by simp)

omit hs in
/-- The code that asks for the truth of an object. -/
theorem genPrimitive_emits (h : post s.temp.1 s.temp.2 [calling none .call (some s.temp.1)
      (CallSite.ofSymbol setting.types value
        (Symbol.method type "_true" TypeName.boolean).asPure [])]) :
    (genPrimitive value type).Ensures setting s post :=
  .temp (.ofSetting (.emit (fun hi => (Instr.call_eq_ok hi).2) (.pure h)))

theorem genPrimitive_yields (π : Policy) (U R : List String) (hv : value ∈ R) :
    (genPrimitive value type).Ensures setting s fun a s' l =>
      Yields π U R k s l s' [] [a] :=
  genPrimitive_emits
    { scope := hs
      state := rfl
      issues := by
        simpa [binds_cons] using numbered_temp s
      quiet := by simp [enters_cons, ownEnters, calling, lists, Payload.lists]
      isTemp := by simp
      code := fun Γ B _ _ hR =>
        ⟨_, .test (isTemp_temp s) rfl (hR _ hv) rfl, by simp, by simp [Context.truth]⟩ }

/-! ### Forms of expressions -/

theorem genBinary_yields (hl : CodeYields π setting U left) (hr : CodeYields π setting U right) :
    (genBinary location op left right operator).Ensures setting s fun a s' l =>
      Yields π U [] k s l s' a.toList [] := by
  refine .ofExcept fun _ _ => ?_
  refine (value_yields hs π U [] hl).bind fun a s1 l1 h1 => ?_
  refine (value_yields h1.scope_after π U [a] hr).bind fun b s2 l2 h2 => ?_
  exact (genCall_yields h2.scope_after π U ([b] ++ [a]) (.inr (by simp)) (by simp)).mono
    fun c s3 l3 h3 => h1.andThen (h2.andThen h3)

theorem genUnary_yields {operand : Code} (ho : CodeYields π setting U operand) :
    (genUnary location op operand operator).Ensures setting s fun a s' l =>
      Yields π U [] k s l s' a.toList [] := by
  refine .ofExcept fun _ _ => ?_
  refine (value_yields hs π U [] ho).bind fun a s1 l1 h1 => ?_
  exact (genCall_yields h1.scope_after π U [a] (.inr (by simp)) (by simp)).mono
    fun c s2 l2 h2 => h1.andThen h2

/-- The question whether an object is set, from the code of its two answers. -/
theorem Yields.isSet {s1 s2 : State} {l1 l2 : List Instr} {operand f v : String}
    (ho : operand ∈ R)
    (h1 : Yields π U R k s.temp.2 l1 s1 [f] []) (h2 : Yields π U R k s1 l2 s2 [v] []) :
    Yields π U R k s [chained location (question k s2.temp.1 s.temp.1 operand l1 f l2 v)]
      s2.temp.2 [s2.temp.1] [] where
  scope := hs
  state := by
    change State.mk _ _ _ _ _ _ = _
    rw [h2.state, h1.state]
    rfl
  issues := by
    have hn := ((numbered_temp s).append h1.issues).append (h2.issues.append (numbered_temp s2))
    refine hn.perm ?_
    rw [List.perm_iff_count]
    intro a
    simp only [binds_cons, binds_append, ownBinds_chained, lists_chained, question, Chain.lists,
      Case.lists, ownBinds_simple, lists_simple, List.count_append, List.flatten_nil,
      Option.map_none, Option.toList_none, Option.toList_some, List.flatMap_cons,
      List.flatMap_nil, List.nil_append, List.append_nil, List.flatten_cons, binds_nil,
      List.flatten_append, Option.map_some]
    omega
  quiet := by
    simp [enters_cons, enters_append, question, Chain.lists, Case.lists, ownEnters_simple,
      h1.quiet, h2.quiet]
  isTemp := by simp [isTemp_temp]
  code := by
    intro Γ B hk hU hR
    obtain ⟨Γ1, hc1, hf, -⟩ := h1.code Γ B hk hU hR
    obtain ⟨Γ2, hc2, hv, -⟩ := h2.code Γ B hk hU hR
    refine ⟨_, .isSet (isTemp_temp s2) (isTemp_temp s) (hR _ ho) hc1
      (hf f (by simp)).mem_names hc2 (hv v (by simp)).mem_names, ?_, by simp⟩
    simpa using Context.Near.share_self

theorem genIsSet_yields (π : Policy) (U R : List String) {operand : String}
    (ho : operand ∈ R) :
    (genIsSet location operand type).Ensures setting s fun a s' l =>
      Yields π U R k s l s' [a] [] := by
  refine .inScope hs (.temp (.check Instr.isNull_eq_ok (.check CaseCondition.build_eq_ok (.captured ?_))))
  refine (genLiteral_yields (s := s.temp.2) (k := k) hs π U R).mono fun f s1 l1 h1 => ?_
  refine .ofExcept fun method _ => .captured ?_
  refine (genCallValue_yields h1.scope_after π U R ho (by simp)).mono fun v s2 l2 h2 => ?_
  exact .temp (.check Chain.question_eq_ok (.emitAt Instr.ofChain_eq_ok (.pure (.isSet hs ho h1 h2))))

omit hs in
/-- A conjunction or disjunction, from the code of its operands and of their combination. -/
theorem Yields.logical {s1 s2 s3 : State} {b : LogicalBlock Instr}
    (h1 : Yields π U R k s b.leftEvaluation s1 [b.left] [b.condition])
    (h2 : Yields π U ([b.left] ++ R) k s1 b.rightEvaluation s2 [b.right] [])
    (h3 : Yields π U ([b.right] ++ ([b.left] ++ R)) k s2 b.computation s3 [b.result] []) :
    Yields π U R k s [logicalBlock location s3.temp.1 b] s3.temp.2 [s3.temp.1] [] where
  scope := h1.scope
  state := by
    change State.mk _ _ _ _ _ _ = _
    rw [h3.state, h2.state, h1.state]
    rfl
  issues := by
    refine (h1.issues.append (h2.issues.append (h3.issues.append (numbered_temp s3)))).perm ?_
    rw [List.perm_iff_count]
    intro a
    simp only [binds_cons, binds_append, ownBinds_logicalBlock, lists_logicalBlock,
      List.count_append, List.flatten_nil, List.append_nil, List.flatten_cons, binds_nil]
    omega
  quiet := by simp [enters_cons, enters_append, h1.quiet, h2.quiet, h3.quiet]
  isTemp := by simp [isTemp_temp]
  code := by
    intro Γ B hk hU hR
    obtain ⟨Γ1, hc1, hr1, hp1⟩ := h1.code Γ B hk hU hR
    have hleft : b.left ∈ Γ1.names := (hr1 _ (by simp)).mem_names
    have hR1 : ∀ x ∈ [b.left] ++ R, x ∈ Γ1.names := by
      intro x hx
      rcases List.mem_append.1 hx with hx | hx
      · rw [List.mem_singleton.1 hx]
        exact hleft
      · exact hc1.names_subset (hR x hx)
    obtain ⟨Γ2, hc2, hr2, -⟩ := h2.code Γ1 B (by rwa [hc1.alike.reach]) hU hR1
    have hR2 : ∀ x ∈ [b.right] ++ ([b.left] ++ R), x ∈ Γ2.names := by
      intro x hx
      rcases List.mem_append.1 hx with hx | hx
      · rw [List.mem_singleton.1 hx]
        exact (hr2 _ (by simp)).mem_names
      · exact hc2.names_subset (hR1 x hx)
    obtain ⟨Γ3, hc3, hr3, -⟩ := h3.code Γ2 B (by rwa [hc2.alike.reach, hc1.alike.reach]) hU hR2
    refine ⟨_, .logical (isTemp_temp s3) hc1 hleft (hp1 _ (by simp)) hc2 hc3
      (hr3 _ (by simp)).mem_names, ?_, by simp⟩
    simpa using Context.Near.share_self

theorem genLogical_yields {op : LogicalOp} (hl : CodeYields π setting U left)
    (hr : CodeYields π setting U right) :
    (genLogical location op left right).Ensures setting s fun a s' l =>
      Yields π U [] k s l s' [a] [] := by
  refine .inScope hs (.captured ((value_yields hs π U [] hl).bind fun a s1 l1 h1 => ?_))
  refine (genPrimitive_yields h1.scope_after π U [a] (by simp)).bind fun p s2 l2 h2 => ?_
  rw [ensures_pure, List.append_nil]
  refine .captured ((value_yields h2.scope_after π U [a] hr).mono fun b s3 l3 h3 => ?_)
  refine .ofExcept fun method _ => .captured ?_
  refine (genCallValue_yields h3.scope_after π U ([b] ++ [a]) (by simp) (by simp)).mono
    fun c s4 l4 h4 => ?_
  exact .temp (.emitAt Instr.ofLogical_eq_ok (.pure (.logical (h1.append h2) h3 h4)))

/-- The opcode and the target of a call: a type, or the value of the target. -/
theorem genTarget_yields {target : Option Code} (ht : ∀ c ∈ target, CodeYields π setting U c) :
    (genTarget symbol target).Ensures setting s fun a s' l =>
      ∃ r, (a.1 = .callStatic ∨ a.2 ∈ r) ∧ Yields π U [] k s l s' r [] := by
  cases target with
  | none => exact .pure ⟨[], .inl rfl, .nil hs⟩
  | some target =>
    have hc := ht target rfl
    have hvalue : ∀ opcode : Opcode, (target.value >>= fun t => pure (opcode, t)).Ensures setting s
        fun a s' l => ∃ r, (a.1 = .callStatic ∨ a.2 ∈ r) ∧ Yields π U [] k s l s' r [] := by
      refine fun opcode => (value_yields hs π U [] hc).bind fun a s1 l1 h1 => ?_
      rw [ensures_pure, List.append_nil]
      exact ⟨[a], .inr (by simp), h1⟩
    unfold genTarget
    cases symbol.dispatch with
    | static =>
      refine (hc s k hs).bind fun a s1 l1 h1 => ?_
      rw [ensures_pure, List.append_nil]
      exact ⟨a.toList, .inl rfl, h1⟩
    | dispatcher | method => exact hvalue _

theorem genApply_yields {target : Option Code} {args : List Code}
    (ht : ∀ c ∈ target, CodeYields π setting U c) (ha : ∀ c ∈ args, CodeYields π setting U c) :
    (genApply location target symbol args).Ensures setting s fun a s' l =>
      Yields π U [] k s l s' a.toList [] := by
  unfold genApply
  split
  · cases target with
    | none =>
      refine (genConstruct_yields hs π U [] ha).bind ?_
      intro a s1 l1 h1
      rw [ensures_pure, List.append_nil]
      exact h1
    | some target =>
      refine (ht target rfl s k hs).bind ?_
      intro t s1 l1 h1
      refine (genConstruct_yields h1.scope_after π U (t.toList ++ []) ha).bind ?_
      intro a s2 l2 h2
      rw [ensures_pure, List.append_nil]
      exact h1.andThen h2
  · refine (genTarget_yields hs ht).bind ?_
    rintro ⟨opcode, t⟩ s1 l1 ⟨r, hr, h1⟩
    dsimp only
    refine (values_yields h1.scope_after π U (r ++ []) ha).bind ?_
    intro as s2 l2 h2
    refine (genCall_yields h2.scope_after π U (as ++ (r ++ []))
      (hr.imp_right fun h => by simp [h]) (by simp)).mono ?_
    intro a s3 l3 h3
    exact h1.andThen (h2.andThen h3)

/-! ### Code without a place in the source -/

omit hs

theorem codeYields_ofVar (h : name ∈ U) : CodeYields π setting U (.ofVar name type) := by
  intro s k hs
  exact ensures_map.2 (genVar_emits (.load hs h))

theorem codeYields_ofLiteral : CodeYields π setting U (.ofLiteral text type) := by
  intro s k hs
  exact ensures_map.2 (genLiteral_yields hs π U [])

theorem codeYields_ofCall {target : Code} {args : List Code} (ht : CodeYields π setting U target)
    (ha : ∀ c ∈ args, CodeYields π setting U c) :
    CodeYields π setting U (.ofCall target symbol args) := by
  intro s k hs
  refine genApply_yields hs ?_ ha
  intro c hc
  cases hc
  exact ht

theorem codeYields_guarded {condition : Code} (hn : name ∈ U)
    (hc : CodeYields π setting U condition) :
    CodeYields π setting U (.guarded name type condition) := by
  intro s k hs
  unfold Code.guarded
  dsimp only
  rw [ensures_map]
  refine genLogical_yields hs ?_ hc
  intro s k hs
  dsimp only
  refine (value_yields hs π U [] (codeYields_ofVar hn)).bind ?_
  intro a s1 l1 h1
  rw [ensures_map]
  refine (genIsSet_yields h1.scope_after π U ([a] ++ []) (by simp)).mono ?_
  intro b s2 l2 h2
  exact h1.andThen h2

end

end ScopedIR.Layout

namespace ScopedIR.Expr

open Lowering Gen Layout

variable {π : Policy} {setting : Setting}

mutual

/-- The code of an expression has the layout, and reads what the expression reads. -/
theorem codeYields_lower (e : Expr) : CodeYields π setting e.reads e.lower := by
  intro s k hs
  cases e <;> simp only [lower] <;> refine .located ?_
  case literal info text => exact ensures_map.2 (genLiteral_yields hs π _ [])
  case var info name => exact ensures_map.2 (genVar_emits (.load hs (by simp [reads])))
  case enumConstant info constant => exact ensures_map.2 (genLiteral_yields hs π _ [])
  case binary info op left right operator =>
    exact genBinary_yields hs ((codeYields_lower left).mono (by simp [reads]))
      ((codeYields_lower right).mono (by simp [reads]))
  case unary info op operand operator =>
    exact genUnary_yields hs ((codeYields_lower operand).mono (by simp [reads]))
  case isSet info operand =>
    refine (value_yields hs π _ [] (codeYields_lower operand)).bind fun a s1 l1 h1 => ?_
    rw [ensures_map]
    refine (genIsSet_yields h1.scope_after π operand.reads ([a] ++ []) (by simp)).mono ?_
    intro b s2 l2 h2
    simpa [reads] using h1.andThen h2
  case logical info op left right =>
    exact ensures_map.2 (genLogical_yields hs ((codeYields_lower left).mono (by simp [reads]))
      ((codeYields_lower right).mono (by simp [reads])))
  case call info target symbol args =>
    exact genApply_yields hs
      (fun c hc => (codeYields_lowerTarget target c hc).mono (by simp [reads]))
      (fun c hc => (codeYields_lowerAll args c hc).mono (by simp [reads]))
  case list info items =>
    exact ensures_map.2 (genList_yields hs π _ []
      (fun c hc => (codeYields_lowerAll items c hc).mono (by simp [reads])))
  case field info object name => exact ensures_map.2 (genVar_emits (.loadField hs (by simp [reads])))

theorem codeYields_lowerTarget (target : Option Expr) :
    ∀ c ∈ lowerTarget target, CodeYields π setting (readsTarget target) c := by
  cases target with
  | none =>
    intro c hc
    cases hc
  | some e =>
    intro c hc
    cases hc
    exact codeYields_lower e

theorem codeYields_lowerAll (l : List Expr) :
    ∀ c ∈ lowerAll l, CodeYields π setting (readsAll l) c := by
  cases l with
  | nil =>
    intro c hc
    cases hc
  | cons e rest =>
    intro c hc
    simp only [lowerAll, List.mem_cons] at hc
    rcases hc with rfl | hc
    · refine (codeYields_lower e).mono ?_
      simp [readsAll]
    · refine (codeYields_lowerAll rest c hc).mono ?_
      simp [readsAll]

end

end ScopedIR.Expr
