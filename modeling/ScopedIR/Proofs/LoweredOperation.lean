import ScopedIR.Proofs.LoweredStmt
import ScopedIR.Lowering.Module

/-!
# Lowered operations have the layout

The code of an operation is a block in its outermost scope, which starts with nothing but the
parameters, and a return unless the block departs.

Main definition: `OperationLaid`.

Main statements: `operationLaid_of_lowerFunction` for the operation of a function, and
`operationLaid_of_lower` for every operation of a module.
-/

namespace ScopedIR.Layout

open Instr Lowering Gen

/-- The code of an operation: the code `l` in the outermost scope `k`. -/
def operationCode (k : String) (d : Bool) (l : List Instr) : List Instr :=
  scoping k d l ++ (if d then [] else [simple none .ret [] none])

/-- What is known at the start of the outermost scope of an operation. -/
def Context.outermost (params : List String) (k : String) : Context :=
  Context.push { params } k

/-- A body with a single block. -/
def singleBlock (entry : String) (instrs : List Instr) : Body :=
  { blocks := ⟨#[{ label := entry, instrs }]⟩, index := ⟨[(entry, 0)]⟩ }

theorem find?_singleBlock {entry label : String} {instrs : List Instr} {b : Nat}
    (h : (singleBlock entry instrs).find? label = some b) : b = 0 := by
  simp only [singleBlock, Body.find?, FinMap.get?, FinMap.find] at h
  split at h <;> simp_all

/-- An operation with a single block, whose code is laid out and names each temporary and each scope
once. -/
def OperationLaid (π : Policy) (op : Operation) : Prop :=
  ∃ (entry k : String) (d : Bool) (l : List Instr) (Γ : Context),
    op.body = singleBlock entry (operationCode k d l) ∧
    Emits π (.outermost (paramNames op.params) k) d l Γ ∧
    (binds l).Nodup ∧ (∀ x ∈ binds l, IsTemp x) ∧ (k :: enters l).Nodup

section

variable {π : Policy} {setting : Setting} {V : List String} {s s' : State}

/-! ### The outermost scope -/

theorem ensures_label {stem : String} {post : String → State → List Instr → Prop} :
    (Gen.label stem).Ensures setting s post ↔
      post (s.label stem).1 (s.label stem).2 [] :=
  ⟨fun h => h ⟨_, _, []⟩ rfl, fun h _ hr => by cases hr; exact h⟩

theorem lookup_declare_self {x type : String} {isParam : Bool}
    (h : s.declare x type isParam = .ok s') : s'.lookup x = some ⟨type, isParam⟩ := by
  unfold State.declare at h
  split at h
  · cases h
  · cases h
    simp [State.lookup]

variable {params : List TypedName} {block : BlockCode} {name returnType : String}
  {token : Option Location} {op : Operation} {f : FunctionDef} {ops : List Operation} {t : TypeDef}
  {debug : Bool} {m : SourceModule} {types : TypeOracle} {u : CodeUnit}

/-- Declaring parameters keeps the scopes, and every one of them can be looked up as one. -/
theorem declareParams_ensures {post : PUnit → State → List Instr → Prop}
    (h : ∀ s', Kept s s' → s'.temps = s.temps →
      s'.scopeIds = s.scopeIds → (∀ x, (∃ v, s.lookup x = some v ∧ v.isParam = true) ∨
        x ∈ paramNames params → ∃ v, s'.lookup x = some v ∧ v.isParam = true) → post ⟨⟩ s' []) :
    (params.forM fun p => Gen.declare p.name p.type true).Ensures setting s post := by
  induction params generalizing s with
  | nil =>
    refine ensures_pure.2 (h s (.refl s) rfl rfl ?_)
    rintro x (hx | hx)
    · exact hx
    · simp [paramNames] at hx
  | cons p rest ih =>
    change (Gen.declare p.name p.type true >>= fun _ =>
      rest.forM fun p => Gen.declare p.name p.type true).Ensures setting s post
    rw [ensures_bind, ensures_declare]
    intro s1 hd
    refine ih fun s2 hk ht hn hl => ?_
    obtain ⟨hn1, ht1⟩ := scopeIds_declare hd
    refine h s2 ((kept_declare hd).trans hk) (ht.trans ht1.symm) (hn.trans hn1.symm) ?_
    intro x hx
    refine hl x ?_
    by_cases he : p.name = x
    · subst he
      exact .inl ⟨_, lookup_declare_self hd, rfl⟩
    · rw [lookup_declare hd he]
      rcases hx with hx | hx
      · exact .inl hx
      · simp only [paramNames, List.map_cons, List.mem_cons] at hx
        exact .inr (hx.resolve_left fun h' => he h'.symm)

/-- The state in which the body of an operation is lowered. -/
theorem fits_outermost (hp : π.named → ∀ x ∈ paramNames params, ¬ IsTemp x ∧ '.' ∉ x.toList)
    (hs : s.scopes = [] ∧ s.handlers = []) (hk : Kept s.inside s')
    (hn : s'.scopeIds = s.inside.scopeIds)
    (hl : ∀ x ∈ paramNames params, ∃ v, s'.lookup x = some v ∧ v.isParam = true) :
    Fits π (paramNames params) s' (.outermost (paramNames params) s.scopeId.1) where
  ids := by
    rw [hk.ids]
    simp [State.openScopes, State.enterScope, State.scopeId, hs.1, Context.outermost, Context.push,
      Context.ids]
  issued := by
    intro k hk'
    rw [hk.ids] at hk'
    obtain rfl : k = s.scopeId.1 := by
      simpa [State.openScopes, State.enterScope, State.scopeId, hs.1] using hk'
    exact ⟨s.scopeIds + 1, by rw [hn]; exact Nat.le_refl _, rfl⟩
  boundary := by
    intro _
    rw [boundaryOf, hk.handlers]
    simp [State.enterScope, State.scopeId, hs.2, Context.outermost, Context.push]
  inside := by simp [Context.outermost, Context.push]
  mayReturn := fun _ _ => rfl
  mayThrow := fun _ => rfl
  reads := by
    intro x hx
    exact ⟨fun _ => .inr hx, Context.params_subset_names hx, fun hs => (hp hs x hx).2⟩
  closed := by
    intro hs
    refine ⟨?_, fun x hx => ⟨hx, (hp hs x hx).1⟩⟩
    simp [Context.outermost, Context.push, Context.owned]
  assignable := fun _ x hx _ => .inr (hl x hx)

/-- The code of an operation is that of its body in the outermost scope, where the parameters are
declared. -/
theorem genOuter_parts :
    (genOuter params block).Ensures setting {} fun _ _ l =>
      ∃ (s0 s1 s2 : State) (d : Bool) (l' : List Instr), (s0.scopes = [] ∧ s0.handlers = []) ∧
      Kept s0.inside s1 ∧ s1.temps = s0.temps ∧ s1.scopeIds = s0.inside.scopeIds ∧
      (∀ x ∈ paramNames params, ∃ v, s1.lookup x = some v ∧ v.isParam = true) ∧
      block.run setting s1 = .ok ⟨d, s2, l'⟩ ∧ l = operationCode s0.scopeId.1 d l' := by
  unfold genOuter
  refine ensures_bind.2 (ensures_label.2 (.scopeId (.emit scopeEnter_eq_ok (.enterScope
    (ensures_bind.2 ?_)))))
  have hs0 : (({} : State).label "_entry").2.scopes = [] ∧
      (({} : State).label "_entry").2.handlers = [] := ⟨rfl, rfl⟩
  generalize (({} : State).label "_entry").2 = s0 at hs0 ⊢
  refine declareParams_ensures fun s1 hk ht hn hl => ?_
  refine ensures_bind.2 (ensures_of_run fun d s2 l hrun => .exitScope fun s3 hx => ?_)
  cases d with
  | true =>
    exact .pure ⟨s0, s1, s2, true, l, hs0, hk, ht, hn, fun x hx => hl x (.inr hx), hrun,
      by simp [operationCode, scoping, entering]⟩
  | false =>
    exact .emit scopeExit_eq_ok (.emit ret_eq_ok (.pure ⟨s0, s1, s2, false, l, hs0, hk, ht, hn,
      fun x hx => hl x (.inr hx), hrun, by simp [operationCode, scoping, entering, exiting]⟩))

theorem genOuter_yields (hp : π.named → ∀ x ∈ paramNames params, ¬ IsTemp x ∧ '.' ∉ x.toList)
    (hb : BlockYields π setting (paramNames params) block) :
    (genOuter params block).Ensures setting {} fun _ _ l => ∃ k d l' Γ,
      l = operationCode k d l' ∧ Emits π (.outermost (paramNames params) k) d l' Γ ∧
      (binds l').Nodup ∧ (∀ x ∈ binds l', IsTemp x) ∧ (k :: enters l').Nodup := by
  refine genOuter_parts.mono ?_
  rintro _ _ _ ⟨s0, s1, s2, d, l, hs0, hk, ht, hn, hl, hrun, rfl⟩
  obtain ⟨Γ, hlaid, -⟩ := (hb _ _ (fits_outermost hp hs0 hk hn hl)).of_run hrun
  have hi : Issued s0.inside l s2 := by
    have := hlaid.issued
    exact ⟨ht ▸ this.temps, hn ▸ this.scopes⟩
  have hnodup := (hi.scoping (d := d)).scopes.nodup
  rw [enters_scoping] at hnodup
  exact ⟨s0.scopeId.1, d, l, Γ, rfl, hlaid.code, hi.temps.nodup, fun x hx => hi.temps.isTemp hx, hnodup⟩

/-- An operation has the code of its only block. -/
theorem genOperation_ensures {P : List Instr → Prop}
    (h : (genOuter params block).Ensures setting {} fun _ _ l => P l) :
    (genOperation name params returnType token block).Ensures setting {} fun op _ _ =>
      op.params = params ∧ ∃ entry l, op.body = singleBlock entry l ∧ P l := by
  unfold genOperation
  refine .captured (h.mono fun entry s1 l hl => .ofExcept fun b0 hb0 => .ofExcept fun b1 hb1 => ?_)
  refine .located (.pure ⟨rfl, entry, l, ?_, hl⟩)
  dsimp only
  unfold Body.addBlock at hb0
  split at hb0
  · cases hb0
  split at hb0
  · cases hb0
  cases hb0
  have hb1 := Except.ok.inj hb1
  rw [← hb1]
  simp [singleBlock, Body.empty, Body.size, Arena.empty, Arena.size, Arena.push, Arena.modify,
    FinMap.empty, FinMap.insert, FinMap.drop]

theorem genOperation_yields (hp : π.named → ∀ x ∈ paramNames params, ¬ IsTemp x ∧ '.' ∉ x.toList)
    (hb : BlockYields π setting (paramNames params) block) :
    (genOperation name params returnType token block).Ensures setting {} fun op _ _ =>
      op.params = params ∧ OperationLaid π op := by
  refine (genOperation_ensures (genOuter_yields hp hb)).mono ?_
  rintro op _ _ ⟨rfl, entry, _, hbody, k, d, l, Γ, rfl, h⟩
  exact ⟨rfl, entry, k, d, l, Γ, hbody, h⟩

theorem operationLaid_of_operationOf {g : Gen Operation} {P : Operation → Prop}
    (hg : g.Ensures setting {} fun op _ _ => P op) (h : operationOf setting g = .ok op) : P op := by
  obtain ⟨r, hr, h⟩ := except_bind_eq_ok.1 h
  cases h
  exact hg r hr

/-! ### Functions -/

/-- The operation of a function has the layout. -/
theorem operationLaid_of_lowerFunction (hn : π.named → f.WellScoped)
    (hh : π.held → Stmt.BlockAll Stmt.Simple f.body) (h : lowerFunction setting name f = .ok op)
    (hp : π.plain → Stmt.BlockAll Stmt.Spelled f.body := by exact False.elim) :
    op.params = f.params ∧ OperationLaid π op := by
  refine operationLaid_of_operationOf (P := fun op => op.params = f.params ∧ OperationLaid π op)
    (genOperation_yields (fun hs => (hn hs).params) ?_) h
  exact Stmt.blockYields_lowerBlock f.body _ (fun hs x hx => ((hn hs).params x hx).1)
    (fun hs => (hn hs).body) hh hp

/-! ### Modules -/

/-- The code that gives fields their initial values, for which no names are declared. -/
theorem genFields_yields (hn : ¬ π.named) (hh : ¬ π.held) {fields : List FieldDef}
    (hp : π.plain → ∀ e ∈ fields.filterMap (·.init), ∀ x ∈ e.reads, Ordinary x) :
    BlockYields π setting V (genFields fields) := by
  have hthis : Ordinary "this" := ⟨not_isTemp_of_head (by decide), by decide⟩
  induction fields generalizing V with
  | nil =>
    unfold genFields
    exact .nil
  | cons field rest ih =>
    have hrest : π.plain → ∀ e ∈ rest.filterMap (·.init), ∀ x ∈ e.reads, Ordinary x :=
      fun hs e he => hp hs e ((List.sublist_cons_self field rest).filterMap _ |>.subset he)
    intro s Γ hF
    unfold genFields
    split
    · next init hinit =>
      obtain ⟨k, hk, -⟩ := hF.exists_current
      have hc : CodeYields π setting init.reads init.lower := init.codeYields_lower
      refine (value_yields hk π _ [] hc).bind ?_
      intro v s1 l1 hy
      rw [ensures_bind, ensures_emitAll]
      intro l2 hl
      rw [Ownership.initialise_eq_ok hl]
      have hreads : π.plain → ∀ x ∈ init.reads, Ordinary x := fun hs =>
        hp hs init (List.mem_filterMap.2 ⟨field, List.mem_cons_self, hinit⟩)
      obtain ⟨Γ1, hcalc, htail, hF1, hnear, -⟩ :=
        hF.calc_of_yields (.of_ordinary (fun h => absurd h hn) hreads) hy
      have hlaid : Laid π Γ s false (l1 ++ initialising none ("this." ++ field.name) v) s1 Γ1 :=
        ⟨.initField hh hn hthis (List.Subset.refl _) hcalc (hnear v (by simp)), htail,
          hy.issued.append issued_initialising, hy.same.kept⟩
      refine (ih hrest s1 Γ1 hF1).mono ?_
      rintro d s2 l3 ⟨Γ2, hlaid2, hF2⟩
      exact ⟨Γ2, by simpa [initialising] using hlaid.append hlaid2, hF2⟩
    · exact ih hrest s Γ hF

theorem mem_mapM_eq_ok {ε α β : Type} {f : α → Except ε β} {l : List α} {r : List β}
    (h : l.mapM f = .ok r) {b : β} (hb : b ∈ r) : ∃ a ∈ l, f a = .ok b := by
  induction l generalizing r with
  | nil =>
    cases h
    cases hb
  | cons a rest ih =>
    rw [List.mapM_cons] at h
    obtain ⟨b0, h0, h⟩ := except_bind_eq_ok.1 h
    obtain ⟨r0, h1, h⟩ := except_bind_eq_ok.1 h
    cases h
    rcases List.mem_cons.1 hb with rfl | hb
    · exact ⟨a, List.mem_cons_self, h0⟩
    · obtain ⟨a', ha', h'⟩ := ih h1 hb
      exact ⟨a', List.mem_cons_of_mem _ ha', h'⟩

theorem exists_mapM_eq_ok {ε α β : Type} {f : α → Except ε β} {l : List α} {r : List β}
    (h : l.mapM f = .ok r) {a : α} (ha : a ∈ l) : ∃ b ∈ r, f a = .ok b := by
  induction l generalizing r with
  | nil => cases ha
  | cons a0 rest ih =>
    rw [List.mapM_cons] at h
    obtain ⟨b0, h0, h⟩ := except_bind_eq_ok.1 h
    obtain ⟨r0, h1, h⟩ := except_bind_eq_ok.1 h
    cases h
    rcases List.mem_cons.1 ha with rfl | ha
    · exact ⟨b0, List.mem_cons_self, h0⟩
    · obtain ⟨b, hb, h'⟩ := ih h1 ha
      exact ⟨b, List.mem_cons_of_mem _ hb, h'⟩

/-- The layout of code about whose names nothing is asked. -/
def Policy.none : Policy := ⟨False, False, False⟩

/-- The operations of a type: one that initialises fields, if there is need for it, and the methods. -/
theorem exists_of_lowerType (h : lowerType setting t = .ok ops) :
    ∃ init methods, ops = init ++ methods ∧
      (∀ op ∈ init, operationOf setting
        (genOperation initOperation [] TypeName.void none (genFields t.fields)) = .ok op) ∧
      (t.methods.mapM fun m => lowerFunction setting m.name m) = .ok methods := by
  unfold lowerType at h
  dsimp only at h
  split at h
  · obtain ⟨init, hinit, h⟩ := except_bind_eq_ok.1 h
    obtain ⟨_, hpure, h⟩ := except_bind_eq_ok.1 h
    cases hpure
    obtain ⟨methods, hm, h⟩ := except_bind_eq_ok.1 h
    cases h
    exact ⟨[init], methods, rfl, fun op hop => List.mem_singleton.1 hop ▸ hinit, hm⟩
  · obtain ⟨_, hpure, h⟩ := except_bind_eq_ok.1 h
    cases hpure
    obtain ⟨methods, hm, h⟩ := except_bind_eq_ok.1 h
    cases h
    exact ⟨[], methods, rfl, fun op hop => (by cases hop), hm⟩

theorem operationLaid_of_lowerType (hn : ¬ π.named) (hh : ¬ π.held)
    (hp : π.plain → ∀ f ∈ t.methods, Stmt.BlockAll Stmt.Spelled f.body)
    (hi : π.plain → ∀ e ∈ t.fields.filterMap (·.init), ∀ x ∈ e.reads, Ordinary x)
    (h : lowerType setting t = .ok ops) : ∀ op ∈ ops,
      (op.params = [] ∨ ∃ f ∈ t.methods, op.params = f.params) ∧ OperationLaid π op := by
  obtain ⟨init, methods, rfl, hinit, hm⟩ := exists_of_lowerType h
  intro op hop
  rcases List.mem_append.1 hop with hop | hop
  · have hfields : BlockYields π setting (paramNames []) (genFields t.fields) :=
      genFields_yields hn hh hi
    obtain ⟨hparams, hlaid⟩ := operationLaid_of_operationOf
      (P := fun op => op.params = [] ∧ OperationLaid π op)
      (genOperation_yields (absurd · hn) hfields) (hinit op hop)
    exact ⟨.inl hparams, hlaid⟩
  · obtain ⟨m, hmem, hm⟩ := mem_mapM_eq_ok hm hop
    obtain ⟨hparams, hlaid⟩ := operationLaid_of_lowerFunction (absurd · hn) (absurd · hh) hm
      fun hs => hp hs m hmem
    exact ⟨.inr ⟨m, hmem, hparams⟩, hlaid⟩

/-- Every function of a construct becomes an operation. -/
theorem exists_operation_of_lowerConstruct {source : ConstructDef} {c : Construct}
    (h : lowerConstruct setting source = .ok c) (hf : f ∈ source.functions) :
    ∃ op ∈ c.operations, ∃ name, lowerFunction setting name f = .ok op := by
  cases source with
  | function g | program p =>
    obtain ⟨op, hop, h⟩ := except_bind_eq_ok.1 h
    cases h
    rw [List.mem_singleton.1 hf]
    exact ⟨op, List.mem_singleton.2 rfl, _, hop⟩
  | type t =>
    obtain ⟨ops, hops, h⟩ := except_bind_eq_ok.1 h
    cases h
    obtain ⟨init, methods, rfl, -, hm⟩ := exists_of_lowerType hops
    obtain ⟨op, hop, hlower⟩ := exists_mapM_eq_ok hm hf
    exact ⟨op, List.mem_append_right _ hop, _, hlower⟩

/-- Every operation of a module has the layout, when no more is asked of names than that they are
ordinary. So are the names of its parameters then. -/
theorem operationLaid_of_spelled (hn : ¬ π.named) (hh : ¬ π.held) (hp : π.plain → m.Spelled)
    (h : m.lower types debug = .ok u) : ∀ op ∈ u.operations,
      (π.plain → ∀ x ∈ paramNames op.params, Ordinary x) ∧ OperationLaid π op := by
  intro op hop
  obtain ⟨constructs, hc, h⟩ := except_bind_eq_ok.1 h
  cases h
  obtain ⟨c, hcs, hop⟩ := List.mem_flatMap.1 hop
  obtain ⟨source, hsource, hs⟩ := mem_mapM_eq_ok hc hcs
  have hmem : ∀ f ∈ source.functions, f ∈ m.functions :=
    fun f hf => List.mem_flatMap.2 ⟨source, hsource, hf⟩
  have hbody : π.plain → ∀ f ∈ source.functions, Stmt.BlockAll Stmt.Spelled f.body :=
    fun hs f hf => (hp hs).body f (hmem f hf)
  have hparams : ∀ f ∈ source.functions, op.params = f.params →
      π.plain → ∀ x ∈ paramNames op.params, Ordinary x :=
    fun f hf he hs => he ▸ (hp hs).params f (hmem f hf)
  cases source with
  | function f =>
    obtain ⟨op', hop', hs⟩ := except_bind_eq_ok.1 hs
    cases hs
    obtain rfl := List.mem_singleton.1 hop
    obtain ⟨he, hlaid⟩ := operationLaid_of_lowerFunction (absurd · hn) (absurd · hh) hop'
      fun hs => hbody hs f List.mem_cons_self
    exact ⟨hparams f List.mem_cons_self he, hlaid⟩
  | type t =>
    obtain ⟨ops, hops, hs⟩ := except_bind_eq_ok.1 hs
    cases hs
    obtain ⟨hnone | ⟨f, hf, he⟩, hlaid⟩ := operationLaid_of_lowerType hn hh hbody
      (fun hs => (hp hs).initial _ hsource) hops op hop
    · refine ⟨fun _ x hx => ?_, hlaid⟩
      rw [hnone] at hx
      cases hx
    · exact ⟨hparams f hf he, hlaid⟩
  | program p =>
    obtain ⟨op', hop', hs⟩ := except_bind_eq_ok.1 hs
    cases hs
    obtain rfl := List.mem_singleton.1 hop
    obtain ⟨he, hlaid⟩ := operationLaid_of_lowerFunction (absurd · hn) (absurd · hh) hop'
      fun hs => hbody hs p.toFunction List.mem_cons_self
    exact ⟨hparams p.toFunction List.mem_cons_self he, hlaid⟩

/-- Every operation of a module has the layout. -/
theorem operationLaid_of_lower (h : m.lower types debug = .ok u) :
    ∀ op ∈ u.operations, OperationLaid .none op :=
  fun op hop => (operationLaid_of_spelled id id False.elim h op hop).2

end

end ScopedIR.Layout

namespace ScopedIR

/-- The operation is what the function becomes in the code unit of a module. -/
def SourceModule.Lowers (m : SourceModule) (types : TypeOracle) (debug : Bool) (f : FunctionDef)
    (op : Operation) : Prop :=
  ∃ name, Lowering.lowerFunction { debug, types, enums := m.enums } name f = .ok op

/-- Every function of a module becomes an operation of its code unit. -/
theorem SourceModule.exists_lowers {m : SourceModule} {types : TypeOracle} {debug : Bool}
    {u : CodeUnit} (h : m.lower types debug = .ok u) {f : FunctionDef} (hf : f ∈ m.functions) :
    ∃ op ∈ u.operations, m.Lowers types debug f op := by
  obtain ⟨constructs, hc, h⟩ := except_bind_eq_ok.1 h
  cases h
  obtain ⟨source, hs, hf⟩ := List.mem_flatMap.1 hf
  obtain ⟨c, hcs, hlower⟩ := Layout.exists_mapM_eq_ok hc hs
  obtain ⟨op, hop, hname⟩ := Layout.exists_operation_of_lowerConstruct hlower hf
  exact ⟨op, List.mem_flatMap.2 ⟨c, hcs, hop⟩, hname⟩

end ScopedIR
