import ScopedIR.Proofs.KnownNames

/-!
# Temporaries are bound before they are read

Lowering draws a temporary for each intermediate value, and every instruction that reads one stands where
the instruction that binds it was run. At every point of lowered code the temporaries among the names of
the layout are bound. What it takes is that no variable is spelled like a temporary or a field, and that
a call with a result is answered with one.

Main statement: `unbound_ne_temp_of_lower`.
-/

namespace ScopedIR

variable {σ : Type}

namespace Layout

open Exec Instr

variable {cfg : Config σ} {rounds : Nat} {X Y Z : List String} {l r : List Instr} {i : Instr}
  {location : Option Location} {Γ Γ1 Γ2 : Context} {t x v k : String}

/-! ### Code -/

/-- Code that runs where the names `X` are known, and makes the names `Y` known. However control leaves
it, nothing of `X` is lost. -/
structure Supplies (cfg : Config σ) (rounds : Nat) (X : List String) (l : List Instr)
    (Y : List String) : Prop where
  grows : X ⊆ Y
  run : ∀ inner, Secures cfg X (runAll (l.map (Instr.stepped cfg rounds inner))) (knownAfter X Y)

namespace Supplies

theorem nil : Supplies cfg rounds X [] X := ⟨List.Subset.refl _, fun _ _ h => h⟩

variable {W : List String} {type : String} {d : Bool} {c : Chain Instr}

/-- Code after code that makes all of its names known, and maybe more. -/
theorem run_append {V : List String} (h : Supplies cfg rounds Y l Z)
    (h' : Supplies cfg rounds W r V) (hW : W ⊆ Z) (hXY : X ⊆ Y) (hXW : X ⊆ W) (inner : Bool) :
    Secures cfg Y (runAll ((l ++ r).map (Instr.stepped cfg rounds inner))) (knownAfter X V) := by
  intro m hm
  rw [List.map_append, leads_runAll_append]
  refine (h.run inner).through hXY hm fun m1 h1 => ?_
  refine (h'.run inner m1 (h1.mono hW)).mono fun c m2 h2 => ?_
  cases c with
  | next => exact h2
  | _ => exact h2.mono hXW

theorem append (h : Supplies cfg rounds X l Y) (h' : Supplies cfg rounds Y r Z) :
    Supplies cfg rounds X (l ++ r) Z :=
  ⟨List.Subset.trans h.grows h'.grows,
    h.run_append h' (List.Subset.refl _) (List.Subset.refl _) h.grows⟩

/-- Less may be remembered. -/
theorem of_subset (h : Supplies cfg rounds X l Y) (hX : X ⊆ Z) (hZ : Z ⊆ Y) :
    Supplies cfg rounds X l Z := by
  refine ⟨hX, fun inner m hm => (h.run inner m hm).mono fun c m' h' => ?_⟩
  cases c with
  | next => exact h'.mono hZ
  | _ => exact h'

theorem single (hXY : X ⊆ Y) (h : Secures cfg X
    (perform exitScope cfg rounds i (i.payload.map (Instr.stepped cfg rounds true))) (knownAfter X Y)) :
    Supplies cfg rounds X [i] Y := by
  refine ⟨hXY, fun inner m hm => ?_⟩
  rw [List.map_singleton, leads_runAll_single]
  exact leads_stepped nofun (fun _ => nofun) (h (ticked m) ⟨hm.names, hm.registered, hm.handlers⟩)

/-- An instruction after which control goes on with the same names. -/
theorem keep (h : Secures cfg X
    (perform exitScope cfg rounds i (i.payload.map (Instr.stepped cfg rounds true))) fun _ => X) :
    Supplies cfg rounds X [i] X := .single (List.Subset.refl _) (.onward (List.Subset.refl _) h)

/-- An instruction after which control goes on with one name more. -/
theorem add (h : Secures cfg X
    (perform exitScope cfg rounds i (i.payload.map (Instr.stepped cfg rounds true)))
      fun _ => t :: X) : Supplies cfg rounds X [i] (t :: X) :=
  .single (List.subset_cons_self _ _) (.onward (List.subset_cons_self _ _) h)

theorem create {opcode : Opcode} {operands : List String}
    (ho : opcode = .loadLiteral ∨ opcode = .allocObject) :
    Supplies cfg rounds X [simple location opcode operands (some t)] (t :: X) := by
  refine .add ?_
  rcases ho with rfl | rfl
  · exact (Secures.required _).bind fun _ => (Secures.required _).bind fun _ =>
      (Secures.allocate _).bind fun _ => .yield _ _
  · exact (Secures.required _).bind fun _ => (Secures.allocate _).bind fun _ => .yield _ _

theorem load (hx : IsTemp x → x ∈ X) :
    Supplies cfg rounds X [simple location .load [x] (some t)] (t :: X) :=
  .add fun _ h => leads_load.2 (h.gives_lookup hx fun b => h.insert t b)

theorem isNull (hx : x ∈ X) : Supplies cfg rounds X [simple location .isNull [x] (some t)] (t :: X) :=
  .add fun _ h => leads_isNull.2 (h.gives_lookup (fun _ => hx) fun _ => h.insert t _)

theorem reference : Supplies cfg rounds X [simple location .reference [x, type] none] (x :: X) :=
  .add fun _ h => leads_reference.2 (h.insert x _)

theorem store (hv : v ∈ X) (hx : Writable x) :
    Supplies cfg rounds X [simple location .store [x, v] none] X :=
  .keep fun m h => leads_store.2 (h.gives_lookup (fun _ => hv) fun b => Secures.store b hx m h)

theorem retain (hx : IsTemp x → x ∈ X) : Supplies cfg rounds X [simple location .retain [x] none] X :=
  .keep (.counted (.onObject rfl hx fun _ _ _ => Heap.updateLive_error))

theorem release (hx : IsTemp x → x ∈ X) : Supplies cfg rounds X [simple location .release [x] none] X :=
  .keep (.counted (.onObject rfl hx fun _ _ _ => Heap.releaseAll_error))

theorem initialising (hv : v ∈ X) (hx : Writable x) :
    Supplies cfg rounds X (initialising location x v) X :=
  .append (l := [_]) (.store hv hx) (.retain fun ht => absurd ht hx.not_isTemp)

theorem assigning (hv : v ∈ X) (hx : Writable x) :
    Supplies cfg rounds X (assigning location x v) X :=
  .append (l := [_]) (.retain fun _ => hv)
    (.append (l := [_]) (.release fun ht => absurd ht hx.not_isTemp) (.store hv hx))

theorem register (hx : x ∈ X) :
    Supplies cfg rounds X [simple location .scopeRegister [x, k] none] X := by
  refine .keep (.counted fun m h => ?_)
  change Leads _ (get >>= fun m : Machine σ =>
    ofOption (.unknownScope k) (Machine.registerIn k x m.scopes) >>= fun scopes =>
      modify (fun m => { m with scopes }) >>= fun _ => pure Control.next) m _
  rw [leads_bind, leads_get, leads_bind]
  cases hr : Machine.registerIn k x m.scopes with
  | none => exact nofun
  | some scopes => exact h.register hx hr

theorem registering (ht : t ∈ X) : Supplies cfg rounds X (registering location t k) X :=
  .append (l := [_]) (.retain fun _ => ht) (.register ht)

theorem declaring : Supplies cfg rounds X (declaring location x type k) (x :: X) :=
  .append (l := [_]) .reference (.register List.mem_cons_self)

theorem exit : Supplies cfg rounds X [simple location .scopeExit [k] none] X :=
  .keep (.counted ((Secures.exitScope k).bind fun _ => .pure _))

theorem leaving {ks : List String} : Supplies cfg rounds X (leaving location ks) X := by
  induction ks with
  | nil => exact .nil
  | cons k ks ih => exact .append (l := [_]) .exit ih

theorem enter : Supplies cfg rounds X [entering k] X :=
  .keep (.counted fun _ h => ⟨h.names, List.forall_mem_cons.2 ⟨nofun, h.registered⟩, h.handlers⟩)

theorem exitUnless : Supplies cfg rounds X (if d then [] else [exiting k]) X := by
  cases d with
  | true => exact .nil
  | false => exact .exit

/-- Code in a scope of its own. -/
theorem scoping (h : Supplies cfg rounds X l Y) :
    Supplies cfg rounds X (scoping k d l) Y := .append (.append .enter h) .exitUnless

theorem call {opcode : Opcode} {site : CallSite} {result : Option String} (hanswers : cfg.Answers)
    (ho : opcode.isCall = true) (hr : result.isSome = true → site.hasResult = true)
    (ht : opcode = .callStatic ∨ site.target ∈ X) (ha : ∀ a ∈ site.args, a ∈ X) :
    Supplies cfg rounds X [calling location opcode result site] (result.toList ++ X) := by
  refine .single (List.subset_append_right _ _) ?_
  have hcall : Secures cfg X (Exec.call cfg (calling location opcode result site) site)
      (knownAfter X (result.toList ++ X)) := .call hanswers hr ht ha
  cases opcode with
  | call | callVirtual | callStatic | callDispatcher => exact hcall
  | _ => cases ho

theorem assert (hx : x ∈ X) : Supplies cfg rounds X [simple location .assert [x] none] X := by
  refine .keep fun m h => leads_assert.2 ((Secures.primitive (fun _ => hx) m h).mono fun b m' h' => ?_)
  cases b with
  | true => exact h'
  | false => exact nofun

/-- The end of code that departs. -/
theorem depart (hv : v ∈ X) : Supplies cfg rounds X [simple location .ret [v] none] X ∧
    Supplies cfg rounds X [simple location .throw [v] none] X :=
  ⟨.keep fun _ h => leads_ret.2 (h.gives_lookup (fun _ => hv) fun _ => h),
    .keep fun _ h => leads_throw.2 (h.gives_lookup (fun _ => hv) fun _ => h)⟩

/-! ### Chains and logical blocks -/

theorem setup {v : Option (ChainVariable Instr)} (h : Supplies cfg rounds X (setupOf v) Y) :
    Secures cfg X (runSetup (v.map (·.map (Instr.stepped cfg rounds true)))) (knownAfter X Y) := by
  cases v with
  | none => exact .onward h.grows (fun _ hm => (h.run true) _ hm)
  | some v => exact h.run true

/-- A list runs, and then the end of the chain. -/
theorem finish {b : CaseBody Instr} {m : Machine σ} (h : Supplies cfg rounds Z b.evaluation W)
    (hX : X ⊆ Z) (hv : ∀ v ∈ c.returning, v.name ∈ Z) (hb : ∀ x ∈ b.result, x ∈ W)
    (hm : Knows Z m) :
    Leads (Fault.Spares cfg) (runAll (b.evaluation.map (Instr.stepped cfg rounds true))) m
      fun ctl m1 => Through ctl
        (Leads (Fault.Spares cfg) (finishChain (chained location c)
          (c.returning.map (·.map (Instr.stepped cfg rounds true))) b.result) m1
            fun ctl m2 => Knows (knownAfter X (c.result.toList ++ Z) ctl) m2)
        (Knows (knownAfter X (c.result.toList ++ Z) ctl) m1) := by
  refine (h.run true).through hX hm fun m1 h1 => ?_
  have hend : Secures cfg W (finishChain (chained location c)
      (c.returning.map (·.map (Instr.stepped cfg rounds true))) b.result)
      fun _ => c.result.toList ++ W := by
    refine .finishChain ?_ hb
    intro v' hv'
    obtain ⟨v, hmem, rfl⟩ := Option.map_eq_some_iff.1 hv'
    exact h.grows (hv v hmem)
  refine (hend m1 h1).mono fun ctl m2 h2 => h2.mono (List.Subset.trans
    (knownAfter_subset (List.Subset.trans hX (List.subset_append_right _ _)) ctl) ?_)
  exact List.append_subset.2
    ⟨List.subset_append_left _ _, List.Subset.trans h.grows (List.subset_append_right _ _)⟩

/-- A chain that is neither a loop nor a try chain. -/
theorem branch {c : Chain Instr} (ht : c.kind ≠ .tryCatchFinally) (hl : c.kind.isLoop = false)
    (hs : Supplies cfg rounds X (setupOf c.subject) Y)
    (hr : Supplies cfg rounds Y (setupOf c.returning) Z) (hv : ∀ v ∈ c.returning, v.name ∈ Z)
    (htest : ∀ e ∈ c.cases, ∃ W, Supplies cfg rounds Z e.condition.evaluation W ∧
      e.condition.primitive ∈ W)
    (hbody : ∀ e ∈ c.cases, ∃ W, Supplies cfg rounds Z e.body.evaluation W ∧
      (∀ x ∈ e.body.result, x ∈ W) ∧ e.updates = [])
    (hfallback : ∀ b, c.fallback = some b → ∃ W, Supplies cfg rounds Z b.evaluation W ∧
      ∀ x ∈ b.result, x ∈ W) :
    Supplies cfg rounds X [chained location c] (c.result.toList ++ Z) := by
  have hXZ : X ⊆ Z := List.Subset.trans hs.grows hr.grows
  refine .single (List.Subset.trans hXZ (List.subset_append_right _ _)) fun m hm => ?_
  change Leads _ (runChain exitScope rounds _ (c.map _)) _ _
  refine leads_branch (P := Knows Y) (J := Knows Z) ht hl
    (hs.setup.through (List.Subset.refl _) hm fun _ h => h)
    (fun m h => hr.setup.through hs.grows h fun _ h => h) ?_ ?_ ?_ ?_
  · intro e' he' m h
    obtain ⟨e, he, rfl⟩ := List.mem_map.1 he'
    obtain ⟨W, hW, hp⟩ := htest e he
    refine (hW.run true).through hXZ h fun m1 h1 => ?_
    exact (Secures.primitive (fun _ => hp) m1 h1).mono fun _ _ h2 => h2.mono hW.grows
  · intro e' he' m h
    obtain ⟨e, he, rfl⟩ := List.mem_map.1 he'
    obtain ⟨W, hW, hx, hu⟩ := hbody e he
    have hnil : (e.map (Instr.stepped cfg rounds true)).updates = [] := by
      change e.updates.map _ = []
      rw [hu, List.map_nil]
    rw [hnil]
    exact leads_andThen_nil (hW.finish hXZ hv hx h)
  · intro b' hb' m h
    obtain ⟨b, hb, rfl⟩ := Option.map_eq_some_iff.1 hb'
    obtain ⟨W, hW, hx⟩ := hfallback b hb
    exact hW.finish hXZ hv hx h
  · -- without a default, the chain ends as after an empty one
    exact fun _ m h => finish (b := { evaluation := [], result := none }) .nil hXZ hv nofun h

/-- A loop over one case. -/
theorem loop {e : Case Instr} (hl : c.kind.isLoop = true) (hs : c.subject = none)
    (hr : c.returning = none) (hc : c.cases = [e])
    (htest : Supplies cfg rounds X e.condition.evaluation W) (hp : e.condition.primitive ∈ W)
    (hbody : Supplies cfg rounds X e.body.evaluation Y)
    (hupdates : Supplies cfg rounds X e.updates Z) :
    Supplies cfg rounds X [chained location c] X := by
  refine .single (List.Subset.refl _) fun m h => ?_
  change Leads _ (runChain exitScope rounds _ (c.map (Instr.stepped cfg rounds true))) m _
  rw [runChain_loop (e := e.map (Instr.stepped cfg rounds true)) hl (by simp [Chain.map, hs])
    (by simp [Chain.map, hr]) (by simp [Chain.map, hc])]
  refine leads_loop (J := Knows X) (K := Knows X) ?_ ?_ (by split <;> exact h)
  · intro m h
    refine (htest.run true).through (List.Subset.refl _) h fun m1 h1 => ?_
    refine (Secures.primitive (fun _ => hp) m1 h1).mono fun holds m2 h2 => ?_
    split <;> exact h2.mono htest.grows
  · intro m h
    rw [leads_andThen]
    refine (hbody.run true m h).through (fun m1 h1 => ?_) fun c m1 hc h1 => .left hc ?_
    · exact (hupdates.run true).through (List.Subset.refl _) (h1.mono hbody.grows)
        fun _ h2 => h2.mono hupdates.grows
    · rw [knownAfter_of_ne hc] at h1 ⊢
      exact h1

/-- A try chain, whose handlers know the exception too. -/
theorem tryCatch {c : Chain Instr} {b : TryBlock Instr} (ht : c.kind = .tryCatchFinally)
    (hb : c.tryBlock = some b) (hblock : Supplies cfg rounds X b.evaluation Y)
    (hcatch : ∀ e ∈ c.cases, ∃ W, X ⊆ W ∧ Secures cfg (b.exception :: X)
      (runAll (e.body.evaluation.map (Instr.stepped cfg rounds true))) (knownAfter X W))
    (hlast : ∀ last, c.finallyBlock = some last → ∃ W, Supplies cfg rounds X last.evaluation W) :
    Supplies cfg rounds X [chained location c] X := by
  have hleft : ∀ {W} {ctl : Control} {m : Machine σ}, X ⊆ W → Knows (knownAfter X W ctl) m →
      Knows X m := by
    intro W ctl m hW h
    cases ctl with
    | next => exact h.mono hW
    | _ => exact h
  have hpost : ∀ {ctl : Control} {m : Machine σ}, Knows X m → Knows (knownAfter X X ctl) m :=
    fun h => h.mono (knownAfter_subset (List.Subset.refl _) _)
  refine .single (List.Subset.refl _) fun m h => ?_
  change Leads _ (runChain exitScope rounds _ (c.map (Instr.stepped cfg rounds true))) m _
  rw [runChain_try (b := b.map (Instr.stepped cfg rounds true)) ht (by simp [Chain.map, hb])]
  refine leads_runTry (R := fun _ => Knows X) ?_ ?_ ?_
  · refine (hblock.run true m h).mono fun ctl m1 h1 => ?_
    cases ctl with
    | throw e =>
      refine leads_handle (c := c) ((Secures.unwind _ m1 h1).mono fun _ m2 h2 => ?_)
      cases hty : m2.typeOf e with
      | error f => exact Fault.Spares.of_isHeap (typeOf_error hty)
      | ok type =>
        refine ⟨h2, fun case hcase => ?_⟩
        obtain ⟨W, hXW, hW⟩ := hcatch case hcase
        refine Leads.mono (hW _ (h2.insert b.exception e)) fun ctl m3 h3 => ?_
        cases ctl with
        | throw e' => exact Secures.unwind _ m3 h3
        | _ => exact hleft hXW h3
    | _ => exact hleft hblock.grows h1
  · exact fun _ ctl m1 h1 => hpost h1
  · intro last' hlast' ctl m1 h1
    obtain ⟨last, hl, rfl⟩ := Option.map_eq_some_iff.1 hlast'
    obtain ⟨W, hW⟩ := hlast last hl
    exact (hW.run true).through (List.Subset.refl _) h1 fun _ h2 => hpost (h2.mono hW.grows)

/-- A catch clause, which takes over the exception. Its block knows the variable, and the exception no
longer. -/
theorem catchClause {exception : String} (h : Supplies cfg rounds Y l Z) (hx : Ordinary x)
    (hY : Y ⊆ x :: X) (hXY : X ⊆ Y) :
    X ⊆ Z ∧ Secures cfg (exception :: X)
      (runAll ((Layout.scoping k d (catching k x type exception ++ l)).map
        (Instr.stepped cfg rounds true))) (knownAfter X Z) := by
  have hcatching : Supplies cfg rounds (exception :: X)
      ([entering k] ++ catching k x type exception) (x :: exception :: X) :=
    .append .enter (.append (l := [_]) .reference (.append (l := [_])
      (.store (List.mem_cons_of_mem _ List.mem_cons_self) (.inl hx)) (.register List.mem_cons_self)))
  have hblock : Supplies cfg rounds Y (l ++ if d then [] else [exiting k]) Z := h.append .exitUnless
  rw [Layout.scoping, ← List.append_assoc, List.append_assoc]
  refine ⟨List.Subset.trans hXY h.grows, hcatching.run_append hblock (List.Subset.trans hY ?_)
    (List.subset_cons_self _ _) hXY true⟩
  exact List.cons_subset_cons _ (List.subset_cons_self _ _)

/-- A conjunction or disjunction. -/
theorem logical {b : LogicalBlock Instr} {W : List String}
    (hl : Supplies cfg rounds X b.leftEvaluation Y) (hleft : b.left ∈ Y) (hp : b.condition ∈ Y)
    (hr : Supplies cfg rounds Y b.rightEvaluation Z) (hc : Supplies cfg rounds Z b.computation W)
    (hresult : b.result ∈ W) : Supplies cfg rounds X [logicalBlock location t b] (t :: X) := by
  refine .single (List.subset_cons_self _ _) fun m hm => ?_
  change Leads _ (perform exitScope cfg rounds (logicalBlock location t b) (.logical (b.map _))) _ _
  rw [perform_logicalBlock]
  refine leads_runLogical ?_
  refine (hl.run true).through (List.Subset.refl _) hm fun m1 h1 => ?_
  refine (Secures.primitive (fun _ => hp) m1 h1).mono fun holds m2 h2 => ?_
  have hXZ : X ⊆ Z := List.Subset.trans hl.grows hr.grows
  split
  · exact h2.gives_lookup (fun _ => hleft) fun v => (h2.mono hl.grows).insert t v
  · refine (hr.run true).through hl.grows h2 fun m3 h3 => ?_
    refine (hc.run true).through hXZ h3 fun m4 h4 => ?_
    exact h4.gives_lookup (fun _ => hresult) fun v =>
      (h4.mono (List.Subset.trans hXZ hc.grows)).insert t v

end Supplies

/-! ### The names of the layout -/

/-- The names that a run knows at a point of the code. -/
def Context.known (Γ : Context) : List String := Γ.names ++ Γ.truths

theorem Context.mem_known : x ∈ Γ.known ↔ x ∈ Γ.owned ∨ x ∈ Γ.aliases ∨ x ∈ Γ.params ∨ x ∈ Γ.truths := by
  simp [known, names]

theorem Context.names_subset_known : Γ.names ⊆ Γ.known := List.subset_append_left _ _

theorem Context.truths_subset_known : Γ.truths ⊆ Γ.known := List.subset_append_right _ _

theorem Context.known_subset_own : Γ.known ⊆ (Γ.own k x).known := fun _ hy =>
  Context.mem_known.2 ((Context.mem_known.1 hy).imp_left fun hy => Context.owned_own_subset hy)

theorem Context.known_own_subset : (Γ.own k x).known ⊆ x :: Γ.known := by
  intro y hy
  rcases Context.mem_known.1 hy with hy | hy
  · rcases Context.mem_of_mem_owned_own hy with rfl | hy
    · exact List.mem_cons_self
    · exact List.mem_cons_of_mem _ (Context.mem_known.2 (.inl hy))
  · exact List.mem_cons_of_mem _ (Context.mem_known.2 (.inr hy))

namespace Supplies

theorem own (h : Supplies cfg rounds Γ.known l (x :: Γ.known)) :
    Supplies cfg rounds Γ.known l (Γ.own k x).known :=
  h.of_subset Context.known_subset_own Context.known_own_subset

theorem share (h : Supplies cfg rounds Γ.known l (t :: Γ.known)) :
    Supplies cfg rounds Γ.known l (Γ.share t).known := by
  have hmem : ∀ y, y ∈ (Γ.share t).known ↔ y ∈ t :: Γ.known := by
    intro y
    simp only [List.mem_cons, Context.mem_known, Context.share, Context.owned]
    tauto
  exact h.of_subset (fun y hy => (hmem y).2 (List.mem_cons_of_mem _ hy)) fun y hy => (hmem y).1 hy

theorem truth (h : Supplies cfg rounds Γ.known l (t :: Γ.known)) :
    Supplies cfg rounds Γ.known l (Γ.truth t).known := by
  have hmem : ∀ y, y ∈ (Γ.truth t).known ↔ y ∈ t :: Γ.known := by
    intro y
    simp only [List.mem_cons, Context.mem_known, Context.truth, Context.owned]
    tauto
  exact h.of_subset (fun y hy => (hmem y).2 (List.mem_cons_of_mem _ hy)) fun y hy => (hmem y).1 hy

end Supplies

variable {π : Policy} {m : Machine σ}

theorem Calc.supplies {B : List String} (hanswers : cfg.Answers) (hplain : π.plain)
    (h : Calc π B k Γ l Γ1) (hB : B ⊆ Γ.names) : Supplies cfg rounds Γ.known l Γ1.known := by
  have hnames : ∀ {Γ : Context} {x}, x ∈ Γ.names → x ∈ Γ.known :=
    fun hx => Context.names_subset_known hx
  induction h with
  | nil => exact .nil
  | append h _ ih ih' => exact (ih hB).append (ih' (List.Subset.trans hB h.names_subset))
  | create _ _ ho => exact .own ((Supplies.create ho).append (.registering List.mem_cons_self))
  | load _ hx => exact .share (.load fun ht => hnames (hB (hx.2 hplain ht)))
  | loadField => exact .share (.load fun ht => absurd (by simp) ht.dot_notMem)
  | call _ _ ho hr ht ha =>
    exact .own (Supplies.append
      (.call hanswers ho (fun _ => hr) (ht.imp_right hnames) fun a h => hnames (ha a h))
      (.registering List.mem_cons_self))
  | perform ho _ ht ha =>
    exact .call hanswers ho nofun (ht.imp_right hnames) fun a h => hnames (ha a h)
  | test _ hr ht ha =>
    refine .truth ?_
    apply Supplies.call hanswers rfl (fun _ => hr) (.inr (hnames ht))
    rw [ha]
    exact nofun
  | isSet _ _ hx _ hf _ hv ihNull ihSet =>
    refine .share (.branch (c := question _ _ _ _ _ _ _ _) (by simp [question]) rfl .nil .nil nofun
      ?_ ?_ ?_)
    · intro e he
      obtain rfl := List.mem_singleton.1 he
      exact ⟨_, .isNull (hnames hx), List.mem_cons_self⟩
    · intro e he
      obtain rfl := List.mem_singleton.1 he
      refine ⟨_, ihNull hB, ?_, rfl⟩
      rintro x ⟨⟩
      exact hnames hf
    · rintro b ⟨⟩
      refine ⟨_, ihSet hB, ?_⟩
      rintro x ⟨⟩
      exact hnames hv
  | logical _ hl hleft hp hr _ hresult ihl ihr ihc =>
    have hB1 := List.Subset.trans hB hl.names_subset
    exact .share (.logical (ihl hB) (hnames hleft) (Context.truths_subset_known hp) (ihr hB1)
      (ihc (List.Subset.trans hB1 hr.names_subset)) (hnames hresult))

theorem Test.supplies {p : String} (hanswers : cfg.Answers) (hplain : π.plain) (h : Test π Γ l p) :
    ∃ W, Supplies cfg rounds Γ.known l W ∧ p ∈ W := by
  cases h with
  | @intro k _ _ _ _ _ hB h hp =>
    have hcalc : Supplies cfg rounds (Γ.push k).known _ _ := h.supplies hanswers hplain hB
    exact ⟨_, hcalc.scoping, Context.truths_subset_known hp⟩

/-- At every point of lowered code the names of the layout are known. -/
theorem Emits.supplies {d : Bool} (hanswers : cfg.Answers) (hplain : π.plain) (hh : ¬ π.held)
    (h : Emits π Γ d l Γ1) : Supplies cfg rounds Γ.known l Γ1.known := by
  have hnames : ∀ {Γ : Context} {x}, x ∈ Γ.names → x ∈ Γ.known :=
    fun hx => Context.names_subset_known hx
  have hsettle : ∀ Γ : Context, Γ.settle π = Γ := fun Γ => if_neg hh
  induction h with
  | nil => exact .nil
  | append _ _ ih ih' => exact ih.append ih'
  | forget h => exact absurd h hh
  | compute hB h => exact h.supplies hanswers hplain hB
  | declare => exact Supplies.declaring.own
  | bind hx _ hB h hv =>
    exact .append (.append Supplies.declaring.own
      (h.supplies hanswers hplain (List.Subset.trans hB Context.names_own_subset)))
      (.initialising (hnames hv.mem_names) (.inl (hx.2 hplain)))
  | assign hx _ hB h hv =>
    rw [hsettle]
    exact (h.supplies hanswers hplain hB).append
      (.assigning (hnames hv.mem_names) (.inl (hx.2 hplain)))
  | assignField _ _ ho hB h hv =>
    exact (h.supplies hanswers hplain hB).append
      (.assigning (hnames hv.mem_names) (.inr ⟨_, _, ho hplain, rfl⟩))
  | initField _ _ ho hB h hv =>
    exact (h.supplies hanswers hplain hB).append
      (.initialising (hnames hv.mem_names) (.inr ⟨_, _, ho, rfl⟩))
  | assert hB h hp =>
    exact (h.supplies hanswers hplain hB).append (.assert (Context.truths_subset_known hp))
  | ret _ hB h hv =>
    have hv := hnames hv.mem_names
    exact (h.supplies hanswers hplain hB).append
      (.append (.append (.retain fun _ => hv) .leaving) (Supplies.depart hv).1)
  | retNone => exact Supplies.leaving.append (.keep fun _ h => h)
  | throw _ hB h hv =>
    have hv := hnames hv.mem_names
    exact (h.supplies hanswers hplain hB).append
      (.append (.append (.retain fun _ => hv) .leaving) (Supplies.depart hv).2)
  | @scope Γ Γ1 _ _ _ _ h ih =>
    rw [hsettle]
    have hgrows : Γ.known ⊆ Γ1.known := ih.grows
    refine ih.scoping.of_subset ?_ ?_ <;> intro y hy
    · refine Context.mem_known.2 ((Context.mem_known.1 hy).imp_left fun hy => ?_)
      exact h.grows.tail.flatMap_names_subset hy
    · rcases Context.mem_known.1 hy with hy | hy
      · obtain ⟨f, hf, hy⟩ := List.mem_flatMap.1 hy
        exact Context.mem_known.2 (.inl (List.mem_flatMap.2 ⟨f, List.mem_of_mem_tail hf, hy⟩))
      · exact hgrows (Context.mem_known.2 (.inr hy))
  | branch ht hl hp _ _ hv htest _ hout _ hend ihs ihr ihb ihf =>
    rw [hsettle]
    convert Supplies.branch ht hl ihs ihr
      (fun v hmem => hnames (Context.owned_subset_names (hv v hmem)))
      (fun e he => (htest e he).supplies hanswers hplain)
      (fun e he => ⟨_, ihb e he, by rw [(hout e he).2.1]; exact nofun, (hout e he).2.2⟩)
      (fun b hb => ⟨_, ihf b hb, by rw [(hend b hb).2]; exact nofun⟩) using 1
    rw [hp.result]
    rfl
  | loop hl _ hs hr hc _ _ htest _ _ _ _ ihb ihu =>
    obtain ⟨W, hW, hp⟩ := htest.supplies hanswers hplain
    exact .loop hl hs hr hc hW hp ihb ihu
  | @tryCatch Γ _ _ c _ _ _ _ scopeOf var _ _ _ ht _ _ _ _ htry _ _ _ _ _ hbody hvar _ _ _ _ ihb ihc
      ihl =>
    refine .tryCatch ht htry ihb (fun e he => ?_) fun last hlast => ⟨_, ihl last hlast⟩
    have hsub := Context.known_own_subset (Γ := (Γ.protect c.finallyBlock.isSome).push (scopeOf e))
      (k := scopeOf e) (x := var e)
    have hsup := Context.known_subset_own (Γ := (Γ.protect c.finallyBlock.isSome).push (scopeOf e))
      (k := scopeOf e) (x := var e)
    rw [hbody e he]
    exact ⟨_, (ihc e he).catchClause ((hvar e he).2.2 hplain) hsub hsup⟩

/-! ### Operations -/

/-- The layout of code whose variables have ordinary names. -/
def Policy.ordinary : Policy := ⟨False, False, True⟩

/-- The only block of an operation runs, and as often as control comes back to it. -/
theorem Supplies.leads_runBlocks {entry : String} (h : Supplies cfg rounds X l Y) (n : Nat)
    (hm : Knows X m) : Leads (Fault.Spares cfg)
      (runBlocks (Instr.exec cfg rounds) (singleBlock entry l) n 0) m fun _ m' => Knows X m' := by
  induction n generalizing m with
  | zero => trivial
  | succ n ih =>
    have hblock : Leads (Fault.Spares cfg) (runBlock (Instr.exec cfg rounds) (singleBlock entry l) 0
        { label := entry, instrs := l }) m fun r m' => Knows X m' ∧ ∀ b, r = .inl b → b = 0 := by
      unfold runBlock
      rw [leads_bind]
      refine (h.run false m hm).mono fun c m' hc => ?_
      cases c with
      | next => exact ⟨hc.mono h.grows, nofun⟩
      | jump label =>
        change Leads _ (blockAt (singleBlock entry l) label >>= fun b => pure (Sum.inl b)) m' _
        rw [leads_bind, blockAt]
        cases hb : (singleBlock entry l).find? label with
        | none => exact nofun
        | some b =>
          refine ⟨hc, fun b' hb' => ?_⟩
          cases hb'
          exact find?_singleBlock hb
      | throw e =>
        change Leads _ (get >>= fun _ => _) m' _
        rw [leads_bind, leads_get, hc.handlers]
        exact ⟨hc, nofun⟩
      | ret v => exact ⟨hc, nofun⟩
    rw [runBlocks]
    change Leads _ (runBlock (Instr.exec cfg rounds) (singleBlock entry l) 0
      { label := entry, instrs := l } >>= fun r => _) m _
    rw [leads_bind]
    refine hblock.mono fun r m' hr => ?_
    cases r with
    | inl b =>
      obtain rfl := hr.2 b rfl
      exact ih ⟨hr.1.names, hr.1.registered, hr.1.handlers⟩
    | inr c => exact hr.1

/-- No run of a laid out operation reads a temporary that is not bound. -/
theorem OperationLaid.leads_supplied {op : Operation} (hop : OperationLaid .ordinary op)
    (hparams : ∀ x ∈ paramNames op.params, Ordinary x) (hanswers : cfg.Answers) (rounds : Nat)
    (hs : m.scopes = []) (hh : m.handlers = []) :
    Leads (Fault.Spares cfg) (runOperation cfg rounds op) m fun _ _ => True := by
  obtain ⟨entry, k, d, l, Γ, hbody, hcode, -⟩ := hop
  have hsupplies : Supplies cfg rounds (Context.outermost (paramNames op.params) k).known
      (operationCode k d l) Γ.known := by
    refine .append (hcode.supplies hanswers trivial id).scoping ?_
    cases d with
    | true => exact .nil
    | false => exact .keep fun _ h => h
  have hstart : Knows (Context.outermost (paramNames op.params) k).known m := by
    refine ⟨fun x hx ht => ?_, fun s h => (by rw [hs] at h; cases h), hh⟩
    have hx : x ∈ paramNames op.params := by
      simpa [Context.mem_known, Context.outermost, Context.push, Context.owned] using hx
    exact absurd ht (hparams x hx).1
  rw [runOperation, runSteps_eq, leads_bind, hbody]
  refine (hsupplies.leads_runBlocks rounds hstart).mono fun c m1 h1 => ?_
  have hresult : ∀ m : Machine σ, Leads (Fault.Spares cfg) (get >>= fun m =>
      ofExcept (m.result cfg.memory c)) m fun _ _ => True := by
    intro m
    rw [leads_bind, leads_get, leads_ofExcept]
    cases hr : m.result cfg.memory c with
    | ok r => trivial
    | error f => exact Fault.Spares.of_isHeap (result_error hr)
  rw [leads_bind]
  cases c with
  | throw e => exact (Secures.unwind 0 m1 h1).mono fun _ m2 _ => hresult m2
  | _ => exact hresult m1

end Layout

/-- No run of an operation of a lowered module fails because a temporary is not bound, whatever its
arguments are and whether references are counted or not, unless the handler of calls itself fails so. -/
theorem unbound_ne_temp_of_lower (source : SourceModule) (types : TypeOracle) (debug : Bool)
    (u : CodeUnit) (h : source.lower types debug = .ok u) (hspelled : source.Spelled) (op : Operation)
    (hop : op ∈ u.operations) (cfg : Config σ) (hanswers : cfg.Answers) (args : List Value) (calls : σ)
    (t : String) (ht : IsTemp t) (hrun : (op.run cfg args calls).1 = .error (.fault (.unbound t))) :
    cfg.handler.FailsWith (.unbound t) := by
  obtain ⟨hparams, hlaid⟩ := Layout.operationLaid_of_spelled (π := .ordinary) id id (fun _ => hspelled)
    h op hop
  obtain ⟨hscopes, hhandlers⟩ := Machine.start_nothingOpen op args calls
  have hleads := hlaid.leads_supplied (hparams trivial) hanswers (op.enoughRounds cfg.maxSteps)
    hscopes hhandlers
  exact hleads.answer.1 _ hrun t rfl ht

theorem unbound_ne_temp_callInScope :
    ∃ u op, callInScope.lower (fun _ _ => false) false = .ok u ∧ op ∈ u.operations ∧
      ∀ memory t, IsTemp t →
        (op.run { thrower with memory := memory } [] ()).1 ≠ .error (.fault (.unbound t)) := by
  have hspelled : callInScope.Spelled := by
    have hkept : Ordinary "kept" := ⟨not_isTemp_of_head (by decide), by decide⟩
    constructor <;> simp [callInScope, SourceModule.functions, ConstructDef.functions,
      ConstructDef.initials, paramNames, Stmt.BlockAll, Stmt.All, Stmt.Spelled, Stmt.mentions, Expr.ofString,
      Expr.ofCall, Expr.reads, Expr.readsAll, Expr.readsTarget, hkept]
  have hone : ((callInScope.lower (fun _ _ => false) false).toOption.bind
      (·.operations.head?)).isSome = true := by decide +kernel
  obtain ⟨op, hop⟩ := Option.isSome_iff_exists.1 hone
  obtain ⟨u, hu, hop⟩ := Option.bind_eq_some_iff.1 hop
  have hu := toOption_eq_some hu
  have hop : op ∈ u.operations := List.mem_of_mem_head? hop
  refine ⟨u, op, hu, hop, fun memory t ht hrun => ?_⟩
  obtain ⟨_, _, _, _, hfails⟩ := unbound_ne_temp_of_lower callInScope (fun _ _ => false) false u hu
    hspelled op hop { thrower with memory := memory }
    (by rintro _ _ _ _ _ _ ⟨⟩ _ ⟨⟩) [] () t ht hrun
  cases hfails

end ScopedIR
