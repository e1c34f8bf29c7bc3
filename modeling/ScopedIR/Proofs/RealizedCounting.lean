import ScopedIR.Proofs.RealizedLoops
import ScopedIR.Proofs.SucceedingControl

/-!
# The code of counting loops realizes them

The ends and the step of a counting loop are evaluated once, and stay in temporaries. Every test, every
step and the comparison of the ends read them from there, so they find what evaluation counts with.

Main statement: `genForRange_realizes`.
-/

namespace ScopedIR.Lowering

open Exec Instr Layout Gen

variable {σ : Type} {E : Evaluator σ} {setting : Setting} {s : State} {V : Visible} {n n' : Nat}
  {location : Option Location} {G : Vars → Prop} {A : Evaluation σ Binding} {c arg : Code}
  {symbol : Symbol} {r : Range} {d : Direction} {a b k : Binding} {name : String} {body : List Stmt}

/-! ### What a loop counts with -/

namespace Range

/-- What a loop counts with when the names of a range are bound to these values. -/
def counting (r : Range) (first last step : Binding) : Counting :=
  ⟨r.name, r.type, first, last, r.step.map fun _ => step⟩

/-- The names of a range are bound to values. -/
structure Holds (r : Range) (first last step : Binding) (vars : Vars) : Prop where
  first : Bound r.first first vars
  last : Bound r.last last vars
  step : ∀ t ∈ r.step, Bound t step vars

/-- The names of a range are temporaries that were issued before. -/
structure Issued (r : Range) (n : Nat) : Prop where
  first : TempUpTo n r.first
  last : TempUpTo n r.last
  step : ∀ t ∈ r.step, TempUpTo n t

theorem Issued.mono (h : r.Issued n) (hn : n ≤ n') : r.Issued n' :=
  ⟨h.first.mono hn, h.last.mono hn, fun t ht => (h.step t ht).mono hn⟩

theorem Issued.lasting (h : r.Issued n) : Lasting n (r.Holds a b k) := fun _ _ hr hk =>
  ⟨(hk.temps _ h.first).trans hr.first, (hk.temps _ h.last).trans hr.last,
    fun t ht => (hk.temps _ (h.step t ht)).trans (hr.step t ht)⟩

end Range

/-! ### Tests and steps -/

/-- A call with one argument that is known. -/
theorem ask_at (c arg : Code) (symbol : Symbol) (hE : E.Agrees setting) (hc : symbol.isConstructor = false)
    (hd : symbol.dispatch = .method) (hG : Lasting s.temps G) (ht : ValueAt E setting s c.value A G)
    (ha : ∀ s', s.temps ≤ s'.temps → ValueAt E setting s' arg.value (pure b) G) :
    ValueAt E setting s (Code.ofCall c symbol [arg]).value (A >>= fun x => E.ask x symbol [b]) G := by
  have h := ofCall_at c symbol [arg] hE hc hd hG ht fun s' h => single_at (ha s' h)
  simp only [map_pure, pure_bind] at h
  exact h

/-- An assertion lets the run go on if its condition holds. -/
theorem genAssert_at (location : Option Location) (hE : E.Agrees setting)
    (h : ValueAt E setting s c.value A G) :
    (genAssert location c).Ensures setting s fun _ s' l => Later s s' ∧
      Realizes E s.temps l
        (A >>= fun b => E.truth c.type b >>= fun p =>
          if p then pure () else Evaluation.fail (.assertionFailed "")) G fun _ _ => True := by
  refine h.bind ?_
  rintro t s1 l1 ⟨hlater1, ht, hdoes1⟩
  refine (genPrimitive_realizes hE).bind ?_
  rintro p s2 l2 ⟨hlater2, hp, hdoes2⟩
  refine .lastAt assert_eq_ok ⟨hlater1.trans hlater2, hdoes1.andThen (fun b => ?_) hlater1.temps⟩
  refine (hdoes2 b).andThen (fun holds => ?_) hlater2.temps
  cases holds with
  | false => exact .fail
  | true =>
    intro M m ht hp r M' hr
    obtain ⟨rfl, rfl⟩ := Evaluation.pure_eq_ok hr
    exact ⟨.next, ticked m, Completes.assert (lookup_eq_ok hp), ht.tick, .refl _ _, rfl, trivial⟩

variable (hE : E.Agrees setting) (hr : r.Issued s.temps) (hd : d.Plain)

namespace Range

include hE hr

theorem inRange_at (hd : d.bound ≠ Symbol.initName) :
    TestAt E setting s (genCondition (r.inRange d)) (E.inRange (r.counting a b k) d)
      (r.Holds a b k) := by
  have hask : ValueAt E setting s.inside (r.inRange d).value
      (Evaluation.lookup r.name >>= fun x =>
        E.ask x (r.method d.bound TypeName.boolean [r.type]) [b]) (r.Holds a b k) :=
    ask_at _ _ _ hE (decide_eq_false hd) rfl hr.lasting (lookup_at r.name r.type)
      fun _ _ => copy_at r.last r.type fun _ h => h.last
  have h := genCondition_realizes hE hask
  rw [bind_assoc] at h
  exact h

theorem advance_at (hd : d.unitStep ≠ Symbol.initName) :
    ValueAt E setting s (r.advance d).value (E.advance (r.counting a b k) d) (r.Holds a b k) := by
  obtain ⟨name, type, first, last, step⟩ := r
  cases step with
  | some t =>
    exact ask_at _ _ _ hE rfl rfl hr.lasting (lookup_at name type)
      fun _ _ => copy_at t type fun _ h => h.step t rfl
  | none =>
    have hask := ofCall_at (.ofVar name type) (Range.method ⟨name, type, first, last, none⟩
      d.unitStep type []) [] hE (decide_eq_false hd) rfl (hr.lasting (a := a) (b := b) (k := k))
      (lookup_at name type) fun _ _ => nothing_at
    simp only [pure_bind] at hask
    exact hask

theorem genCheckStep_at (a b k : Binding) (hd : d.progress ≠ Symbol.initName) :
    (r.genCheckStep d).Ensures setting s fun _ s' l => Later s s' ∧
      Realizes E s.temps l (E.checkStep (r.counting a b k) d) (r.Holds a b k) fun _ _ => True := by
  obtain ⟨name, type, first, last, step⟩ := r
  cases step with
  | none => exact .pure ⟨.refl s, .pure fun _ _ => trivial⟩
  | some t =>
    have hlasting := hr.lasting (a := a) (b := b) (k := k)
    have hfirst : ∀ s, ValueAt E setting s (Code.ofVar first type).value (pure a)
        (Range.Holds ⟨name, type, first, last, some t⟩ a b k) := fun _ =>
      copy_at first type fun _ h => h.first
    have hstepped := ask_at _ _ (Range.method ⟨name, type, first, last, some t⟩ "_add" type [type]) hE
      rfl rfl hlasting (hfirst s) fun _ _ => copy_at t type fun _ h => h.step t rfl
    have hpassed := ask_at _ _ (Range.method ⟨name, type, first, last, some t⟩ d.progress
      TypeName.boolean [type]) hE (decide_eq_false hd) rfl hlasting hstepped fun s' _ => hfirst s'
    have hasserted := genAssert_at none hE hpassed
    simp only [pure_bind, bind_assoc] at hasserted
    exact hasserted

end Range

/-- The code of a block that departs leaves what would come next to nobody. -/
theorem lowerBlock_departs (body : List Stmt) (V : Visible) (s : State) :
    (Stmt.lowerBlock body).Ensures setting s fun departs _ _ => departs = true →
      ∀ B, (E.block V body >>= fun k => match k with
        | .next => B
        | left => pure left) = E.block V body := by
  induction body generalizing V s with
  | nil =>
    unfold Stmt.lowerBlock
    exact .pure (by simp)
  | cons stmt rest ih =>
    unfold Stmt.lowerBlock
    have hany : (Stmt.lower stmt).Ensures setting s fun _ _ _ => True := fun _ _ => trivial
    refine hany.bind fun _ s1 l1 _ => ?_
    cases hd : stmt.departs with
    | true =>
      refine .pure fun _ B => ?_
      rw [E.block_of_departs rest hd]
      cases stmt with
      | ret token value => cases value <;> simp [Evaluator.stmt]
      | throw token value => simp [Evaluator.stmt]
      | _ => cases hd
    | false =>
      rw [if_neg (by simp)]
      refine (ih (V.behind stmt) s1).mono fun departs s2 l2 h hdeparts B => ?_
      rw [Evaluator.block, bind_assoc]
      congr 1
      funext k
      cases k with
      | next => exact h hdeparts B
      | _ => simp

/-- One round: the block, and the next value if the block goes on. -/
theorem genRound_at {A : Evaluation σ Binding} (hb : Realized E setting V body) (hs : Typed V s)
    (hG : Lasting s.temps G) (hnext : ∀ s', s.temps ≤ s'.temps → ValueAt E setting s' c.value A G) :
    BlockAt E setting s (do
        if ← Stmt.lowerBlock body then return true
        else
          genAssign none name c
          return false)
      (E.block V body >>= fun k => match k with
        | .next => (A >>= Evaluation.assign name) >>= fun _ => pure .next
        | left => pure left) G := by
  refine (Ensures.and (hb s hs) (lowerBlock_departs (E := E) body V s)).bind ?_
  rintro departs s1 l1 ⟨⟨hkept1, htemps1, hdoes1⟩, hdeparts⟩
  cases departs with
  | true =>
    rw [if_pos rfl, ensures_pure, List.append_nil, hdeparts rfl]
    exact ⟨hkept1, htemps1, hdoes1.given⟩
  | false =>
    rw [if_neg (by simp)]
    refine (genAssign_realizes (hnext s1 htemps1)).bind ?_
    rintro _ s2 l2 ⟨hlater2, hdoes2⟩
    rw [ensures_pure, List.append_nil]
    exact ⟨hkept1.trans hlater2.same.kept, Nat.le_trans htemps1 hlater2.temps,
      hdoes1.given.andThen (hdoes2.performs.of_le htemps1) hG⟩

include hE hr hd in
/-- Counting in one direction. -/
theorem genDirection_at
    (hb : Realized E setting V body) (hs : Typed V s) :
    BlockAt E setting s (r.genDirection d (Stmt.lowerBlock body))
      (E.count (r.counting a b k) d (E.block V body)) (r.Holds a b k) := by
  refine (r.genCheckStep_at hE hr a b k hd.progress).bind ?_
  rintro _ s1 l1 ⟨hlater1, hdoes1⟩
  have hr1 := hr.mono hlater1.temps
  have hlasting : Lasting s1.temps (r.Holds a b k) := hr1.lasting
  refine (genLoop_realizes (fun s' h => Range.inRange_at hE (hr1.mono h) hd.bound)
    (fun s' h hs' => genRound_at hb hs' (hr1.mono h).lasting fun s'' h' =>
      Range.advance_at hE ((hr1.mono h).mono h') hd.unitStep) hlasting
    (hs.same hlater1.same)).bind ?_
  rintro _ s2 l2 ⟨hsame2, htemps2, hrepeats⟩
  rw [ensures_pure, List.append_nil]
  refine ⟨hlater1.same.kept.trans hsame2.kept, Nat.le_trans hlater1.temps htemps2, ?_⟩
  have hrounds := hrepeats.while E.rounds
  simp only [bind_assoc] at hrounds
  exact hdoes1.perform (fun _ => hrounds) hlater1.temps fun _ vars vars' hg hk _ => hr.lasting _ _ hg hk

/-! ### The whole loop -/

/-- Whether a loop goes one way. -/
theorem goes_at {direction : String} (hE : E.Agrees setting) (hd : d.sign ≠ Symbol.initName)
    (hG : Lasting s.temps G) (hx : ∀ vars, G vars → Bound direction b vars) :
    TestAt E setting s (genCondition (directionIs direction d.sign)) (E.goes b d) G := by
  have hzero : ∀ s, ValueAt E setting s (Code.ofLiteral (Text.ofInt64 0) TypeName.integer).value
      (Evaluation.literal (Text.ofInt64 0) TypeName.integer) G := fun s =>
    ((genLiteral_realizes s).value rfl).mono fun _ _ => trivial
  have hask := ofCall_at (s := s.inside) _ (((Symbol.method
    TypeName.integer d.sign TypeName.boolean).asPure).withParams [TypeName.integer]) _ hE
    (decide_eq_false hd) rfl hG (copy_at direction TypeName.integer hx) fun s' _ => single_at (hzero s')
  simp only [pure_bind, bind_map_left] at hask
  have h := genCondition_realizes hE hask
  rw [bind_assoc] at h
  exact h

/-- The branches of a counting loop. -/
abbrev Range.directions (r : Range) (direction : String) (block : BlockCode) : List (Code × BlockCode) :=
  [(directionIs direction Direction.up.sign, r.genDirection .up block),
   (directionIs direction Direction.down.sign, r.genDirection .down block)]

section

variable {direction : String} (hE : E.Agrees setting) (hr : r.Issued s.temps)
  (hx : TempUpTo s.temps direction)
  (hb : Realized E setting V body) (hs : Typed V s)

include hE hr hx hb hs

/-- The two directions are chosen between, and what is left is the case of equal ends. -/
theorem genBranches_directions_at (a b k x : Binding) :
    (genBranches (r.directions direction (Stmt.lowerBlock body))).Ensures setting s fun cases s' l =>
      Reserves s s' l ∧ ∀ fallback,
        (∀ M m, Tracks M m → Chooses E.handler s'.temps [] fallback (E.fallback V (some body)) M m
          Settles) →
        ∀ M m, Tracks M m → r.Holds a b k m.vars ∧ Bound direction x m.vars →
          Chooses E.handler s.temps cases fallback
            (E.countTowards (r.counting a b k) x (E.block V body)) M m Settles := by
  have hlasting : ∀ n, s.temps ≤ n →
      Lasting n fun vars => r.Holds a b k vars ∧ Bound direction x vars :=
    fun n hn vars vars' h hk => ⟨(hr.mono hn).lasting _ _ h.1 hk, (hk.temps _ (hx.mono hn)).trans h.2⟩
  have hdirection : ∀ (d : Direction) s', d.Plain → s.temps ≤ s'.temps → Typed V s' →
      BlockAt E setting s' (r.genDirection d (Stmt.lowerBlock body))
        (E.count (r.counting a b k) d (E.block V body))
        fun vars => r.Holds a b k vars ∧ Bound direction x vars := fun d s' hd h hs' =>
    Ensures.mono (genDirection_at hE (hr.mono h) hd hb hs') fun _ _ _ h =>
      ⟨h.1, h.2.1, fun M m ht hg => h.2.2 M m ht hg.1⟩
  have hle := Nat.le_refl s.temps
  refine (genBranch_realizes (goes_at (d := .up) hE (by decide) (hlasting _ hle) fun _ h => h.2)
    (fun s' h => hdirection .up s' Direction.plain_up h) (hlasting _ hle) hs).reserves
    fun up s1 hsame1 htemps1 hup => ensures_bind.2 ?_
  refine (genBranch_realizes (goes_at (d := .down) hE (by decide) (hlasting _ htemps1) fun _ h => h.2)
    (fun s' h => hdirection .down s' Direction.plain_down (Nat.le_trans htemps1 h))
    (hlasting _ htemps1) (hs.same hsame1)).reserves fun down s2 hsame2 htemps2 hdown => ?_
  refine ensures_bind.2 (.pure (.pure (.pure ⟨⟨rfl, hsame1.trans hsame2,
    Nat.le_trans htemps1 htemps2⟩, fun fallback hfallback => ?_⟩)))
  refine hup _ fallback _ (hdown [] fallback _ fun M m ht _ => ?_)
  have hrest := hfallback M m ht
  rw [Evaluator.fallback] at hrest
  exact hrest

theorem genIf_directions_at (a b k x : Binding) :
    (genIf location none (r.directions direction (Stmt.lowerBlock body))
      (some (Stmt.lowerBlock body))).Ensures setting s fun _ s' l => Same s s' ∧ s.temps ≤ s'.temps ∧
        Performs E s.temps l (E.countTowards (r.counting a b k) x (E.block V body))
          fun vars => r.Holds a b k vars ∧ Bound direction x vars := by
  refine ensures_bind.2 (.pure (.scopeId (.enterScope
    ((genBranches_directions_at (s := s.inside) hE hr hx hb hs.enter
      a b k x).reserves fun cases s1 hsame1 htemps1 hchooses1 => .check Chain.start_eq_ok ?_))))
  have hcloses : Closes setting none s s := fun s1 hs1 => .pure ⟨rfl, hs1, rfl⟩
  have hotherwise : ∀ b ∈ some body, Realized E setting V b := by
    simpa using hb
  refine (closeChain_realizes hotherwise (hs.enter.same hsame1) hsame1 hcloses).mono ?_
  rintro _ s2 l2 ⟨hsame2, htemps2, fallback, rfl, hchooses2⟩
  refine ⟨hsame2, Nat.le_trans htemps1 htemps2, placed_realizes fun M m ht hg => ?_⟩
  apply Does.chain_plain _ _ rfl rfl rfl ht
  · intro M1 m1 ht1 hk1
    exact hchooses1 fallback hchooses2 M1 m1 ht1
      ⟨hr.lasting _ _ hg.1 hk1, (hk1.temps _ hx).trans hg.2⟩
  · dsimp only
    split <;> simp
  · dsimp only
    split <;> rfl

end

/-- A counting loop behind its ends and its step. -/
theorem genCounts_at {scope : String} (a b k : Binding) (hE : E.Agrees setting) (hname : Ordinary r.name)
    (hr : r.Issued s.temps)
    (hb : Realized E setting (V.insert r.name r.type) body) (hs : Typed V s) :
    BlockAt E setting s (do
        Gen.emitAll (Ownership.declare location r.name r.type scope)
        Gen.emitAll (Ownership.initialise location r.name r.first)
        Gen.declare r.name r.type
        let direction ← (Code.ofCall (r.var r.first) (r.method "_cmp" TypeName.integer [r.type])
          [r.var r.last]).value
        genIf location none (r.directions direction (Stmt.lowerBlock body))
          (some (Stmt.lowerBlock body))
        return false)
      (E.counts (r.counting a b k) (E.block (V.insert r.name r.type) body)) (r.Holds a b k) := by
  refine .emitAll Ownership.declare_eq_ok (.emitAll Ownership.initialise_eq_ok (.declare
    fun s1 hs1 => ?_))
  have htemps1 := temps_declare hs1
  have hr1 : r.Issued s1.temps := htemps1 ▸ hr
  have hcompare : ValueAt E setting s1 _ _ (r.Holds a b k) := ask_at _ _ (r.method "_cmp"
    TypeName.integer [r.type]) hE rfl rfl hr1.lasting (copy_at r.first r.type fun _ h => h.first)
    fun _ _ => copy_at r.last r.type fun _ h => h.last
  rw [pure_bind] at hcompare
  refine hcompare.bind ?_
  rintro direction s2 l2 ⟨hlater2, hdirection, hdoes2⟩
  refine (Ensures.all fun x => genIf_directions_at hE (hr1.mono hlater2.temps) hdirection.upTo hb
    ((hs.declare hs1).same hlater2.same) a b k x).bind ?_
  intro _ s3 l3 hloop
  obtain ⟨hsame3, htemps3, -⟩ := hloop .null
  rw [ensures_pure, List.append_nil]
  refine ⟨(kept_declare hs1).trans (hlater2.same.kept.trans hsame3.kept), ?_, ?_⟩
  · exact htemps1 ▸ Nat.le_trans hlater2.temps htemps3
  have hcompared : Performs E s1.temps (l2 ++ l3) (E.ask a (r.method "_cmp" TypeName.integer [r.type])
      [b] >>= fun x => E.countTowards (r.counting a b k) x (E.block (V.insert r.name r.type) body))
      (r.Holds a b k) :=
    hdoes2.perform (fun x => (hloop x).2.2) hlater2.temps
      fun _ _ _ hg hk hx => ⟨hr1.lasting _ _ hg hk, hx⟩
  have hstored : Realizes E s.temps ([simple location .store [r.name, r.first] none] ++
      [simple location .retain [r.name] none]) (Evaluation.assign r.name a) (r.Holds a b k)
      fun _ _ => True :=
    ((store_realizes location).append_idle (List.forall_mem_singleton.2
      (isIdle_retain location r.name))).mono (fun _ h => h.first) fun _ _ _ => trivial
  apply (declare_realizes hname).perform _ (Nat.le_refl _) fun _ _ _ hg hk _ => hr.lasting _ _ hg hk
  exact fun _ => hstored.perform (fun _ => hcompared) (Nat.le_of_eq htemps1.symm)
    fun _ _ _ hg hk _ => hr.lasting _ _ hg hk

/-- The step of a counting loop, if there is one. -/
theorem genOptional_realizes (hE : E.Agrees setting) (step : Option Expr) :
    (genOptional (step.map Expr.lower)).Ensures setting s fun x s' l => Later s s' ∧
      (∀ t ∈ x, TempUpTo s'.temps t) ∧ Realizes E s.temps l (E.valueOf? step) (fun _ => True)
        fun v vars => ∃ k, v = x.map (fun _ => k) ∧ ∀ t ∈ x, Bound t k vars := by
  cases step with
  | none => exact .pure ⟨.refl s, by simp, .pure fun _ _ => ⟨.null, rfl, by simp⟩⟩
  | some e =>
    refine (valueOf_realizes hE e s).bind ?_
    rintro t s1 l1 ⟨hlater, ht, hdoes⟩
    rw [ensures_pure, List.append_nil]
    refine ⟨hlater, by simpa using ht.upTo, Realizes.map ?_⟩
    exact hdoes.mono (fun _ h => h) fun k vars hk => ⟨k, rfl, by simpa using hk⟩

theorem genForRange_realizes {type : String} {first last : Expr} {step : Option Expr}
    (hE : E.Agrees setting) (hname : Ordinary name)
    (hb : Realized E setting (V.insert name type) body) (token : Option Location) :
    StmtRealizes E setting V V
      (genForRange location name type first.lower last.lower (step.map Expr.lower)
        (Stmt.lowerBlock body))
      (E.stmt V (.forRange token name type first last step body)) := by
  apply StmtRealizes.of_same
  intro s hs
  rw [Evaluator.stmt]
  refine .scopeId (genConfined_realizes ?_)
  refine (valueOf_realizes hE first _).bind ?_
  rintro x s1 l1 ⟨hlater1, hx, hdoes1⟩
  refine (valueOf_realizes hE last s1).bind ?_
  rintro y s2 l2 ⟨hlater2, hy, hdoes2⟩
  refine (genOptional_realizes hE step).bind ?_
  rintro z s3 l3 ⟨hlater3, hz, hdoes3⟩
  have hlater23 := hlater2.trans hlater3
  have hlater := hlater1.trans hlater23
  have hr : Range.Issued ⟨name, type, x, y, z⟩ s3.temps :=
    ⟨hx.upTo.mono hlater23.temps, hy.upTo.mono hlater3.temps, hz⟩
  refine (Ensures.all fun v : Binding × Binding × Binding => genCounts_at v.1 v.2.1 v.2.2
    hE hname hr hb (hs.enter.same hlater.same)).mono fun _ s4 l4 hloop => ?_
  obtain ⟨hkept4, htemps4, -⟩ := hloop (.null, .null, .null)
  refine ⟨hlater.same.kept.trans hkept4, Nat.le_trans hlater.temps htemps4, ?_⟩
  -- the ends stay bound while what is behind them is evaluated
  have hstep : ∀ a b, Performs E s2.temps (l3 ++ l4)
      (E.valueOf? step >>= fun v => E.counts ⟨name, type, a, b, v⟩ (E.block (V.insert name type) body))
      fun vars => Bound x a vars ∧ Bound y b vars := fun a b => by
    apply hdoes3.given.perform (H := fun v vars => ∃ k, v = z.map (fun _ => k) ∧
      Range.Holds ⟨name, type, x, y, z⟩ a b k vars) _ hlater3.temps
    · rintro v vars vars' ⟨ha, hb⟩ hk ⟨k, hv, hz⟩
      exact ⟨k, hv, (hk.temps _ (hx.upTo.mono hlater2.temps)).trans ha,
        (hk.temps _ hy.upTo).trans hb, hz⟩
    · rintro v M m ht ⟨k, rfl, hg⟩
      exact (hloop (a, b, k)).2.2 M m ht hg
  have hlast : ∀ a, Performs E s1.temps (l2 ++ (l3 ++ l4)) _ (Bound x a) := fun a =>
    hdoes2.given.perform (hstep a) hlater2.temps fun b vars vars' ha hk hb =>
      ⟨(hk.temps _ hx.upTo).trans ha, hb⟩
  exact hdoes1.perform hlast hlater1.temps fun _ _ _ _ _ h => h

end ScopedIR.Lowering
