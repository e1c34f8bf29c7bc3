import ScopedIR.Proofs.Names

/-!
# The layout of lowered code

The forms that lowered code is put together from, as a judgement on lists of instructions. It says
what is known before a piece of code and after it: the open scopes, innermost first, with the names
that are certainly registered to each, the temporaries that stand for an object something else owns,
and whether control may depart.

There are three judgements. `Calc` is the code of an expression, which registers the objects it
makes to one scope. `Test` is the code of a condition, evaluated in a scope of its own. `Emits` is
the code of statements. A rule asks for no more than the form of the code, except under a policy:
when names are declared once and used where they are visible (`Policy.named`), when objects are
read only while something holds them (`Policy.held`), and when no variable is named like a temporary
(`Policy.plain`).

Main definitions: `Context`, `Policy`, `Calc`, `Test` and `Emits`.

Main statements: `Calc.names_subset`, and `Emits.ids_eq`, that code leaves the scopes it finds open.
-/

namespace ScopedIR.Layout

open Instr

/-- An open scope, with the names that are registered to it on every path. -/
structure Frame where
  id : String
  names : List String := []

/-- What is known at a point of the code. -/
structure Context where
  /-- The open scopes, innermost first. -/
  frames : List Frame := []
  /-- The names that the caller bound. -/
  params : List String := []
  /-- Temporaries that stand for an object without owning it. -/
  aliases : List String := []
  /-- Temporaries bound to the answer of a truth test. -/
  truths : List String := []
  /-- How many scopes are open at the innermost try chain around. -/
  boundary : Nat := 0
  /-- How many scopes are open at the innermost loop or try chain around. -/
  floor : Nat := 0
  /-- Whether a return would skip no finally block. -/
  mayReturn : Bool := true
  /-- Whether no finally block is around. -/
  mayThrow : Bool := true

/-- What is asked of the names in the code. -/
structure Policy where
  /-- Names are declared once, and used where they are visible. -/
  named : Prop
  /-- An object is read only while something holds it. -/
  held : Prop
  /-- Variables have ordinary names. -/
  plain : Prop

namespace Context

variable (Γ : Context)

/-- The open scopes, innermost first. -/
def ids : List String := Γ.frames.map (·.id)

/-- The names registered to an open scope. -/
def owned : List String := Γ.frames.flatMap (·.names)

/-- The names that stand for an object. -/
def names : List String := Γ.owned ++ Γ.aliases ++ Γ.params

/-- The scopes opened since the innermost try chain, innermost first. -/
def inner : List String := Γ.ids.take (Γ.frames.length - Γ.boundary)

/-- The scopes opened since the innermost loop or try chain, innermost first. Names are registered to
these alone, so what runs again finds the scopes around it as they were. -/
def reach : List String := Γ.ids.take (Γ.frames.length - Γ.floor)

/-- A name that an expression evaluated in scope `k` may have as its value. -/
def Near (k x : String) : Prop := x ∈ Γ.aliases ∨ ∃ f ∈ Γ.frames, f.id = k ∧ x ∈ f.names

/-- Register a name to the innermost scope called `k`. -/
def ownIn (k x : String) : List Frame → List Frame
  | [] => []
  | f :: outer =>
    if f.id = k then { f with names := x :: f.names } :: outer else f :: ownIn k x outer

def own (k x : String) : Context := { Γ with frames := ownIn k x Γ.frames }

/-- A temporary stands for an object. -/
def share (t : String) : Context := { Γ with aliases := t :: Γ.aliases }

/-- A temporary holds the answer of a truth test. -/
def truth (t : String) : Context := { Γ with truths := t :: Γ.truths }

/-- Open a scope. -/
def push (k : String) : Context := { Γ with frames := { id := k } :: Γ.frames }

/-- Forget which temporaries stand for objects. -/
def forget : Context := { Γ with aliases := [] }

/-- The context inside a loop. -/
def fence : Context := { Γ with floor := Γ.frames.length }

/-- The context inside the protected part of a try chain. -/
def protect (hasFinally : Bool) : Context :=
  { Γ.fence with boundary := Γ.frames.length, mayReturn := Γ.mayReturn && !hasFinally }

/-- The context inside the finally block of a try chain. -/
def lastly : Context :=
  { Γ.fence with boundary := Γ.frames.length, mayReturn := false, mayThrow := false }

open Classical in
/-- The context after code that may have dropped objects. -/
noncomputable def settle (π : Policy) : Context := if π.held then Γ.forget else Γ

/-! ### What the changes of a context keep -/

variable {Γ} {k x t : String}

@[simp] theorem ids_own : (Γ.own k x).ids = Γ.ids := by
  unfold ids own
  induction Γ.frames with
  | nil => rfl
  | cons f outer ih =>
    by_cases h : f.id = k
    · simp [ownIn, h]
    · simpa [ownIn, h] using ih

@[simp] theorem ids_push : (Γ.push k).ids = k :: Γ.ids := rfl

theorem length_ids : Γ.ids.length = Γ.frames.length := List.length_map _

theorem length_frames_own : (Γ.own k x).frames.length = Γ.frames.length := by
  rw [← length_ids, ids_own, length_ids]

@[simp] theorem reach_own : (Γ.own k x).reach = Γ.reach := by
  simp only [reach, ids_own, length_frames_own]
  rfl

theorem mem_ids_of_reach (h : k ∈ Γ.reach) : k ∈ Γ.ids := List.mem_of_mem_take h

theorem frames_settle {π : Policy} : (Γ.settle π).frames = Γ.frames := by
  unfold settle
  split <;> rfl

variable {l : List Frame} {y : String}

theorem mem_ownIn {f : Frame} (hf : f ∈ l) (hy : y ∈ f.names) :
    ∃ g ∈ ownIn k x l, g.id = f.id ∧ y ∈ g.names := by
  induction l with
  | nil => cases hf
  | cons e outer ih =>
    by_cases h : e.id = k
    · simp only [ownIn, h, if_true]
      rcases List.mem_cons.1 hf with rfl | hf
      · exact ⟨_, List.mem_cons_self, h.symm, List.mem_cons_of_mem _ hy⟩
      · exact ⟨f, List.mem_cons_of_mem _ hf, rfl, hy⟩
    · simp only [ownIn, h, if_false]
      rcases List.mem_cons.1 hf with rfl | hf
      · exact ⟨f, List.mem_cons_self, rfl, hy⟩
      · obtain ⟨g, hg, hid, hy⟩ := ih hf
        exact ⟨g, List.mem_cons_of_mem _ hg, hid, hy⟩

theorem mem_ownIn_self (hk : k ∈ l.map (·.id)) : ∃ g ∈ ownIn k x l, g.id = k ∧ x ∈ g.names := by
  induction l with
  | nil => simp at hk
  | cons e outer ih =>
    by_cases h : e.id = k
    · exact ⟨_, by simp only [ownIn, h, if_true]; exact List.mem_cons_self, rfl,
        List.mem_cons_self⟩
    · simp only [List.map_cons, List.mem_cons] at hk
      obtain ⟨g, hg, hid, hx⟩ := ih (hk.resolve_left fun h' => h h'.symm)
      exact ⟨g, by simp only [ownIn, h, if_false]; exact List.mem_cons_of_mem _ hg, hid, hx⟩

/-- A name registered in the new context is the new one or was registered before. -/
theorem mem_of_mem_ownIn {g : Frame} (hg : g ∈ ownIn k x l) (hy : y ∈ g.names) :
    (y = x ∧ g.id = k) ∨ ∃ f ∈ l, f.id = g.id ∧ y ∈ f.names := by
  induction l with
  | nil => cases hg
  | cons e outer ih =>
    by_cases h : e.id = k
    · simp only [ownIn, h, if_true, List.mem_cons] at hg
      rcases hg with rfl | hg
      · rcases List.mem_cons.1 hy with rfl | hy
        · exact .inl ⟨rfl, rfl⟩
        · exact .inr ⟨e, List.mem_cons_self, h, hy⟩
      · exact .inr ⟨g, List.mem_cons_of_mem _ hg, rfl, hy⟩
    · simp only [ownIn, h, if_false, List.mem_cons] at hg
      rcases hg with rfl | hg
      · exact .inr ⟨g, List.mem_cons_self, rfl, hy⟩
      · rcases ih hg with h' | ⟨f, hf, h'⟩
        · exact .inl h'
        · exact .inr ⟨f, List.mem_cons_of_mem _ hf, h'⟩

theorem owned_own_subset : Γ.owned ⊆ (Γ.own k x).owned := by
  intro y hy
  obtain ⟨f, hf, hy⟩ := List.mem_flatMap.1 hy
  obtain ⟨g, hg, -, hy⟩ := mem_ownIn hf hy
  exact List.mem_flatMap.2 ⟨g, hg, hy⟩

theorem mem_owned_own (hk : k ∈ Γ.ids) : x ∈ (Γ.own k x).owned := by
  obtain ⟨g, hg, -, hx⟩ := mem_ownIn_self (x := x) hk
  exact List.mem_flatMap.2 ⟨g, hg, hx⟩

theorem mem_of_mem_owned_own (hy : y ∈ (Γ.own k x).owned) : y = x ∨ y ∈ Γ.owned := by
  obtain ⟨g, hg, hy⟩ := List.mem_flatMap.1 hy
  rcases mem_of_mem_ownIn hg hy with ⟨h, -⟩ | ⟨f, hf, -, hy⟩
  · exact .inl h
  · exact .inr (List.mem_flatMap.2 ⟨f, hf, hy⟩)

theorem Near.mem_names (h : Γ.Near k x) : x ∈ Γ.names := by
  unfold names
  rcases h with h | ⟨f, hf, -, hx⟩
  · simp [h]
  · have : x ∈ Γ.owned := List.mem_flatMap.2 ⟨f, hf, hx⟩
    simp [this]

theorem Near.own (h : Γ.Near k x) : (Γ.own t y).Near k x := by
  rcases h with h | ⟨f, hf, hid, hx⟩
  · exact .inl h
  · obtain ⟨g, hg, hid', hx⟩ := mem_ownIn (k := t) (x := y) hf hx
    exact .inr ⟨g, hg, hid'.trans hid, hx⟩

theorem Near.own_self (hk : k ∈ Γ.ids) : (Γ.own k x).Near k x := .inr (mem_ownIn_self hk)

theorem Near.share (h : Γ.Near k x) : (Γ.share t).Near k x :=
  h.imp (List.mem_cons_of_mem _) id

theorem Near.share_self : (Γ.share t).Near k t := .inl List.mem_cons_self

theorem Near.truth (h : Γ.Near k x) : (Γ.truth t).Near k x := h

theorem owned_subset_names : Γ.owned ⊆ Γ.names := fun _ hy =>
  List.mem_append_left _ (List.mem_append_left _ hy)

theorem params_subset_names : Γ.params ⊆ Γ.names := List.subset_append_right _ _

theorem names_own_subset : Γ.names ⊆ (Γ.own k x).names := by
  intro y hy
  simp only [names, List.mem_append] at hy ⊢
  rcases hy with (hy | hy) | hy
  · exact .inl (.inl (owned_own_subset hy))
  · exact .inl (.inr hy)
  · exact .inr hy

theorem names_share_subset : Γ.names ⊆ (Γ.share t).names := by
  intro y hy
  simp only [names, List.mem_append] at hy ⊢
  rcases hy with (hy | hy) | hy
  · exact .inl (.inl hy)
  · exact .inl (.inr (List.mem_cons_of_mem _ hy))
  · exact .inr hy

end Context

/-! ### The forms of instructions -/

/-- A name that an expression may read, where `B` are the names bound before it. -/
def Readable (π : Policy) (B : List String) (x : String) : Prop :=
  (π.named → x ∈ B ∧ '.' ∉ x.toList) ∧ (π.plain → IsTemp x → x ∈ B)

/-- A name that may be declared. -/
def Declarable (π : Policy) (Γ : Context) (x : String) : Prop :=
  (π.named → x ∉ Γ.owned ∧ x ∉ Γ.params ∧ ¬ IsTemp x ∧ '.' ∉ x.toList) ∧ (π.plain → Ordinary x)

/-- A name that may be assigned. -/
def Assignable (π : Policy) (Γ : Context) (x : String) : Prop :=
  (π.named → x ∈ Γ.owned ∧ ¬ IsTemp x ∧ '.' ∉ x.toList) ∧ (π.plain → Ordinary x)

/-- A scope owns the object of a name, which is retained for it. -/
def registering (location : Option Location) (t k : String) : List Instr :=
  [simple location .retain [t] none, simple location .scopeRegister [t, k] none]

/-- A variable is declared, and registered to a scope. -/
def declaring (location : Option Location) (x type k : String) : List Instr :=
  [simple location .reference [x, type] none, simple location .scopeRegister [x, k] none]

/-- A declared variable gets its first value. -/
def initialising (location : Option Location) (x v : String) : List Instr :=
  [simple location .store [x, v] none, simple location .retain [x] none]

/-- A variable or field gets another value. -/
def assigning (location : Option Location) (x v : String) : List Instr :=
  [simple location .retain [v] none, simple location .release [x] none,
    simple location .store [x, v] none]

/-- The start of a catch clause, whose variable takes over the exception. -/
def catching (k v type exception : String) : List Instr :=
  [simple none .reference [v, type] none, simple none .store [v, exception] none,
    simple none .scopeRegister [v, k] none]

def entering (k : String) : Instr := simple none .scopeEnter [k] none

def exiting (k : String) : Instr := simple none .scopeExit [k] none

/-- Leave scopes in order. -/
def leaving (location : Option Location) (ks : List String) : List Instr :=
  ks.map fun k => simple location .scopeExit [k] none

/-- Code in a new scope, which is left unless control departs. -/
def scoping (k : String) (departs : Bool) (l : List Instr) : List Instr :=
  [entering k] ++ l ++ (if departs then [] else [exiting k])

variable {d : Bool} {k : String} {l : List Instr} {c : Chain Instr} {location : Option Location}
  {B : List String} {Γ Γ1 Γ' : Context} {π : Policy}

theorem binds_scoping : binds (scoping k d l) = binds l := by
  cases d <;> simp [scoping, binds_append, binds_cons, entering, exiting]

/-- The chain that asks whether an object is set: `n` tells whether `x` is null, and the value is
`f` then and `v` otherwise. -/
def question (k t n x : String) (nullBody : List Instr) (f : String) (setBody : List Instr)
    (v : String) : Chain Instr :=
  { kind := .question
    scope := k
    result := some t
    cases :=
      [{ scope := some k
         kind := .nullCheck
         condition :=
           { evaluation := [simple none .isNull [x] (some n)], result := none, primitive := n }
         body := { evaluation := nullBody, result := some f } }]
    fallback := some { evaluation := setBody, result := some v } }

/-! ### Expressions and conditions -/

/-- The code of an expression. It reads variables and temporaries of `B`, which were bound before
it, and registers what it makes to the scope `k`. -/
inductive Calc (π : Policy) (B : List String) (k : String) : Context → List Instr → Context → Prop
  | nil {Γ : Context} : Calc π B k Γ [] Γ
  | append {Γ Γ1 Γ2 : Context} {l r : List Instr} :
      Calc π B k Γ l Γ1 → Calc π B k Γ1 r Γ2 → Calc π B k Γ (l ++ r) Γ2
  /-- A new object, owned by the scope. -/
  | create {Γ : Context} {t : String} {location : Option Location} {opcode : Opcode}
      {operands : List String} :
      IsTemp t → k ∈ Γ.reach → opcode = .loadLiteral ∨ opcode = .allocObject →
      Calc π B k Γ
        ([simple location opcode operands (some t)] ++ registering location t k) (Γ.own k t)
  /-- The object of a variable, or of a temporary bound before. -/
  | load {Γ : Context} {t x : String} {location : Option Location} :
      IsTemp t → Readable π B x →
      Calc π B k Γ [simple location .load [x] (some t)] (Γ.share t)
  /-- The object in a field. -/
  | loadField {Γ : Context} {t o f : String} {location : Option Location} :
      IsTemp t → Readable π B o →
      Calc π B k Γ [simple location .load [o ++ "." ++ f] (some t)] (Γ.share t)
  /-- A call whose result the scope owns. -/
  | call {Γ : Context} {t : String} {location : Option Location} {opcode : Opcode}
      {site : CallSite} :
      IsTemp t → k ∈ Γ.reach → opcode.isCall = true → site.hasResult = true →
      opcode = .callStatic ∨ site.target ∈ Γ.names → (∀ a ∈ site.args, a ∈ Γ.names) →
      Calc π B k Γ
        ([calling location opcode (some t) site] ++ registering location t k) (Γ.own k t)
  /-- A call that returns nothing. -/
  | perform {Γ : Context} {location : Option Location} {opcode : Opcode} {site : CallSite} :
      opcode.isCall = true → site.hasResult = false →
      opcode = .callStatic ∨ site.target ∈ Γ.names → (∀ a ∈ site.args, a ∈ Γ.names) →
      Calc π B k Γ [calling location opcode none site] Γ
  /-- The primitive truth of an object. -/
  | test {Γ : Context} {t : String} {location : Option Location} {site : CallSite} :
      IsTemp t → site.hasResult = true → site.target ∈ Γ.names → site.args = [] →
      Calc π B k Γ [calling location .call (some t) site] (Γ.truth t)
  /-- Whether an object is set. What the answer is made of stays with the scope. -/
  | isSet {Γ Γ1 Γ2 : Context} {t n x f v : String} {nullBody setBody : List Instr}
      {location : Option Location} :
      IsTemp t → IsTemp n → x ∈ Γ.names →
      Calc π B k Γ nullBody Γ1 → f ∈ Γ1.names → Calc π B k Γ setBody Γ2 → v ∈ Γ2.names →
      Calc π B k Γ [chained location (question k t n x nullBody f setBody v)] (Γ.share t)
  /-- A conjunction or disjunction. -/
  | logical {Γ Γ1 Γ2 Γ3 : Context} {t : String} {b : LogicalBlock Instr}
      {location : Option Location} :
      IsTemp t → Calc π B k Γ b.leftEvaluation Γ1 → b.left ∈ Γ1.names → b.condition ∈ Γ1.truths →
      Calc π B k Γ1 b.rightEvaluation Γ2 → Calc π B k Γ2 b.computation Γ3 → b.result ∈ Γ3.names →
      Calc π B k Γ [logicalBlock location t b] (Γ.share t)

/-- The code of a condition, evaluated in a scope of its own down to the primitive `p`. -/
inductive Test (π : Policy) (Γ : Context) : List Instr → String → Prop
  | intro {k p : String} {B : List String} {l : List Instr} {Γ1 : Context} :
      k ∉ Γ.ids → B ⊆ Γ.names → Calc π B k (Γ.push k) l Γ1 → p ∈ Γ1.truths →
      Test π Γ (scoping k false l) p

/-! ### Statements -/

/-- The setup of a variable of a chain, if it has one. -/
def setupOf (v : Option (ChainVariable Instr)) : List Instr := (v.map (·.setup)).getD []

/-- A chain with nothing but cases and a fallback. -/
structure Plain (c : Chain Instr) : Prop where
  result : c.result = none
  tryBlock : c.tryBlock = none
  finallyBlock : c.finallyBlock = none

/-- The code in the lists of cases. -/
def caseCode (cases : List (Case Instr)) : List Instr := (cases.flatMap Case.lists).flatten

/-- The code of a body, if there is one. -/
def bodyCode (b : Option (CaseBody Instr)) : List Instr := (b.map (·.evaluation)).getD []

/-- The code in a plain chain. -/
def Plain.code (c : Chain Instr) : List Instr :=
  setupOf c.subject ++ setupOf c.returning ++ caseCode c.cases ++ bodyCode c.fallback

theorem Plain.lists_flatten (hp : Plain c) : c.lists.flatten = Plain.code c := by
  have hopt : ∀ o : Option (List Instr), o.toList.flatten = o.getD [] := by
    intro o
    cases o <;> simp
  simp [Chain.lists, hp.tryBlock, hp.finallyBlock, hopt, setupOf, caseCode, bodyCode, Plain.code]

theorem Plain.binds_eq (hp : Plain c) : binds [chained location c] = binds (Plain.code c) := by
  rw [binds_cons, ownBinds_chained, lists_chained, hp.lists_flatten, hp.result, hp.tryBlock]
  simp

theorem Plain.enters_eq (hp : Plain c) : enters [chained location c] = enters (Plain.code c) := by
  rw [enters_cons, ownEnters_chained, lists_chained, hp.lists_flatten]
  simp

/-- The code of statements, with whether control departs in it. -/
inductive Emits (π : Policy) : Context → Bool → List Instr → Context → Prop
  | nil {Γ : Context} : Emits π Γ false [] Γ
  | append {Γ Γ1 Γ2 : Context} {d : Bool} {l r : List Instr} :
      Emits π Γ false l Γ1 → Emits π Γ1 d r Γ2 → Emits π Γ d (l ++ r) Γ2
  /-- What stands for an object need not be remembered. -/
  | forget {Γ Γ1 : Context} {d : Bool} {l : List Instr} :
      π.held → Emits π Γ.forget d l Γ1 → Emits π Γ d l Γ1
  | compute {Γ Γ1 : Context} {B : List String} {k : String} {l : List Instr} :
      B ⊆ Γ.names → Calc π B k Γ l Γ1 → Emits π Γ false l Γ1
  | declare {Γ : Context} {x type k : String} {location : Option Location} :
      Declarable π Γ x → k ∈ Γ.reach → Emits π Γ false (declaring location x type k) (Γ.own k x)
  /-- A declaration with a first value. -/
  | bind {Γ Γ1 : Context} {B : List String} {x type v k : String} {l : List Instr}
      {location : Option Location} :
      Declarable π Γ x → k ∈ Γ.reach → B ⊆ Γ.names → Calc π B k (Γ.own k x) l Γ1 →
      Γ1.Near k v → IsTemp v →
      Emits π Γ false (declaring location x type k ++ l ++ initialising location x v) Γ1
  | assign {Γ Γ1 : Context} {B : List String} {x v k : String} {l : List Instr}
      {location : Option Location} :
      Assignable π Γ x → Γ.ids.head? = some k → B ⊆ Γ.names → Calc π B k Γ l Γ1 →
      Γ1.Near k v → IsTemp v →
      Emits π Γ false (l ++ assigning location x v) (Γ1.settle π)
  | assignField {Γ Γ1 : Context} {B : List String} {o f v k : String} {l : List Instr}
      {location : Option Location} :
      ¬ π.held → (π.named → (o ∈ Γ.owned ∨ o ∈ Γ.params) ∧ '.' ∉ o.toList) →
      (π.plain → Ordinary o) → B ⊆ Γ.names → Calc π B k Γ l Γ1 →
      Γ1.Near k v → IsTemp v →
      Emits π Γ false (l ++ assigning location (o ++ "." ++ f) v) Γ1
  /-- A field gets its first value. -/
  | initField {Γ Γ1 : Context} {B : List String} {o f v k : String} {l : List Instr}
      {location : Option Location} :
      ¬ π.held → ¬ π.named → Ordinary o → B ⊆ Γ.names → Calc π B k Γ l Γ1 → Γ1.Near k v →
      Emits π Γ false (l ++ initialising location (o ++ "." ++ f) v) Γ1
  | assert {Γ Γ1 : Context} {B : List String} {p k : String} {l : List Instr}
      {location : Option Location} :
      B ⊆ Γ.names → Calc π B k Γ l Γ1 → p ∈ Γ1.truths →
      Emits π Γ false (l ++ [simple location .assert [p] none]) Γ1
  | ret {Γ Γ1 : Context} {B : List String} {v k : String} {l : List Instr}
      {location : Option Location} :
      Γ.mayReturn = true → B ⊆ Γ.names → Calc π B k Γ l Γ1 → Γ1.Near k v → IsTemp v →
      Emits π Γ true
        (l ++ ([simple location .retain [v] none] ++ leaving location Γ.ids
          ++ [simple location .ret [v] none])) Γ1
  | retNone {Γ : Context} {location : Option Location} :
      Γ.mayReturn = true →
      Emits π Γ true (leaving location Γ.ids ++ [simple location .ret [] none]) Γ
  | throw {Γ Γ1 : Context} {B : List String} {v k : String} {l : List Instr}
      {location : Option Location} :
      Γ.mayThrow = true → B ⊆ Γ.names → Calc π B k Γ l Γ1 → Γ1.Near k v → IsTemp v →
      Emits π Γ true
        (l ++ ([simple location .retain [v] none] ++ leaving location Γ.inner
          ++ [simple location .throw [v] none])) Γ1
  /-- A block in a scope of its own. -/
  | scope {Γ Γ1 : Context} {d : Bool} {k : String} {l : List Instr} :
      k ∉ Γ.ids → Emits π (Γ.push k) d l Γ1 →
      Emits π Γ d (scoping k d l) ({ Γ with frames := Γ1.frames.tail }.settle π)
  /-- A conditional or a switch: the subject, the variable it returns, then the cases. -/
  | branch {Γ Γ1 Γ2 outF : Context} {c : Chain Instr} {location : Option Location}
      {dep : Case Instr → Bool} {out : Case Instr → Context} {depF : Bool} :
      c.kind ≠ .tryCatchFinally → c.kind.isLoop = false → Plain c →
      Emits π Γ false (setupOf c.subject) Γ1 → Emits π Γ1 false (setupOf c.returning) Γ2 →
      (∀ v, c.returning = some v → v.name ∈ Γ2.owned) →
      (∀ e ∈ c.cases, Test π Γ2 e.condition.evaluation e.condition.primitive) →
      (∀ e ∈ c.cases, Emits π Γ2 (dep e) e.body.evaluation (out e)) →
      (∀ e ∈ c.cases, (out e).frames = Γ2.frames ∧ e.body.result = none ∧ e.updates = []) →
      (∀ b, c.fallback = some b → Emits π Γ2 depF b.evaluation outF) →
      (∀ b, c.fallback = some b → outF.frames = Γ2.frames ∧ b.result = none) →
      Emits π Γ false [chained location c] (Γ2.settle π)
  /-- A loop over one case, where nothing is remembered from round to round. -/
  | loop {Γ Γ1 Γ2 : Context} {c : Chain Instr} {e : Case Instr} {location : Option Location}
      {d : Bool} :
      c.kind.isLoop = true → Plain c → c.subject = none → c.returning = none → c.cases = [e] →
      c.fallback = none → (π.held → Γ.aliases = []) →
      Test π Γ e.condition.evaluation e.condition.primitive →
      Emits π Γ.fence d e.body.evaluation Γ1 → Γ1.frames = Γ.frames →
      Emits π Γ.fence false e.updates Γ2 → Γ2.frames = Γ.frames →
      Emits π Γ false [chained location c] Γ
  /-- A try chain, where nothing is remembered either. A catch clause takes over the exception into
  its variable. -/
  | tryCatch {Γ Γ1 outF : Context} {c : Chain Instr} {b : TryBlock Instr}
      {location : Option Location} {d : Bool} {dep : Case Instr → Bool}
      {scopeOf var typeOf : Case Instr → String} {body : Case Instr → List Instr}
      {out : Case Instr → Context} :
      c.kind = .tryCatchFinally → c.result = none → c.subject = none → c.returning = none →
      c.fallback = none → c.tryBlock = some b → IsTemp b.exception → (π.held → Γ.aliases = []) →
      Emits π (Γ.protect c.finallyBlock.isSome) d b.evaluation Γ1 → Γ1.frames = Γ.frames →
      (∀ e ∈ c.cases, e.condition.evaluation = [] ∧ e.updates = [] ∧ e.body.result = none) →
      (∀ e ∈ c.cases, e.body.evaluation = scoping (scopeOf e) (dep e)
        (catching (scopeOf e) (var e) (typeOf e) b.exception ++ body e)) →
      (∀ e ∈ c.cases, scopeOf e ∉ Γ.ids ∧ Declarable π Γ (var e)) →
      (∀ e ∈ c.cases, Emits π
        (((Γ.protect c.finallyBlock.isSome).push (scopeOf e)).own (scopeOf e) (var e))
        (dep e) (body e) (out e)) →
      (∀ e ∈ c.cases, (out e).frames.tail = Γ.frames) →
      (∀ b, c.finallyBlock = some b → Emits π Γ.lastly false b.evaluation outF) →
      (∀ b, c.finallyBlock = some b → outF.frames = Γ.frames) →
      Emits π Γ false [chained location c] Γ

/-! ### What code leaves as it is -/

/-- Both contexts have the same scopes open, in the same place of the operation. -/
structure Context.Alike (Γ Γ' : Context) : Prop where
  ids : Γ'.ids = Γ.ids
  params : Γ'.params = Γ.params
  boundary : Γ'.boundary = Γ.boundary
  floor : Γ'.floor = Γ.floor
  mayReturn : Γ'.mayReturn = Γ.mayReturn
  mayThrow : Γ'.mayThrow = Γ.mayThrow

namespace Context.Alike

variable {Γ Γ1 Γ2 : Context}

theorem refl (Γ : Context) : Γ.Alike Γ := ⟨rfl, rfl, rfl, rfl, rfl, rfl⟩

theorem trans (h : Γ.Alike Γ1) (h' : Γ1.Alike Γ2) : Γ.Alike Γ2 :=
  ⟨h'.ids.trans h.ids, h'.params.trans h.params, h'.boundary.trans h.boundary,
    h'.floor.trans h.floor, h'.mayReturn.trans h.mayReturn, h'.mayThrow.trans h.mayThrow⟩

theorem own {k x : String} : Γ.Alike (Γ.own k x) := ⟨ids_own, rfl, rfl, rfl, rfl, rfl⟩

theorem settle {π : Policy} : Γ.Alike (Γ.settle π) := by
  unfold Context.settle
  split
  · exact ⟨rfl, rfl, rfl, rfl, rfl, rfl⟩
  · exact refl Γ

theorem length_frames (h : Γ.Alike Γ1) : Γ1.frames.length = Γ.frames.length := by
  rw [← length_ids, h.ids, length_ids]

theorem reach (h : Γ.Alike Γ1) : Γ1.reach = Γ.reach := by
  unfold Context.reach
  rw [h.ids, h.floor, h.length_frames]

end Context.Alike

namespace Calc

variable {π : Policy} {B : List String} {k : String} {Γ Γ1 : Context} {l : List Instr}

theorem alike (h : Calc π B k Γ l Γ1) : Γ.Alike Γ1 := by
  induction h with
  | nil | perform => exact .refl _
  | append _ _ ih ih' => exact ih.trans ih'
  | create | call => exact .own
  | load | loadField | test | isSet | logical => exact ⟨rfl, rfl, rfl, rfl, rfl, rfl⟩

theorem near {x : String} (h : Calc π B k Γ l Γ1) (hx : Γ.Near k x) : Γ1.Near k x := by
  induction h with
  | nil => exact hx
  | append _ _ ih ih' => exact ih' (ih hx)
  | create | call => exact hx.own
  | load | loadField | isSet | logical => exact hx.share
  | perform => exact hx
  | test => exact hx.truth

/-- What stands for an object before an expression stands for one after it. -/
theorem names_subset (h : Calc π B k Γ l Γ1) : Γ.names ⊆ Γ1.names := by
  induction h with
  | nil | perform | test => exact List.Subset.refl _
  | append _ _ ih ih' => exact List.Subset.trans ih ih'
  | create | call => exact Context.names_own_subset
  | load | loadField | isSet | logical => exact Context.names_share_subset

theorem truths_subset (h : Calc π B k Γ l Γ1) : Γ.truths ⊆ Γ1.truths := by
  induction h with
  | append _ _ ih ih' => exact List.Subset.trans ih ih'
  | test => exact List.subset_cons_self _ _
  | _ => exact List.Subset.refl _

end Calc

/-! ### What code adds to -/

/-- The same scopes, with more names registered. -/
def Grows (F F' : List Frame) : Prop :=
  List.Forall₂ (fun f f' => f'.id = f.id ∧ f.names ⊆ f'.names) F F'

namespace Grows

variable {F F' F'' : List Frame}

theorem refl (F : List Frame) : Grows F F := by
  unfold Grows
  induction F with
  | nil => exact .nil
  | cons f F ih => exact .cons ⟨rfl, List.Subset.refl _⟩ ih

theorem trans (h : Grows F F') (h' : Grows F' F'') : Grows F F'' := by
  unfold Grows at *
  induction h generalizing F'' with
  | nil => exact h'
  | cons hf _ ih =>
    cases h' with
    | cons hf' h' => exact .cons ⟨hf'.1.trans hf.1, List.Subset.trans hf.2 hf'.2⟩ (ih h')

theorem ownIn {k x : String} (F : List Frame) : Grows F (Context.ownIn k x F) := by
  induction F with
  | nil => exact .nil
  | cons f F ih =>
    unfold Context.ownIn
    split
    · exact .cons ⟨rfl, List.subset_cons_self _ _⟩ (refl F)
    · exact .cons ⟨rfl, List.Subset.refl _⟩ ih

theorem tail {f : Frame} (h : Grows (f :: F) F') : Grows F F'.tail := by
  cases h with
  | cons _ h => exact h

theorem flatMap_names_subset (h : Grows F F') : F.flatMap (·.names) ⊆ F'.flatMap (·.names) := by
  unfold Grows at h
  induction h with
  | nil => exact List.Subset.refl _
  | cons hf _ ih =>
    rw [List.flatMap_cons, List.flatMap_cons]
    intro x hx
    rcases List.mem_append.1 hx with hx | hx
    · exact List.mem_append_left _ (hf.2 hx)
    · exact List.mem_append_right _ (ih hx)

theorem owned_subset {Γ Γ' : Context} (h : Grows Γ.frames Γ'.frames) : Γ.owned ⊆ Γ'.owned :=
  h.flatMap_names_subset

end Grows

theorem Calc.grows (h : Calc π B k Γ l Γ1) : Grows Γ.frames Γ1.frames := by
  induction h with
  | append _ _ ih ih' => exact ih.trans ih'
  | create | call => exact .ownIn _
  | _ => exact .refl _

theorem Calc.owned_subset (h : Calc π B k Γ l Γ1) : Γ.owned ⊆ Γ1.owned := h.grows.owned_subset

theorem Calc.mem_owned (h : Calc π B k Γ l Γ1) {x : String} (hx : x ∈ Γ1.owned) :
    x ∈ Γ.owned ∨ IsTemp x := by
  induction h with
  | append _ _ ih ih' =>
    rcases ih' hx with hx | hx
    · exact ih hx
    · exact .inr hx
  | create ht | call ht =>
    rcases Context.mem_of_mem_owned_own hx with rfl | hx
    · exact .inr ht
    · exact .inl hx
  | _ => exact .inl hx

theorem Context.grows_settle : Grows Γ.frames (Γ.settle π).frames := by
  rw [frames_settle]
  exact .refl _

/-- Names that are registered stay registered. -/
theorem Emits.grows (h : Emits π Γ d l Γ') : Grows Γ.frames Γ'.frames := by
  induction h with
  | nil | retNone | loop | tryCatch => exact .refl _
  | append _ _ ih ih' => exact ih.trans ih'
  | forget _ _ ih => exact ih
  | compute _ h | assignField _ _ _ _ h | initField _ _ _ _ h | assert _ h | ret _ _ h
  | throw _ _ h => exact h.grows
  | declare => exact .ownIn _
  | bind _ _ _ h => exact (Grows.ownIn _).trans h.grows
  | assign _ _ _ h => exact h.grows.trans Context.grows_settle
  | scope _ _ ih =>
    rw [Context.frames_settle]
    exact ih.tail
  | branch _ _ _ _ _ _ _ _ _ _ _ ih ih' => exact (ih.trans ih').trans Context.grows_settle

theorem Calc.aliases_subset (h : Calc π B k Γ l Γ1) : Γ.aliases ⊆ Γ1.aliases := by
  induction h with
  | append _ _ ih ih' => exact List.Subset.trans ih ih'
  | load | loadField | isSet | logical => exact List.subset_cons_self _ _
  | _ => exact List.Subset.refl _

/-- Where objects need not be held, no name is ever forgotten. -/
theorem Emits.aliases_subset (h : Emits π Γ d l Γ') (hh : ¬ π.held) : Γ.aliases ⊆ Γ'.aliases := by
  have hsettle : ∀ Γ : Context, Γ.settle π = Γ := fun Γ => if_neg hh
  induction h with
  | nil | declare | retNone | loop | tryCatch => exact List.Subset.refl _
  | append _ _ ih ih' => exact List.Subset.trans ih ih'
  | forget h => exact absurd h hh
  | compute _ h | bind _ _ _ h | assignField _ _ _ _ h | initField _ _ _ _ h | assert _ h
  | ret _ _ h | throw _ _ h => exact h.aliases_subset
  | assign _ _ _ h =>
    rw [hsettle]
    exact h.aliases_subset
  | scope =>
    rw [hsettle]
    exact List.Subset.refl _
  | branch _ _ _ _ _ _ _ _ _ _ _ ih ih' =>
    rw [hsettle]
    exact List.Subset.trans ih ih'

/-- What stands for an object after an expression did so before, or is new. -/
theorem Calc.mem_aliases {t : String} (h : Calc π B k Γ l Γ1) (ht : t ∈ Γ1.aliases) :
    t ∈ Γ.aliases ∨ t ∈ binds l := by
  have hshare : ∀ {Γ : Context} {s : String} {l : List Instr}, s ∈ binds l →
      t ∈ (Γ.share s).aliases → t ∈ Γ.aliases ∨ t ∈ binds l := by
    intro Γ s l hs ht
    rcases List.mem_cons.1 ht with rfl | ht
    · exact .inr hs
    · exact .inl ht
  induction h with
  | append _ _ ih ih' =>
    rw [binds_append, List.mem_append]
    rcases ih' ht with ht | ht
    · exact (ih ht).imp_right .inl
    · exact .inr (.inr ht)
  | load | loadField | logical => exact hshare (by simp [binds_cons]) ht
  | isSet => exact hshare (by simp [binds_cons, question]) ht
  | _ => exact .inl ht

theorem Context.aliases_settle (hh : π.held) : (Γ.settle π).aliases = [] := by
  rw [Context.settle, if_pos hh]
  rfl

theorem Context.aliases_settle_subset : (Γ.settle π).aliases ⊆ Γ.aliases := by
  unfold settle
  split
  · exact List.nil_subset _
  · exact List.Subset.refl _

/-- What stands for an object after code did so before, or is new. -/
theorem Emits.mem_aliases {t : String} (h : Emits π Γ d l Γ') (ht : t ∈ Γ'.aliases) :
    t ∈ Γ.aliases ∨ t ∈ binds l := by
  have hleft : ∀ {Γ : Context} {l r : List Instr}, t ∈ Γ.aliases ∨ t ∈ binds l →
      t ∈ Γ.aliases ∨ t ∈ binds (l ++ r) := by
    intro Γ l r h
    rw [binds_append, List.mem_append]
    exact h.imp_right .inl
  induction h with
  | nil | declare | retNone | loop | tryCatch => exact .inl ht
  | append _ _ ih ih' =>
    rcases ih' ht with ht | ht
    · exact hleft (ih ht)
    · rw [binds_append, List.mem_append]
      exact .inr (.inr ht)
  | forget _ _ ih =>
    rcases ih ht with ht | ht
    · cases ht
    · exact .inr ht
  | compute _ h => exact h.mem_aliases ht
  | bind _ _ _ h =>
    refine hleft ?_
    rw [binds_append, List.mem_append]
    exact (h.mem_aliases ht).imp_right .inr
  | assign _ _ _ h => exact hleft (h.mem_aliases (Context.aliases_settle_subset ht))
  | assignField _ _ _ _ h | initField _ _ _ _ h | assert _ h | ret _ _ h =>
      exact hleft (h.mem_aliases ht)
  | throw _ _ h => exact hleft (h.mem_aliases ht)
  | @scope Γ Γ1 =>
    exact .inl (Context.aliases_settle_subset (Γ := { Γ with frames := Γ1.frames.tail }) ht)
  | branch _ _ hp _ _ _ _ _ _ _ _ ih ih' =>
    rw [hp.binds_eq, Plain.code, List.append_assoc]
    refine hleft ?_
    rw [binds_append, List.mem_append]
    rcases ih' (Context.aliases_settle_subset ht) with ht | ht
    · exact (ih ht).imp_right .inl
    · exact .inr (.inr ht)

/-- Code leaves the scopes it finds open. -/
theorem Emits.alike (h : Emits π Γ d l Γ') : Γ.Alike Γ' := by
  induction h with
  | nil | retNone | loop | tryCatch => exact .refl _
  | append _ _ ih ih' => exact ih.trans ih'
  | forget _ _ ih => exact ⟨ih.ids, ih.params, ih.boundary, ih.floor, ih.mayReturn, ih.mayThrow⟩
  | compute _ h | assignField _ _ _ _ h | initField _ _ _ _ h | assert _ h | ret _ _ h
  | throw _ _ h => exact h.alike
  | declare => exact .own
  | bind _ _ _ h => exact Context.Alike.own.trans h.alike
  | assign _ _ _ h => exact h.alike.trans .settle
  | @scope Γ Γ1 _ _ _ _ _ ih =>
    have hids : ({ Γ with frames := Γ1.frames.tail } : Context).ids = Γ.ids := by
      have := congrArg List.tail ih.ids
      simpa [Context.ids, Context.push] using this
    exact Context.Alike.trans ⟨hids, rfl, rfl, rfl, rfl, rfl⟩ .settle
  | branch _ _ _ _ _ _ _ _ _ _ _ ih ih' => exact (ih.trans ih').trans .settle

end ScopedIR.Layout
