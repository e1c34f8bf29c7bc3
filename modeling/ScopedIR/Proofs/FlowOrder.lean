import ScopedIR.Proofs.Generation
import ScopedIR.ScopeCheck

/-!
# The order in which blocks are checked

The blocks of a body are checked in reverse postorder of a depth-first walk. The order has every
block that edges lead to from the entry, and in front of every other block there is one of its
predecessors: the one it was first visited from, which the walk leaves later.

Because of that, a block that is accepted finds the scopes it starts with handed over already, as
long as its predecessors in the order do not depart. The scopes that the blocks start with then agree
along every edge.

Main definitions:

* `FlowSummary.Walking`: what holds at every moment of a walk;
* `ScopeCheck.Settles`: a block is accepted from its start, and its successors start where it ends.

Main statements: `FlowSummary.Walking.walk`, by induction on the walk, `Body.order_led`, and
`ScopeCheck.exists_starts`, by induction on the order.
-/

namespace ScopedIR

/-- The block that a task is about. -/
def FlowTask.block : FlowTask → Nat
  | .visit b | .leave b => b

namespace FlowSummary

variable {succs : Nat → List Nat} {entry size : Nat}

/-- Every task is about the entry, or about a successor of a block that is left later. -/
def Rooted (succs : Nat → List Nat) (entry : Nat) : List FlowTask → Prop
  | [] => True
  | t :: rest =>
    (t.block = entry ∨ ∃ p, .leave p ∈ rest ∧ t.block ∈ succs p) ∧ Rooted succs entry rest

/-- Visits of successors of a block that is left right after them. -/
theorem Rooted.visits {l : List Nat} {b : Nat} {rest : List FlowTask}
    (hl : ∀ t ∈ l, t ∈ succs b) (h : Rooted succs entry (.leave b :: rest)) :
    Rooted succs entry (l.map .visit ++ .leave b :: rest) := by
  induction l with
  | nil => exact h
  | cons t l ih =>
    constructor
    · exact .inr ⟨b, by simp, hl t List.mem_cons_self⟩
    · exact ih fun t ht => hl t (List.mem_cons_of_mem _ ht)

/-- What holds of a walk at every moment. -/
structure Walking (succs : Nat → List Nat) (entry size : Nat) (fresh : List Nat)
    (stack : List FlowTask) (order : List Nat) : Prop where
  nodup : fresh.Nodup
  rooted : Rooted succs entry stack
  /-- A block of the order is led to from one in front of it, or from one that is left later. -/
  led : ∀ l1 b l2, order = l1 ++ b :: l2 →
    b = entry ∨ (∃ p ∈ l1, b ∈ succs p) ∨ ∃ p, .leave p ∈ stack ∧ b ∈ succs p
  inside : ∀ b ∈ fresh, b < size
  visited : ∀ b, b ∈ order ∨ .leave b ∈ stack → b < size ∧ b ∉ fresh
  begun : entry ∈ fresh → .visit entry ∈ stack
  pending : ∀ b, b < size → b ∉ fresh → b ∈ order ∨ .leave b ∈ stack
  onward : ∀ b, b < size → b ∉ fresh → ∀ t ∈ succs b, t ∈ fresh → .visit t ∈ stack

namespace Walking

variable {fresh : List Nat} {rest : List FlowTask} {order : List Nat} {b : Nat}

/-- A walk begins with a visit of the entry. -/
theorem begin (succs : Nat → List Nat) (entry size : Nat) :
    Walking succs entry size (List.range size) [.visit entry] [] where
  nodup := List.nodup_range
  rooted := ⟨.inl rfl, trivial⟩
  led := by simp
  inside := fun c hc => List.mem_range.1 hc
  visited := by simp
  begun := fun _ => List.mem_cons_self
  pending := fun c hsize hc => absurd (List.mem_range.2 hsize) hc
  onward := fun c hsize hc => absurd (List.mem_range.2 hsize) hc

/-- A block is left: it goes to the front of the order. -/
theorem leave (h : Walking succs entry size fresh (.leave b :: rest) order) :
    Walking succs entry size fresh rest (b :: order) where
  nodup := h.nodup
  rooted := h.rooted.2
  led := by
    intro l1 c l2 horder
    cases l1 with
    | nil =>
      obtain ⟨rfl, -⟩ := List.cons.inj horder
      exact h.rooted.1.imp_right .inr
    | cons a l1 =>
      obtain ⟨rfl, hrest⟩ := List.cons.inj horder
      obtain hc | ⟨p, hp, hc⟩ | ⟨p, hp, hc⟩ := h.led l1 c l2 hrest
      · exact .inl hc
      · exact .inr (.inl ⟨p, List.mem_cons_of_mem _ hp, hc⟩)
      · obtain hp | hp := List.mem_cons.1 hp
        · obtain rfl : p = b := by injection hp
          exact .inr (.inl ⟨p, List.mem_cons_self, hc⟩)
        · exact .inr (.inr ⟨p, hp, hc⟩)
  inside := h.inside
  visited := by
    intro c hc
    apply h.visited c
    obtain hc | hc := hc
    · obtain rfl | hc := List.mem_cons.1 hc
      · exact .inr List.mem_cons_self
      · exact .inl hc
    · exact .inr (List.mem_cons_of_mem _ hc)
  begun := fun he => by simpa using h.begun he
  pending := by
    intro c hsize hc
    obtain hc | hc := h.pending c hsize hc
    · exact .inl (List.mem_cons_of_mem _ hc)
    · obtain hc | hc := List.mem_cons.1 hc
      · obtain rfl : c = b := by injection hc
        exact .inl List.mem_cons_self
      · exact .inr hc
  onward := fun c hsize hc t ht hfresh => by simpa using h.onward c hsize hc t ht hfresh

/-- A fresh block is visited: its successors are next, and it is left after them. -/
theorem visit (h : Walking succs entry size fresh (.visit b :: rest) order) (hb : b ∈ fresh) :
    Walking succs entry size (fresh.erase b)
      (((succs b).filter (· ∈ fresh.erase b)).map .visit ++ .leave b :: rest) order where
  nodup := h.nodup.erase b
  rooted := .visits (fun _ ht => (List.mem_filter.1 ht).1) h.rooted
  led := by
    intro l1 c l2 horder
    obtain hc | hc | ⟨p, hp, hc⟩ := h.led l1 c l2 horder
    · exact .inl hc
    · exact .inr (.inl hc)
    · have hp : .leave p ∈ rest := by simpa using hp
      exact .inr (.inr ⟨p, by simp [hp], hc⟩)
  inside := fun c hc => h.inside c (List.mem_of_mem_erase hc)
  visited := by
    intro c hc
    have hcases : c = b ∨ c ∈ order ∨ .leave c ∈ rest := by
      obtain hc | hc := hc
      · exact .inr (.inl hc)
      · have hc : c = b ∨ .leave c ∈ rest := by simpa using hc
        exact hc.imp_right .inr
    obtain rfl | hc := hcases
    · exact ⟨h.inside c hb, fun hmem => ((List.Nodup.mem_erase_iff h.nodup).1 hmem).1 rfl⟩
    · obtain ⟨hsize, hfresh⟩ := h.visited c (hc.imp_right (List.mem_cons_of_mem _))
      exact ⟨hsize, fun hmem => hfresh (List.mem_of_mem_erase hmem)⟩
  begun := by
    intro he
    obtain ⟨hne, he⟩ := (List.Nodup.mem_erase_iff h.nodup).1 he
    have hmem : entry = b ∨ .visit entry ∈ rest := by simpa using h.begun he
    simp [hmem.resolve_left hne]
  pending := by
    intro c hsize hc
    by_cases hcb : c = b
    · exact .inr (by simp [hcb])
    · have hfresh : c ∉ fresh := fun hmem => hc ((List.mem_erase_of_ne hcb).2 hmem)
      obtain hc | hc := h.pending c hsize hfresh
      · exact .inl hc
      · have hc : .leave c ∈ rest := by simpa using hc
        exact .inr (by simp [hc])
  onward := by
    intro c hsize hc t ht hmem
    by_cases hcb : c = b
    · subst hcb
      have hvisit : t ∈ (succs c).filter (· ∈ fresh.erase c) :=
        List.mem_filter.2 ⟨ht, decide_eq_true hmem⟩
      exact List.mem_append_left _ (List.mem_map_of_mem hvisit)
    · have hfresh : c ∉ fresh := fun hmem => hc ((List.mem_erase_of_ne hcb).2 hmem)
      obtain ⟨hne, hmem⟩ := (List.Nodup.mem_erase_iff h.nodup).1 hmem
      have hvisit : t = b ∨ .visit t ∈ rest := by simpa using h.onward c hsize hfresh t ht hmem
      simp [hvisit.resolve_left hne]

/-- A block that was visited before is passed over. -/
theorem skip (h : Walking succs entry size fresh (.visit b :: rest) order) (hb : b ∉ fresh) :
    Walking succs entry size fresh rest order where
  nodup := h.nodup
  rooted := h.rooted.2
  led := fun l1 c l2 horder => by simpa using h.led l1 c l2 horder
  inside := h.inside
  visited := fun c hc => h.visited c (hc.imp_right (List.mem_cons_of_mem _))
  begun := by
    intro he
    have hmem : entry = b ∨ .visit entry ∈ rest := by simpa using h.begun he
    exact hmem.resolve_left fun heq => hb (heq ▸ he)
  pending := fun c hsize hc => by simpa using h.pending c hsize hc
  onward := by
    intro c hsize hc t ht hmem
    have hvisit : t = b ∨ .visit t ∈ rest := by simpa using h.onward c hsize hc t ht hmem
    exact hvisit.resolve_left fun heq => hb (heq ▸ hmem)

/-- A walk ends with nothing left to do. -/
theorem walk {stack : List FlowTask} {found : FlowSummary}
    (h : Walking succs entry size fresh stack found.order) :
    ∃ fresh', Walking succs entry size fresh' [] (FlowSummary.walk succs fresh stack found).order := by
  fun_induction FlowSummary.walk succs fresh stack found with
  | case1 fresh found => exact ⟨fresh, h⟩
  | case2 fresh found b rest ih => exact ih h.leave
  | case3 fresh found b rest hb ih => exact ih (h.visit hb)
  | case4 fresh found b rest hb ih => exact ih (h.skip hb)

end Walking

end FlowSummary

namespace Body

variable {body : Body} {b t : Nat}

theorem mem_toList_of_get? {block : Block} (h : body.blocks.get? b = some block) :
    block ∈ body.toList := by
  have hslot : body.blocks.slots[b]? = some block := h
  exact Array.mem_toList_iff.2 (Array.mem_of_getElem? hslot)

theorem walking_order (body : Body) (h : 0 < body.size) :
    ∃ fresh, FlowSummary.Walking body.succs 0 body.size fresh [] body.flow.order := by
  have hentry : body.entry? = some 0 := if_neg (by omega)
  unfold flow
  rw [hentry]
  exact FlowSummary.Walking.walk (FlowSummary.Walking.begin body.succs 0 body.size)

theorem entry_mem_order (h : 0 < body.size) : 0 ∈ body.flow.order := by
  obtain ⟨fresh, hw⟩ := body.walking_order h
  have hfresh : 0 ∉ fresh := fun he => List.not_mem_nil (hw.begun he)
  exact (hw.pending 0 h hfresh).resolve_right List.not_mem_nil

theorem lt_size_of_mem_order (hb : b ∈ body.flow.order) : b < body.size := by
  by_cases h : 0 < body.size
  · obtain ⟨fresh, hw⟩ := body.walking_order h
    exact (hw.visited b (.inl hb)).1
  · have hentry : body.entry? = none := if_pos (by omega)
    have horder : body.flow.order = [] := by
      unfold flow
      rw [hentry]
      simp [FlowSummary.walk]
    rw [horder] at hb
    exact absurd hb List.not_mem_nil

/-- The order has the successors of its blocks. -/
theorem mem_order_of_succ (hb : b ∈ body.flow.order) (ht : t ∈ body.succs b) (hsize : t < body.size) :
    t ∈ body.flow.order := by
  obtain ⟨fresh, hw⟩ := body.walking_order (by omega)
  obtain ⟨hb, hfresh⟩ := hw.visited b (.inl hb)
  have ht' : t ∉ fresh := fun hmem => List.not_mem_nil (hw.onward b hb hfresh t ht hmem)
  exact (hw.pending t hsize ht').resolve_right List.not_mem_nil

/-- In front of every block but the entry there is a predecessor of it. -/
theorem order_led {l1 l2 : List Nat} (h : body.flow.order = l1 ++ b :: l2) :
    b = 0 ∨ ∃ p ∈ l1, b ∈ body.succs p := by
  have hsize := lt_size_of_mem_order (show b ∈ body.flow.order by simp [h])
  obtain ⟨fresh, hw⟩ := body.walking_order (by omega)
  obtain hb | hb | ⟨p, hp, -⟩ := hw.led l1 b l2 h
  · exact .inl hb
  · exact .inr hb
  · exact absurd hp List.not_mem_nil

end Body

namespace ScopeCheck

/-! ### The scopes that blocks start with -/

/-- The block at a position, as the check sees it: where there is none, it is empty. -/
def blockOf (body : Body) (b : Nat) : Block := (body.blocks.get? b).getD default

theorem blockOf_eq {body : Body} {b : Nat} {block : Block} (h : body.blocks.get? b = some block) :
    blockOf body b = block := by
  unfold blockOf
  rw [h]
  rfl

theorem succs_blockOf (body : Body) (b : Nat) : (blockOf body b).succs = body.succs b := by
  unfold blockOf Body.succs
  cases body.blocks.get? b <;> rfl

/-- A block is accepted from its start. Unless it departs, its successors start with the scopes open
at its end, and a block without successors closes all of them. -/
def Settles (body : Body) (starts : FinMap Nat (List String)) (b : Nat) : Prop :=
  ∃ E o flow s, starts.get? b = some o ∧
    list (blockOf body b).instrs 0 ⟨E, o⟩ = .ok (flow, s) ∧
    (flow = .fallThrough →
      (body.succs b = [] → s.opened = []) ∧ ∀ t ∈ body.succs b, starts.get? t = some s.opened)

/-- The check of a list goes through to its end. -/
def Passes (l : List Instr) : Prop := ∀ s s', list l 0 s ≠ .ok (.departed, s')

variable {body : Body} {o : List String}

variable {l : List Nat} {starts : FinMap Nat (List String)}

/-- No start is changed by handing scopes over, and every successor starts with them. -/
theorem handOver_eq_ok {starts' : FinMap Nat (List String)}
    (h : handOver body o l starts = .ok starts') :
    (∀ b v, starts.get? b = some v → starts'.get? b = some v) ∧ ∀ t ∈ l, starts'.get? t = some o := by
  induction l generalizing starts with
  | nil =>
    cases h
    exact ⟨fun _ _ hv => hv, by simp⟩
  | cons t rest ih =>
    unfold handOver at h
    cases hknown : starts.get? t with
    | some known =>
      rw [hknown] at h
      by_cases ho : known = o
      · simp only [ho, if_true] at h
        obtain ⟨hkeep, hrest⟩ := ih h
        refine ⟨hkeep, ?_⟩
        intro t' ht'
        obtain rfl | ht' := List.mem_cons.1 ht'
        · exact hkeep t' o (hknown.trans (congrArg some ho))
        · exact hrest t' ht'
      · simp only [ho, if_false] at h
        cases h
    | none =>
      rw [hknown] at h
      obtain ⟨hkeep, hrest⟩ := ih h
      constructor
      · intro b v hv
        apply hkeep
        rw [FinMap.get?_insert_ne _ _, hv]
        intro htb
        rw [← htb, hknown] at hv
        cases hv
      · intro t' ht'
        obtain rfl | ht' := List.mem_cons.1 ht'
        · exact hkeep t' o (FinMap.get?_insert_self _ _ _)
        · exact hrest t' ht'

/-- Where every block of an accepted order has a start, or a predecessor in front of it that hands it
one, the starts can be filled in so that all blocks agree with them. -/
theorem exists_starts {E : List String} (h : blocks body l starts E = .ok ())
    (hled : ∀ l1 b l2, l = l1 ++ b :: l2 → starts.get? b ≠ none ∨
      ∃ p ∈ l1, b ∈ body.succs p ∧ Passes (blockOf body p).instrs) :
    ∃ final : FinMap Nat (List String),
      (∀ b v, starts.get? b = some v → final.get? b = some v) ∧ ∀ b ∈ l, Settles body final b := by
  induction l generalizing starts E with
  | nil => exact ⟨starts, fun _ _ hv => hv, by simp⟩
  | cons b rest ih =>
    obtain ⟨o, ho⟩ : ∃ o, starts.get? b = some o := by
      have hfirst := (hled [] b rest rfl).resolve_right (by simp)
      exact Option.ne_none_iff_exists'.1 hfirst
    have hrest : ∀ l1 c l2, rest = l1 ++ c :: l2 → starts.get? c ≠ none ∨
        (c ∈ body.succs b ∧ Passes (blockOf body b).instrs) ∨
        ∃ p ∈ l1, c ∈ body.succs p ∧ Passes (blockOf body p).instrs := by
      intro l1 c l2 hl
      obtain hc | ⟨p, hp, hc⟩ := hled (b :: l1) c l2 (by rw [hl]; rfl)
      · exact .inl hc
      · obtain rfl | hp := List.mem_cons.1 hp
        · exact .inr (.inl hc)
        · exact .inr (.inr ⟨p, hp, hc⟩)
    unfold blocks at h
    rw [ho] at h
    obtain ⟨⟨flow, s⟩, hlist, h⟩ := except_bind_eq_ok.1 h
    cases flow with
    | departed =>
      -- a block that departs hands nothing over, so no block waits for it
      have hothers : blocks body rest starts s.entered = .ok () := h
      obtain ⟨final, hkeep, hsettle⟩ := ih hothers (by
        intro l1 c l2 hl
        obtain hc | ⟨-, hp⟩ | hc := hrest l1 c l2 hl
        · exact .inl hc
        · exact absurd hlist (hp _ _)
        · exact .inr hc)
      refine ⟨final, hkeep, ?_⟩
      intro c hc
      obtain rfl | hc := List.mem_cons.1 hc
      · exact ⟨E, o, .departed, s, hkeep c o ho, hlist, fun hflow => by cases hflow⟩
      · exact hsettle c hc
    | fallThrough =>
      have hclosed : body.succs b = [] → s.opened = [] := by
        intro hs
        cases hopened : s.opened with
        | nil => rfl
        | cons k ks =>
          have hsuccs : ((body.blocks.get? b).getD default).succs = [] := by
            rw [← hs]
            exact succs_blockOf body b
          simp [hsuccs, hopened] at h
      have hover : ∃ starts', handOver body s.opened (body.succs b) starts = .ok starts' ∧
          blocks body rest starts' s.entered = .ok () := by
        simp only at h
        split at h
        · cases h
        · obtain ⟨starts', hover, h⟩ := except_bind_eq_ok.1 h
          exact ⟨starts', by rw [← succs_blockOf]; exact hover, h⟩
      obtain ⟨starts', hover, h⟩ := hover
      obtain ⟨hkeep', hsuccs⟩ := handOver_eq_ok hover
      obtain ⟨final, hkeep, hsettle⟩ := ih h (by
        intro l1 c l2 hl
        obtain hc | ⟨hc, -⟩ | hc := hrest l1 c l2 hl
        · obtain ⟨v, hv⟩ := Option.ne_none_iff_exists'.1 hc
          exact .inl (by simp [hkeep' c v hv])
        · exact .inl (by simp [hsuccs c hc])
        · exact .inr hc)
      refine ⟨final, fun c v hv => hkeep c v (hkeep' c v hv), ?_⟩
      intro c hc
      obtain rfl | hc := List.mem_cons.1 hc
      · exact ⟨E, o, .fallThrough, s, hkeep c o (hkeep' c o ho), hlist,
          fun _ => ⟨hclosed, fun t ht => hkeep t _ (hsuccs t ht)⟩⟩
      · exact hsettle c hc

/-- An accepted body has starts that agree along its edges, where no block with successors departs. -/
theorem exists_starts_of_passes (h : ScopeCheck.body body = .ok ())
    (hpass : ∀ b, body.succs b ≠ [] → Passes (blockOf body b).instrs) :
    ∃ starts : FinMap Nat (List String), (0 < body.size → starts.get? 0 = some []) ∧
      ∀ b ∈ body.flow.order, Settles body starts b := by
  obtain ⟨starts, hkeep, hsettle⟩ := exists_starts h (by
    intro l1 b l2 hl
    obtain rfl | ⟨p, hp, hb⟩ := Body.order_led hl
    · left
      have hsize := Body.lt_size_of_mem_order (show 0 ∈ body.flow.order by simp [hl])
      have hentry : body.entry? = some 0 := if_neg (by omega)
      simp [hentry]
    · exact .inr ⟨p, hp, hb, hpass p (List.ne_nil_of_mem hb)⟩)
  refine ⟨starts, ?_, hsettle⟩
  intro hsize
  have hentry : body.entry? = some 0 := if_neg (by omega)
  exact hkeep 0 [] (by simp [hentry])

end ScopeCheck

end ScopedIR
