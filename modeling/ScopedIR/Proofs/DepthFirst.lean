import ScopedIR.Proofs.FlowOrder

/-!
# The summary of a depth-first walk

The order of a body lists the blocks that edges lead to from the entry, each once and the entry first.
An edge that does not lead forward in the order leads back: its source can be reached from its target.
On a part of the body without circles the order is therefore a topological one.

A block is put in front of the order when it is left. By then its successors have been visited, so each
of them is in the order already or is left later. In the second case the walk has come from it, since
whatever lies above a block on the stack can be reached from that block.

The edges from a block are listed at its first visit, in its own list of successors and in the lists of
predecessors of blocks that may be visited much later. So at every moment the lists have the edges from
the blocks visited so far.

Main definitions:

* `Body.Reachable`: a block that edges lead to from the entry;
* `FlowSummary.Awaits`: fresh successors of a block are visited before the block is left;
* `FlowSummary.Descends`: what lies above a block on the stack can be reached from it;
* `FlowSummary.Listed`: the edges from the visited blocks are listed at both ends;
* `FlowSummary.DepthFirst`: what holds at every moment of a walk, besides `FlowSummary.Walking`.

Main statement: `flow_depthFirst`.
-/

namespace ScopedIR

/-- The block that a task leaves. -/
def FlowTask.left? : FlowTask → Option Nat
  | .visit _ => none
  | .leave b => some b

namespace Body

variable {body : Body} {a b c : Nat}

/-- A block that edges lead to from the entry. -/
def Reachable (body : Body) (b : Nat) : Prop := b < body.size ∧ ∃ e ∈ body.entry?, body.Reaches e b

theorem Reaches.trans (h : body.Reaches a b) (h' : body.Reaches b c) : body.Reaches a c := by
  induction h with
  | refl => exact h'
  | step hedge _ ih => exact .step hedge (ih h')

theorem Reaches.edge (h : b ∈ body.succs a) : body.Reaches a b := .step h (.refl b)

theorem addOnce_of_mem {l : List Nat} {x : Nat} (h : x ∈ l) : addOnce l x = l := if_pos h

theorem mem_foldl_addOnce (l acc : List Nat) (x : Nat) :
    x ∈ l.foldl addOnce acc ↔ x ∈ acc ∨ x ∈ l := by
  induction l generalizing acc with
  | nil => simp
  | cons y rest ih => rw [List.foldl_cons, ih, mem_addOnce, List.mem_cons, or_assoc]

theorem nodup_foldl_addOnce (l : List Nat) {acc : List Nat} (h : acc.Nodup) :
    (l.foldl addOnce acc).Nodup := by
  induction l generalizing acc with
  | nil => exact h
  | cons y rest ih => exact ih (nodup_addOnce h y)

end Body

namespace FlowSummary

/-! ### Stacks of a walk -/

/-- The fresh successors of every block that is still to be left are visited before, by a task above
it; the blocks in `above` are visited by tasks above the stack. -/
def Awaits (succs : Nat → List Nat) (fresh : List Nat) : List Nat → List FlowTask → Prop
  | _, [] => True
  | above, .visit b :: rest => Awaits succs fresh (b :: above) rest
  | above, .leave b :: rest => (∀ t ∈ succs b, t ∈ fresh → t ∈ above) ∧ Awaits succs fresh above rest

/-- What lies above a block that is still to be left can be reached from it. -/
def Descends (body : Body) : List FlowTask → Prop
  | [] => True
  | t :: rest => (∀ p, .leave p ∈ rest → body.Reaches p t.block) ∧ Descends body rest

section

variable {succs : Nat → List Nat} {fresh above : List Nat} {rest : List FlowTask} {body : Body}
  {b : Nat}

/-- Blocks may be visited from further above, as far as they are fresh. -/
theorem Awaits.mono {fresh' above' : List Nat} (h : Awaits succs fresh above rest)
    (hfresh : fresh' ⊆ fresh) (habove : ∀ t ∈ above, t ∈ fresh' → t ∈ above') :
    Awaits succs fresh' above' rest := by
  induction rest generalizing above above' with
  | nil => trivial
  | cons task rest ih =>
    cases task with
    | visit b =>
      have h' : Awaits succs fresh (b :: above) rest := h
      refine ih h' fun t ht htf => ?_
      obtain rfl | ht := List.mem_cons.1 ht
      · exact List.mem_cons_self
      · exact List.mem_cons_of_mem _ (habove t ht htf)
    | leave b =>
      exact ⟨fun t ht htf => habove t (h.1 t ht (hfresh htf)) htf, ih h.2 habove⟩

theorem Awaits.visits (l : List Nat) (h : Awaits succs fresh (l.reverse ++ above) rest) :
    Awaits succs fresh above (l.map .visit ++ rest) := by
  induction l generalizing above with
  | nil => exact h
  | cons t l ih =>
    show Awaits succs fresh (t :: above) (l.map .visit ++ rest)
    apply ih
    rwa [List.reverse_cons, List.append_assoc, List.singleton_append] at h

/-- The successors of a block are reached from whatever the block is reached from. -/
theorem Descends.visits {l : List Nat} (hl : l ⊆ body.succs b)
    (h : Descends body (.leave b :: rest)) : Descends body (l.map .visit ++ .leave b :: rest) := by
  induction l with
  | nil => exact h
  | cons t l ih =>
    have ht : body.Reaches b t := .edge (hl List.mem_cons_self)
    refine ⟨fun p hp => ?_, ih fun x hx => hl (List.mem_cons_of_mem _ hx)⟩
    have hp : p = b ∨ .leave p ∈ rest := by simpa using hp
    obtain rfl | hp := hp
    · exact ht
    · exact (h.1 p hp).trans ht

end

/-! ### Listed edges -/

theorem get?_revise (m : FinMap Nat (List Nat)) (k a : Nat) (f : List Nat → List Nat) :
    (revise m k f).get? a = if k = a then some (f ((m.get? k).getD [])) else m.get? a :=
  FinMap.get?_insert m k a _

/-- The lists that one block is added to, in turn and perhaps more than once. -/
theorem get?_foldl_revise (targets : List Nat) (m : FinMap Nat (List Nat)) (b v : Nat) :
    (targets.foldl (fun preds t => revise preds t (Body.addOnce · b)) m).get? v =
      if v ∈ targets then some (Body.addOnce ((m.get? v).getD []) b) else m.get? v := by
  induction targets generalizing m with
  | nil => rfl
  | cons t rest ih =>
    rw [List.foldl_cons, ih, get?_revise]
    by_cases htv : t = v
    · subst htv
      simp [Body.addOnce_of_mem ((Body.mem_addOnce _ b b).2 (.inr rfl))]
    · simp [htv, Ne.symm htv]

/-- The blocks visited so far are those of the body that are not fresh. -/
def Visited (body : Body) (fresh : List Nat) (b : Nat) : Prop := b < body.size ∧ b ∉ fresh

/-- The edges from the visited blocks are listed at both ends. -/
structure Listed (body : Body) (fresh : List Nat) (succs preds : FinMap Nat (List Nat)) : Prop where
  succs_visited : ∀ u, Visited body fresh u →
    succs.get? u = some ((body.succs u).foldl Body.addOnce [])
  succs_fresh : ∀ u, ¬ Visited body fresh u → succs.get? u = none
  preds_visited : ∀ v, Visited body fresh v → (preds.get? v).isSome = true
  nodup_preds : ∀ v, ((preds.get? v).getD []).Nodup
  mem_preds : ∀ u v, u ∈ (preds.get? v).getD [] ↔ Visited body fresh u ∧ v ∈ body.succs u

namespace Listed

variable {body : Body} {fresh : List Nat} {found : FlowSummary} {b : Nat}

theorem begin (body : Body) : Listed body (List.range body.size) .empty .empty where
  succs_visited := fun _ hu => absurd (List.mem_range.2 hu.1) hu.2
  succs_fresh := fun _ _ => rfl
  preds_visited := fun _ hv => absurd (List.mem_range.2 hv.1) hv.2
  nodup_preds := fun _ => List.nodup_nil
  mem_preds := by
    intro u v
    have hnone : ¬ Visited body (List.range body.size) u := fun hu => hu.2 (List.mem_range.2 hu.1)
    simp [hnone, FinMap.get?, FinMap.find, FinMap.empty]

theorem visited_erase_iff (hfresh : fresh.Nodup) (hb : b < body.size) (c : Nat) :
    Visited body (fresh.erase b) c ↔ c = b ∨ Visited body fresh c := by
  unfold Visited
  rw [hfresh.mem_erase_iff]
  by_cases hc : c = b
  · simp [hc, hb]
  · simp [hc]

/-- The edges from one more block are listed. -/
theorem meet (h : Listed body fresh found.succs found.preds) (hfresh : fresh.Nodup)
    (hsize : b < body.size) (hb : b ∈ fresh) :
    Listed body (fresh.erase b) (found.meet b (body.succs b)).succs
      (found.meet b (body.succs b)).preds := by
  have hvisited := visited_erase_iff hfresh hsize
  have hnew : ¬ Visited body fresh b := fun hv => hv.2 hb
  have hsuccs : ∀ u, (found.meet b (body.succs b)).succs.get? u =
      if b = u then some ((body.succs b).foldl Body.addOnce []) else found.succs.get? u := by
    intro u
    refine (get?_revise ..).trans ?_
    rw [h.succs_fresh b hnew]
    rfl
  have hpreds : ∀ v, (found.meet b (body.succs b)).preds.get? v =
      if v ∈ body.succs b then some (Body.addOnce ((found.preds.get? v).getD []) b)
      else if b = v then some ((found.preds.get? v).getD []) else found.preds.get? v := by
    intro v
    refine (get?_foldl_revise ..).trans ?_
    rw [get?_revise]
    by_cases hbv : b = v <;> simp [hbv]
  have hlist : ∀ v, ((found.meet b (body.succs b)).preds.get? v).getD [] =
      if v ∈ body.succs b then Body.addOnce ((found.preds.get? v).getD []) b
      else (found.preds.get? v).getD [] := by
    intro v
    rw [hpreds]
    split
    · rfl
    · split <;> rfl
  constructor
  case succs_visited =>
    intro u hu
    rw [hsuccs]
    obtain rfl | hu := (hvisited u).1 hu
    · exact if_pos rfl
    · rw [if_neg (fun hbu : b = u => hnew (hbu ▸ hu))]
      exact h.succs_visited u hu
  case succs_fresh =>
    intro u hu
    rw [hsuccs, if_neg (fun hbu : b = u => hu ((hvisited u).2 (.inl hbu.symm)))]
    exact h.succs_fresh u fun hv => hu ((hvisited u).2 (.inr hv))
  case preds_visited =>
    intro v hv
    rw [hpreds]
    obtain rfl | hv := (hvisited v).1 hv
    · split <;> simp
    · have hsome := h.preds_visited v hv
      split
      · rfl
      · split
        · rfl
        · exact hsome
  case nodup_preds =>
    intro v
    rw [hlist]
    split
    · exact Body.nodup_addOnce (h.nodup_preds v) b
    · exact h.nodup_preds v
  case mem_preds =>
    intro u v
    rw [hlist, hvisited]
    by_cases hv : v ∈ body.succs b
    · rw [if_pos hv, Body.mem_addOnce, h.mem_preds]
      constructor
      · rintro (⟨hu, huv⟩ | rfl)
        · exact ⟨.inr hu, huv⟩
        · exact ⟨.inl rfl, hv⟩
      · rintro ⟨rfl | hu, huv⟩
        · exact .inr rfl
        · exact .inl ⟨hu, huv⟩
    · rw [if_neg hv, h.mem_preds]
      constructor
      · exact fun hu => ⟨.inr hu.1, hu.2⟩
      · rintro ⟨rfl | hu, huv⟩
        · exact absurd huv hv
        · exact ⟨hu, huv⟩

end Listed

/-! ### Moments of a walk -/

/-- In the order, `v` comes somewhere after `u`. -/
def Follows (order : List Nat) (u v : Nat) : Prop := ∃ l1 l2, order = l1 ++ u :: l2 ∧ v ∈ l2

theorem Follows.cons {order : List Nat} {u v : Nat} (h : Follows order u v) (b : Nat) :
    Follows (b :: order) u v := by
  obtain ⟨l1, l2, rfl, hv⟩ := h
  exact ⟨b :: l1, l2, rfl, hv⟩

/-- What holds of a depth-first walk through a body at every moment. -/
structure DepthFirst (body : Body) (fresh : List Nat) (stack : List FlowTask) (found : FlowSummary) :
    Prop where
  walking : Walking body.succs 0 body.size fresh stack found.order
  /-- Every block is left once. -/
  once : (stack.filterMap FlowTask.left? ++ found.order).Nodup
  listed : Listed body fresh found.succs found.preds
  awaits : Awaits body.succs fresh [] stack
  descends : Descends body stack
  /-- The edges from blocks of the order lead forward, or back to where the walk came from. -/
  edges : ∀ u ∈ found.order, ∀ v ∈ body.succs u, v < body.size →
    Follows found.order u v ∨ body.Reaches v u

namespace DepthFirst

variable {body : Body} {fresh : List Nat} {rest : List FlowTask} {found : FlowSummary} {b : Nat}

theorem begin (body : Body) : DepthFirst body (List.range body.size) [.visit 0] {} where
  walking := Walking.begin body.succs 0 body.size
  once := List.nodup_nil
  listed := .begin body
  awaits := trivial
  descends := ⟨by simp, trivial⟩
  edges := by simp

/-- A block is left. Its successors are in the order already, or the walk came from them. -/
theorem leave (h : DepthFirst body fresh (.leave b :: rest) found) :
    DepthFirst body fresh rest { found with order := b :: found.order } where
  walking := h.walking.leave
  once := by
    have hperm : (rest.filterMap FlowTask.left? ++ b :: found.order).Perm
        (b :: (rest.filterMap FlowTask.left? ++ found.order)) := List.perm_middle
    exact hperm.nodup_iff.2 h.once
  listed := h.listed
  awaits := h.awaits.2
  descends := h.descends.2
  edges := by
    intro u hu v hv hsize
    obtain rfl | hu := List.mem_cons.1 hu
    · have hvisited : v ∉ fresh := fun hfresh => List.not_mem_nil (h.awaits.1 v hv hfresh)
      obtain hmem | hleft := h.walking.pending v hsize hvisited
      · exact .inl ⟨[], found.order, rfl, hmem⟩
      · right
        obtain heq | hleft := List.mem_cons.1 hleft
        · obtain rfl : v = u := by injection heq
          exact .refl v
        · exact h.descends.1 v hleft
    · exact (h.edges u hu v hv hsize).imp_left fun hf => hf.cons b

/-- A fresh block is visited. -/
theorem visit (h : DepthFirst body fresh (.visit b :: rest) found) (hb : b ∈ fresh) :
    DepthFirst body (fresh.erase b)
      (((body.succs b).filter (· ∈ fresh.erase b)).map .visit ++ .leave b :: rest)
      (found.meet b (body.succs b)) where
  walking := h.walking.visit hb
  once := by
    have hvisits (l : List Nat) : (l.map FlowTask.visit).filterMap FlowTask.left? = [] := by
      simp [FlowTask.left?]
    have hnew : b ∉ rest.filterMap FlowTask.left? ++ found.order := by
      intro hmem
      have hmem : b ∈ found.order ∨ .leave b ∈ FlowTask.visit b :: rest := by
        obtain hmem | hmem := List.mem_append.1 hmem
        · obtain ⟨task, htask, hleft⟩ := List.mem_filterMap.1 hmem
          cases task with
          | visit c => cases hleft
          | leave c =>
            obtain rfl : c = b := by injection hleft
            exact .inr (List.mem_cons_of_mem _ htask)
        · exact .inl hmem
      exact (h.walking.visited b hmem).2 hb
    rw [List.filterMap_append, hvisits, List.nil_append]
    exact List.nodup_cons.2 ⟨hnew, h.once⟩
  listed := h.listed.meet h.walking.nodup (h.walking.inside b hb) hb
  awaits := by
    apply Awaits.visits
    constructor
    · intro t ht hfresh
      have hvisit : t ∈ (body.succs b).filter (· ∈ fresh.erase b) :=
        List.mem_filter.2 ⟨ht, decide_eq_true hfresh⟩
      exact List.mem_append_left _ (List.mem_reverse.2 hvisit)
    · have hawaits : Awaits body.succs fresh [b] rest := h.awaits
      refine hawaits.mono (fun c hc => List.mem_of_mem_erase hc) fun t ht htf => ?_
      obtain rfl := List.mem_singleton.1 ht
      exact absurd rfl ((List.Nodup.mem_erase_iff h.walking.nodup).1 htf).1
  descends := Descends.visits (fun _ ht => (List.mem_filter.1 ht).1) h.descends
  edges := h.edges

/-- A block that was visited before is passed over. -/
theorem skip (h : DepthFirst body fresh (.visit b :: rest) found) (hb : b ∉ fresh) :
    DepthFirst body fresh rest found where
  walking := h.walking.skip hb
  once := h.once
  listed := h.listed
  awaits := by
    have hawaits : Awaits body.succs fresh [b] rest := h.awaits
    refine hawaits.mono (fun _ hc => hc) fun t ht htf => ?_
    exact absurd (List.mem_singleton.1 ht ▸ htf) hb
  descends := h.descends.2
  edges := h.edges

/-- A walk ends with nothing left to do. -/
theorem walk {stack : List FlowTask} (h : DepthFirst body fresh stack found) :
    ∃ fresh', DepthFirst body fresh' [] (FlowSummary.walk body.succs fresh stack found) := by
  fun_induction FlowSummary.walk body.succs fresh stack found with
  | case1 fresh found => exact ⟨fresh, h⟩
  | case2 fresh found b rest ih => exact ih h.leave
  | case3 fresh found b rest hb ih => exact ih (h.visit hb)
  | case4 fresh found b rest hb ih => exact ih (h.skip hb)

end DepthFirst

end FlowSummary

/-! ### Summaries of bodies -/

namespace Body

variable {body : Body} {b u v : Nat}

theorem flow_of_size_eq_zero (h : body.size = 0) : body.flow = {} := by
  have hentry : body.entry? = none := if_pos h
  unfold flow
  rw [hentry]
  simp [FlowSummary.walk]

theorem depthFirst_flow (h : 0 < body.size) :
    ∃ fresh, FlowSummary.DepthFirst body fresh [] body.flow := by
  have hentry : body.entry? = some 0 := if_neg (by omega)
  unfold flow
  rw [hentry]
  exact (FlowSummary.DepthFirst.begin body).walk

theorem nodup_order (body : Body) : body.flow.order.Nodup := by
  by_cases h : 0 < body.size
  · obtain ⟨fresh, hd⟩ := depthFirst_flow h
    exact hd.once
  · rw [flow_of_size_eq_zero (by omega)]
    exact List.nodup_nil

theorem head?_order (body : Body) : body.flow.order.head? = body.entry? := by
  by_cases h : 0 < body.size
  · have hentry : body.entry? = some 0 := if_neg (by omega)
    cases horder : body.flow.order with
    | nil =>
      have hmem := entry_mem_order h
      rw [horder] at hmem
      exact absurd hmem List.not_mem_nil
    | cons b rest =>
      have hfirst : body.flow.order = [] ++ b :: rest := horder
      obtain rfl : b = 0 := (order_led hfirst).resolve_right (by simp)
      exact hentry.symm
  · have hentry : body.entry? = none := if_pos (by omega)
    rw [flow_of_size_eq_zero (by omega), hentry]
    rfl

/-- The blocks of the order are led to one after the other. -/
theorem reaches_of_order_eq (l1 : List Nat) (b : Nat) {l2 : List Nat}
    (h : body.flow.order = l1 ++ b :: l2) : body.Reaches 0 b := by
  obtain rfl | ⟨p, hp, hedge⟩ := order_led h
  · exact .refl 0
  · obtain ⟨m1, m2, hsplit⟩ := List.append_of_mem hp
    have hshort : m1.length < l1.length := by
      rw [hsplit, List.length_append, List.length_cons]
      omega
    have hp : body.flow.order = m1 ++ p :: (m2 ++ b :: l2) := by
      rw [h, hsplit, List.append_assoc, List.cons_append]
    exact (reaches_of_order_eq m1 p hp).trans (.edge hedge)
termination_by l1.length

/-- Only blocks have successors. -/
theorem lt_size_of_mem_succs (h : v ∈ body.succs u) : u < body.size := by
  unfold succs at h
  cases hblock : body.blocks.get? u with
  | none =>
    rw [hblock] at h
    exact absurd h List.not_mem_nil
  | some block =>
    have hsize : ¬ body.blocks.size ≤ u := fun hle => by
      rw [(Arena.get?_eq_none_iff _ _).2 hle] at hblock
      cases hblock
    exact Nat.lt_of_not_le hsize

theorem mem_order_of_reaches (h : body.Reaches u v) (hu : u ∈ body.flow.order)
    (hv : v < body.size) : v ∈ body.flow.order := by
  induction h with
  | refl => exact hu
  | @step a b c hedge hrest ih =>
    have hb : b < body.size := by
      cases hrest with
      | refl => exact hv
      | step hedge' _ => exact lt_size_of_mem_succs hedge'
    exact ih (mem_order_of_succ hu hedge hb) hv

/-- The order lists the blocks that edges lead to from the entry. -/
theorem mem_order_iff (b : Nat) : b ∈ body.flow.order ↔ body.Reachable b := by
  constructor
  · intro hb
    have hsize := lt_size_of_mem_order hb
    have hentry : body.entry? = some 0 := if_neg (by omega)
    obtain ⟨l1, l2, hsplit⟩ := List.append_of_mem hb
    exact ⟨hsize, 0, hentry, reaches_of_order_eq l1 b hsplit⟩
  · rintro ⟨hsize, e, he, hreaches⟩
    have hentry : body.entry? = some 0 := if_neg (by omega)
    obtain rfl : 0 = e := Option.some.inj (hentry.symm.trans he)
    exact mem_order_of_reaches hreaches (entry_mem_order (by omega)) hsize

/-- At the end of the walk the visited blocks are the reachable ones, and their edges are listed. -/
theorem listed_flow (h : 0 < body.size) : ∃ fresh,
    FlowSummary.Listed body fresh body.flow.succs body.flow.preds ∧
      ∀ b, FlowSummary.Visited body fresh b ↔ body.Reachable b := by
  obtain ⟨fresh, hd⟩ := depthFirst_flow h
  refine ⟨fresh, hd.listed, fun b => ?_⟩
  rw [← mem_order_iff]
  constructor
  · rintro ⟨hsize, hfresh⟩
    exact (hd.walking.pending b hsize hfresh).resolve_right List.not_mem_nil
  · exact fun hb => hd.walking.visited b (.inl hb)

theorem isReachable_iff (b : Nat) : body.flow.isReachable b = true ↔ body.Reachable b := by
  unfold FlowSummary.isReachable FinMap.contains
  by_cases h : 0 < body.size
  · obtain ⟨fresh, hlisted, hvisited⟩ := listed_flow h
    rw [← hvisited]
    by_cases hb : FlowSummary.Visited body fresh b
    · simp [hb, hlisted.succs_visited b hb]
    · simp [hb, hlisted.succs_fresh b hb]
  · have hsize : ¬ body.Reachable b := fun hb => h (Nat.zero_lt_of_lt hb.1)
    rw [flow_of_size_eq_zero (by omega)]
    exact iff_of_false Bool.false_ne_true hsize

/-- Positions tell which of two blocks comes first in an order that has each block once. -/
theorem idxOf_lt_of_follows {order : List Nat} (hnodup : order.Nodup)
    (h : FlowSummary.Follows order u v) : order.idxOf u < order.idxOf v := by
  obtain ⟨l1, l2, rfl, hv⟩ := h
  obtain ⟨-, hnodup2, hdisjoint⟩ := List.nodup_append.1 hnodup
  have hu1 : u ∉ l1 := fun hmem => hdisjoint u hmem u List.mem_cons_self rfl
  have hv1 : v ∉ l1 := fun hmem => hdisjoint v hmem v (List.mem_cons_of_mem _ hv) rfl
  have hne : (u == v) = false := beq_eq_false_iff_ne.2 fun heq =>
    (List.nodup_cons.1 hnodup2).1 (heq ▸ hv)
  rw [List.idxOf_append, List.idxOf_append, if_neg hu1, if_neg hv1, List.idxOf_cons_self,
    List.idxOf_cons, hne, cond_false]
  omega

/-- An edge that does not lead forward leads back. -/
theorem reaches_of_back_edge (hu : u ∈ body.flow.order) (hv : v ∈ body.flow.order)
    (hedge : v ∈ body.succs u) (hback : ¬ body.flow.order.idxOf u < body.flow.order.idxOf v) :
    body.Reaches v u := by
  have hsize := lt_size_of_mem_order hv
  have hpos : 0 < body.size := by omega
  obtain ⟨fresh, hd⟩ := depthFirst_flow hpos
  exact (hd.edges u hu v hedge hsize).resolve_left fun hf =>
    hback (idxOf_lt_of_follows body.nodup_order hf)

end Body

/-- The summary of any body, whatever its edges are: the order lists the blocks that edges lead to from
the entry, each once and the entry first; an edge between them that does not lead forward in the order
has a path back, so that without circles all edges lead forward; and the successors and predecessors
listed for these blocks are those of the edges between them, each once. -/
theorem flow_depthFirst (body : Body) :
    (body.flow.order.Nodup ∧ body.flow.order.head? = body.entry? ∧
      ∀ b, b ∈ body.flow.order ↔ body.Reachable b) ∧
    (∀ u v, body.Reachable u → body.Reachable v → v ∈ body.succs u →
      ¬ body.flow.order.idxOf u < body.flow.order.idxOf v → body.Reaches v u) ∧
    ((∀ u v, body.Reachable u → body.Reachable v → v ∈ body.succs u → ¬ body.Reaches v u) →
      ∀ u v, body.Reachable u → body.Reachable v → v ∈ body.succs u →
        body.flow.order.idxOf u < body.flow.order.idxOf v) ∧
    (∀ b, body.flow.isReachable b = true ↔ body.Reachable b) ∧
    ∀ u v, body.Reachable u → body.Reachable v →
      ∃ succs preds, body.flow.succs.get? u = some succs ∧
        body.flow.preds.get? v = some preds ∧ succs.Nodup ∧ preds.Nodup ∧
        (v ∈ succs ↔ v ∈ body.succs u) ∧ (u ∈ preds ↔ v ∈ body.succs u) := by
  have hback : ∀ u v, body.Reachable u → body.Reachable v → v ∈ body.succs u →
      ¬ body.flow.order.idxOf u < body.flow.order.idxOf v → body.Reaches v u :=
    fun u v hu hv =>
      Body.reaches_of_back_edge ((Body.mem_order_iff u).2 hu) ((Body.mem_order_iff v).2 hv)
  refine ⟨⟨body.nodup_order, body.head?_order, Body.mem_order_iff⟩, hback, ?_,
    Body.isReachable_iff, ?_⟩
  · intro hacyclic u v hu hv hedge
    by_cases hlt : body.flow.order.idxOf u < body.flow.order.idxOf v
    · exact hlt
    · exact absurd (hback u v hu hv hedge hlt) (hacyclic u v hu hv hedge)
  · intro u v hu hv
    obtain ⟨fresh, hlisted, hvisited⟩ := Body.listed_flow (Nat.zero_lt_of_lt hu.1)
    obtain ⟨preds, hpreds⟩ := Option.isSome_iff_exists.1
      (hlisted.preds_visited v ((hvisited v).2 hv))
    have hnodup := hlisted.nodup_preds v
    have hmem := hlisted.mem_preds u v
    rw [hpreds, Option.getD_some] at hnodup hmem
    refine ⟨_, preds, hlisted.succs_visited u ((hvisited u).2 hu), hpreds,
      Body.nodup_foldl_addOnce _ List.nodup_nil, hnodup, ?_, ?_⟩
    · simp [Body.mem_foldl_addOnce]
    · rw [hmem, hvisited]
      exact and_iff_right hu

/-- A circle through the entry, a block that leads to itself, and one that nothing leads to. -/
def circleWithTail : Body :=
  { blocks :=
      ⟨#[{ label := "entry", succs := [1, 2], preds := [1] },
         { label := "round", succs := [0, 1], preds := [0, 1, 3] },
         { label := "end", preds := [0] },
         { label := "dead", succs := [1] }]⟩
    index := ⟨[("dead", 3), ("end", 2), ("round", 1), ("entry", 0)]⟩ }

theorem flow_depthFirst_circleWithTail :
    circleWithTail.flow.order = [0, 2, 1] ∧ circleWithTail.Reaches 0 1 ∧
      ¬ circleWithTail.Reachable 3 := by
  have horder : circleWithTail.flow.order = [0, 2, 1] := by cbv
  obtain ⟨⟨-, -, hmem⟩, hback, -⟩ := flow_depthFirst circleWithTail
  simp only [horder] at hmem hback
  have hround : circleWithTail.Reachable 1 := (hmem 1).1 (by decide)
  have hentry : circleWithTail.Reachable 0 := (hmem 0).1 (by decide)
  refine ⟨horder, hback 1 0 hround hentry (by decide) (by decide), ?_⟩
  exact fun h => absurd ((hmem 3).2 h) (by decide)

end ScopedIR
