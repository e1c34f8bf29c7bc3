import ScopedIR.Body
import ScopedIR.Proofs.Generation

/-!
# Bodies that are put together step by step

Labels must tell blocks apart and are kept in an index besides the blocks, and every edge is kept at
both of its ends. However blocks, edges and instructions are added to a body, the labels are the ones
that were asked for, the index leads from each of them to its block, and the two ends of every edge
list each other once.

Main definitions:

* `Body.Edit`: one change of a body;
* `Body.build`: the body after a sequence of changes;
* `Body.Records`: a body has the labels and the edges of a sequence of changes.

Main statements: `Body.Records.apply`, for one change, and `Body.build_invariant`, for all sequences.
-/

namespace ScopedIR.Body

/-- One change of a body. -/
inductive Edit where
  | newBlock (label : String)
  | edge (source target : Nat)
  | extend (b : Nat) (instrs : List Instr)
  | insert (b index : Nat) (i : Instr)
  | replace (b index : Nat) (i : Instr)

namespace Edit

/-- The body after a change, if the change can be made. -/
def apply (body : Body) : Edit → Option Body
  | newBlock label => (body.addBlock label).toOption
  | edge source target => (body.addEdge source target).toOption
  | extend b instrs => (body.append b instrs).toOption
  | insert b index i => (body.insertInstr b index i).toOption.join
  | replace b index i => (body.replaceInstr b index i).toOption.join.map (·.2)

/-- The label of the block that is made. -/
def label? : Edit → Option String
  | newBlock label => some label
  | _ => none

/-- The ends of the edge that is added. -/
def edge? : Edit → Option (Nat × Nat)
  | edge source target => some (source, target)
  | _ => none

end Edit

/-- The body after a sequence of changes, if all of them can be made. -/
def build (edits : List Edit) : Option Body := edits.foldlM Edit.apply .empty

/-- The labels of the blocks that a sequence of changes makes, in order. -/
def made (edits : List Edit) : List String := edits.filterMap Edit.label?

/-- The edges that a sequence of changes adds, each as often as it is added. -/
def added (edits : List Edit) : List (Nat × Nat) := edits.filterMap Edit.edge?

/-- The positions that a field of a block lists. -/
def listed (field : Block → List Nat) (body : Body) (b : Nat) : List Nat :=
  (body.blocks.get? b).elim [] field

variable {body body' : Body} {b c : Nat} {f : Block → Block} {field : Block → List Nat}
  {label : String} {source target : Nat}

theorem succs_eq_listed : body.succs = body.listed Block.succs := by
  funext b
  unfold succs listed
  cases body.blocks.get? b <;> rfl

theorem preds_eq_listed : body.preds = body.listed Block.preds := by
  funext b
  unfold preds listed
  cases body.blocks.get? b <;> rfl

/-! ### What one change does -/

theorem edit_eq_ok (h : body.edit b f = .ok body') :
    b < body.size ∧ body' = { body with blocks := body.blocks.modify b f } := by
  obtain ⟨block, hblock, h⟩ := except_bind_eq_ok.1 h
  refine ⟨Nat.lt_of_not_le fun hsize => ?_, by cases h; rfl⟩
  unfold Body.block at hblock
  rw [(Arena.get?_eq_none_iff _ _).2 hsize] at hblock
  cases hblock

theorem getElem?_labels : body.labels[b]? = (body.blocks.get? b).map (·.label) := by
  simp [labels, toList, Arena.toList, Arena.get?]

theorem length_labels (body : Body) : body.labels.length = body.size := by
  simp [labels, toList, Arena.toList, size, Arena.size]

theorem size_edit (h : body.edit b f = .ok body') : body'.size = body.size := by
  obtain ⟨-, rfl⟩ := edit_eq_ok h
  exact Arena.size_modify ..

theorem labels_edit (h : body.edit b f = .ok body') (hf : ∀ block, (f block).label = block.label) :
    body'.labels = body.labels := by
  obtain ⟨-, rfl⟩ := edit_eq_ok h
  refine List.ext_getElem? fun c => ?_
  rw [getElem?_labels, getElem?_labels, Arena.get?_modify]
  split
  · rw [Option.map_map]
    exact congrArg (Option.map · _) (funext hf)
  · rfl

theorem listed_edit (h : body.edit b f = .ok body')
    (hf : ∀ block, field (f block) = field block) : body'.listed field = body.listed field := by
  obtain ⟨-, rfl⟩ := edit_eq_ok h
  funext c
  unfold listed
  rw [Arena.get?_modify]
  split
  · cases body.blocks.get? c with
    | none => rfl
    | some block => exact hf block
  · rfl

theorem listed_edit_addOnce (h : body.edit b f = .ok body')
    (hf : ∀ block, field (f block) = addOnce (field block) target) :
    body'.listed field = fun c =>
      if b = c then addOnce (body.listed field c) target else body.listed field c := by
  obtain ⟨hb, rfl⟩ := edit_eq_ok h
  funext c
  unfold listed
  rw [Arena.get?_modify]
  split
  · next hbc =>
    subst hbc
    cases hget : body.blocks.get? b with
    | none => exact absurd ((Arena.get?_eq_none_iff _ _).1 hget) (Nat.not_le.2 hb)
    | some block => exact hf block
  · rfl

theorem index_edit (h : body.edit b f = .ok body') : body'.index = body.index := by
  obtain ⟨-, rfl⟩ := edit_eq_ok h
  rfl

/-- A new block lists nothing, as its position did before. -/
theorem addBlock_eq_ok (h : body.addBlock label = .ok body') :
    body.find? label = none ∧ body'.index = body.index.insert label body.size ∧
      body'.labels = body.labels ++ [label] ∧ body'.succs = body.succs ∧ body'.preds = body.preds := by
  have hlisted : ∀ (field : Block → List Nat) index, field { label } = [] →
      listed field ⟨body.blocks.push { label }, index⟩ = body.listed field := by
    intro field index hfield
    funext b
    unfold listed
    rw [Arena.get?_push]
    split
    · next hb =>
      rw [(Arena.get?_eq_none_iff _ _).2 (Nat.le_of_eq hb.symm)]
      exact hfield
    · rfl
  unfold addBlock at h
  split at h
  · cases h
  · split at h
    · cases h
    · next hfind =>
      cases h
      rw [succs_eq_listed, preds_eq_listed, succs_eq_listed, preds_eq_listed]
      refine ⟨?_, rfl, ?_, hlisted _ _ rfl, hlisted _ _ rfl⟩
      · simpa [FinMap.contains, find?] using hfind
      · simp [labels, toList, Arena.toList, Arena.push]

/-- The two ends of a new edge list each other. -/
theorem addEdge_eq_ok (h : body.addEdge source target = .ok body') :
    body'.index = body.index ∧ body'.labels = body.labels ∧
      (body'.succs = fun b => if source = b then addOnce (body.succs b) target else body.succs b) ∧
      body'.preds = fun b => if target = b then addOnce (body.preds b) source else body.preds b := by
  obtain ⟨mid, hs, ht⟩ := except_bind_eq_ok.1 h
  simp only [succs_eq_listed, preds_eq_listed]
  refine ⟨(index_edit ht).trans (index_edit hs),
    (labels_edit ht fun _ => rfl).trans (labels_edit hs fun _ => rfl), ?_, ?_⟩
  · rw [listed_edit ht fun _ => rfl]
    exact listed_edit_addOnce hs fun _ => rfl
  · have hkept : mid.listed Block.preds = body.listed Block.preds := listed_edit hs fun _ => rfl
    rw [← hkept]
    exact listed_edit_addOnce ht fun _ => rfl

/-- A change that makes no block and adds no edge changes the instructions of one block. -/
theorem Edit.apply_instrs {e : Edit} (hl : e.label? = none) (he : e.edge? = none)
    (h : e.apply body = some body') : ∃ b, ∃ g : List Instr → List Instr,
      body.edit b (fun block => { block with instrs := g block.instrs }) = .ok body' := by
  cases e with
  | newBlock => cases hl
  | edge => cases he
  | extend b instrs => exact ⟨b, (· ++ instrs), toOption_eq_some h⟩
  | insert b index i =>
    obtain ⟨block, -, h⟩ := except_bind_eq_ok.1 (toOption_eq_some (Option.join_eq_some_iff.1 h))
    split at h
    · obtain ⟨_, hedit, h⟩ := except_bind_eq_ok.1 h
      cases h
      exact ⟨b, (·.insertIdx index i), hedit⟩
    · cases h
  | replace b index i =>
    obtain ⟨⟨old, _⟩, hreplace, rfl⟩ := Option.map_eq_some_iff.1 h
    obtain ⟨block, -, h⟩ :=
      except_bind_eq_ok.1 (toOption_eq_some (Option.join_eq_some_iff.1 hreplace))
    split at h
    · obtain ⟨_, hedit, h⟩ := except_bind_eq_ok.1 h
      cases h
      exact ⟨b, (·.set index i), hedit⟩
    · cases h

/-- Editing instructions changes no label and no edge. -/
theorem Edit.keeps {e : Edit} (hl : e.label? = none) (he : e.edge? = none)
    (h : e.apply body = some body') :
    body'.index = body.index ∧ body'.labels = body.labels ∧ body'.succs = body.succs ∧
      body'.preds = body.preds := by
  obtain ⟨b, g, hedit⟩ := Edit.apply_instrs hl he h
  simp only [succs_eq_listed, preds_eq_listed]
  exact ⟨index_edit hedit, labels_edit hedit fun _ => rfl, listed_edit hedit fun _ => rfl,
    listed_edit hedit fun _ => rfl⟩

/-! ### Sequences of changes -/

/-- The labels are those of the blocks that were made, the index leads from each of them to its block,
and each edge that was added stands once at both of its ends. -/
structure Records (edits : List Edit) (body : Body) : Prop where
  labels : body.labels = made edits
  index : ∀ label b, body.find? label = some b ↔ body.labels[b]? = some label
  succs : ∀ u v, (body.succs u).count v = if (u, v) ∈ added edits then 1 else 0
  preds : ∀ u v, (body.preds v).count u = if (u, v) ∈ added edits then 1 else 0

variable {edits : List Edit} {e : Edit}

theorem made_concat : made (edits ++ [e]) = made edits ++ e.label?.toList := by
  cases h : e.label? <;> simp [made, h]

theorem mem_added_concat {p : Nat × Nat} :
    p ∈ added (edits ++ [e]) ↔ p ∈ added edits ∨ e.edge? = some p := by
  simp [added]

theorem count_addOnce {l : List Nat} {x y : Nat} {p : Prop} [Decidable p]
    (h : l.count y = if p then 1 else 0) :
    (addOnce l x).count y = if p ∨ x = y then 1 else 0 := by
  unfold addOnce
  by_cases hy : x = y
  · subst hy
    split
    · next hmem =>
      have := List.count_pos_iff.2 hmem
      simp only [or_true, if_true]
      split at h <;> omega
    · next hmem => simp [List.count_eq_zero.2 hmem]
  · split <;> simp [hy, h]

/-- An index cannot lead from one label to two blocks. -/
theorem Records.nodup (h : Records edits body) : body.labels.Nodup := by
  refine List.pairwise_iff_getElem.2 fun i j hi hj hij heq => ?_
  have hfirst := (h.index _ i).2 (List.getElem?_eq_getElem hi)
  have hsecond := (h.index _ j).2 (List.getElem?_eq_getElem hj)
  rw [heq, hsecond, Option.some.injEq] at hfirst
  omega

/-- A new label is put into the index together with its block. -/
theorem find?_addBlock_iff (h : ∀ label b, body.find? label = some b ↔ body.labels[b]? = some label)
    (hadd : body.addBlock label = .ok body') (l : String) (b : Nat) :
    body'.find? l = some b ↔ body'.labels[b]? = some l := by
  obtain ⟨hnew, hindex, hlabels, -⟩ := addBlock_eq_ok hadd
  have hsize := body.length_labels
  have hfind : body'.find? l = if label = l then some body.size else body.find? l := by
    unfold find?
    rw [hindex, FinMap.get?_insert]
  rw [hfind, hlabels]
  by_cases hl : label = l
  · subst hl
    have hnone : body.labels[b]? ≠ some label := fun hb => by
      rw [(h label b).2 hb] at hnew
      cases hnew
    grind
  · grind

/-- One change. -/
theorem Records.apply (h : Records edits body) (he : e.apply body = some body') :
    Records (edits ++ [e]) body' := by
  have hsame : e.label? = none → e.edge? = none → Records (edits ++ [e]) body' := by
    intro hl hedge
    obtain ⟨hindex, hlabels, hsuccs, hpreds⟩ := Edit.keeps hl hedge he
    exact ⟨by simp [hlabels, made_concat, hl, h.labels], by simpa [find?, hindex, hlabels] using h.index,
      by simpa [hsuccs, mem_added_concat, hedge] using h.succs,
      by simpa [hpreds, mem_added_concat, hedge] using h.preds⟩
  cases e with
  | newBlock label =>
    obtain ⟨-, -, hlabels, hsuccs, hpreds⟩ := addBlock_eq_ok (toOption_eq_some he)
    exact ⟨by simp [hlabels, made_concat, Edit.label?, h.labels],
      find?_addBlock_iff h.index (toOption_eq_some he),
      by simpa [hsuccs, mem_added_concat, Edit.edge?] using h.succs,
      by simpa [hpreds, mem_added_concat, Edit.edge?] using h.preds⟩
  | edge source target =>
    obtain ⟨hindex, hlabels, hsuccs, hpreds⟩ := addEdge_eq_ok (toOption_eq_some he)
    refine ⟨by simp [hlabels, made_concat, Edit.label?, h.labels],
      by simpa [find?, hindex, hlabels] using h.index, fun u v => ?_, fun u v => ?_⟩
    · by_cases hu : source = u
      · simpa [hsuccs, hu, mem_added_concat, Edit.edge?] using count_addOnce (h.succs u v)
      · simpa [hsuccs, hu, mem_added_concat, Edit.edge?] using h.succs u v
    · by_cases hv : target = v
      · simpa [hpreds, hv, mem_added_concat, Edit.edge?] using count_addOnce (h.preds u v)
      · simpa [hpreds, hv, mem_added_concat, Edit.edge?] using h.preds u v
  | extend | insert | replace => exact hsame rfl rfl

/-- All changes, one after another. -/
theorem records_of_build (h : build edits = some body) : Records edits body := by
  have hrun : ∀ {rest before : List Edit} {start : Body}, Records before start →
      rest.foldlM Edit.apply start = some body → Records (before ++ rest) body := by
    intro rest
    induction rest with
    | nil =>
      rintro before start hstart ⟨⟩
      rwa [List.append_nil]
    | cons e rest ih =>
      intro before start hstart hfold
      obtain ⟨mid, he, hrest⟩ := Option.bind_eq_some_iff.1 hfold
      have := ih (hstart.apply he) hrest
      rwa [List.append_assoc] at this
  have hempty : Records [] .empty :=
    ⟨rfl, fun _ _ => ⟨nofun, nofun⟩, fun _ _ => rfl, fun _ _ => rfl⟩
  exact hrun hempty h

end ScopedIR.Body

namespace ScopedIR

open Body

/-- After any sequence of changes that can all be made, the labels are those of the blocks that were
made and are pairwise distinct, the index leads from a label to the block that carries it and to no
other, and the entry is the block that was made first. An edge that was ever added stands at both of
its ends just once, and no other edge stands anywhere. Editing instructions changes neither labels nor
index nor edges. -/
theorem build_invariant {edits : List Edit} {body : Body} (h : build edits = some body) :
    body.labels = made edits ∧ body.labels.Nodup ∧
      (∀ label b, body.find? label = some b ↔ body.labels[b]? = some label) ∧
      body.entry? = (made edits).head?.bind body.find? ∧
      (∀ u v, (body.succs u).count v = (if (u, v) ∈ added edits then 1 else 0) ∧
        (body.preds v).count u = if (u, v) ∈ added edits then 1 else 0) ∧
      ∀ (e : Edit) (body' : Body), e.label? = none → e.edge? = none → e.apply body = some body' →
        body'.index = body.index ∧ body'.labels = body.labels ∧ body'.succs = body.succs ∧
          body'.preds = body.preds := by
  have hr := records_of_build h
  refine ⟨hr.labels, hr.nodup, hr.index, ?_, fun u v => ⟨hr.succs u v, hr.preds u v⟩,
    fun e body' hl he => Edit.keeps hl he⟩
  have hsize : body.size = (made edits).length := by rw [← hr.labels, length_labels]
  unfold entry?
  cases hmade : made edits with
  | nil => simp [hsize, hmade]
  | cons first rest =>
    rw [hsize, hmade, if_neg (by simp)]
    exact ((hr.index first 0).2 (by rw [hr.labels, hmade]; rfl)).symm

/-- An edge from a block to itself and one that is added twice, with an instruction put in between. -/
theorem build_invariant_loop : ∃ body,
    build [.newBlock "entry", .newBlock "exit", .edge 0 1, .edge 0 0, .insert 0 0 default, .edge 0 1] =
      some body ∧ body.labels = ["entry", "exit"] ∧ body.entry? = some 0 ∧
      (body.succs 0).count 1 = 1 ∧ (body.preds 1).count 0 = 1 ∧ (body.preds 0).count 0 = 1 := by
  cases hbody : build [.newBlock "entry", .newBlock "exit", .edge 0 1, .edge 0 0,
      .insert 0 0 default, .edge 0 1] with
  | none =>
    have : (build [.newBlock "entry", .newBlock "exit", .edge 0 1, .edge 0 0,
      .insert 0 0 default, .edge 0 1]).isSome = true := by decide +kernel
    rw [hbody] at this
    cases this
  | some body =>
    obtain ⟨hlabels, -, hfind, hentry, hedges, -⟩ := build_invariant hbody
    refine ⟨body, rfl, hlabels, ?_, (hedges 0 1).1, (hedges 0 1).2, (hedges 0 0).2⟩
    rw [hentry]
    exact (hfind "entry" 0).2 (by rw [hlabels]; rfl)

end ScopedIR
