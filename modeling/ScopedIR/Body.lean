import ScopedIR.Arena
import ScopedIR.FinMap
import ScopedIR.Instr.Build

/-!
# Bodies of blocks

The body of an operation is a sequence of labelled blocks with edges between them. Blocks are named
by their position; the first one is the entry. An index tells where the block with a label stands.
Edges come in pairs, a successor at one end and a predecessor at the other, each kept once in the
order of insertion.

Main definitions: `Body.addBlock`, `Body.addEdge` and the edits of instructions. Each of them fails
on the position of a block that the body does not have.
-/

namespace ScopedIR

/-- A labelled sequence of instructions with its edges. -/
structure Block where
  /-- The label, unique within the body. -/
  label : String
  instrs : List Instr := []
  /-- The positions of the successors, in the order of insertion. -/
  succs : List Nat := []
  /-- The positions of the predecessors, in the order of insertion. -/
  preds : List Nat := []

instance : Inhabited Block := ⟨{ label := "" }⟩

/-- Two blocks are the same when their labels agree, which within a body they do only for one block. -/
instance : BEq Block where
  beq a b := a.label == b.label

namespace Block

/-- The last instruction. -/
def last? (b : Block) : Option Instr := b.instrs.getLast?

/-- Whether the last instruction returns. -/
def isTerminator (b : Block) : Bool :=
  match b.last? with
  | some i => i.opcode = .ret
  | none => false

/-- Whether the last instruction returns or branches. -/
def endsWithControlFlow (b : Block) : Bool :=
  match b.last? with
  | some i => i.opcode = .ret || i.opcode.isBranch
  | none => false

/-- The label and the instructions, one per line. -/
def text (b : Block) : String :=
  Text.line (b.label ++ ":") ++ String.join (b.instrs.map fun i => Text.line i.text)

end Block

/-- The blocks of one operation. -/
structure Body where
  blocks : Arena Block := .empty
  /-- The positions of the blocks by their labels. -/
  index : FinMap String Nat := .empty

namespace Body

/-- The body without blocks. -/
def empty : Body := { blocks := .empty, index := .empty }

instance : Inhabited Body := ⟨empty⟩

variable (body : Body)

/-- The number of blocks. -/
def size : Nat := body.blocks.size

/-- The entry block, which is the first one created. -/
def entry? : Option Nat := if body.size = 0 then none else some 0

/-- The blocks in the order of creation. -/
def toList : List Block := body.blocks.toList

/-- The labels in the order of creation. -/
def labels : List String := body.toList.map (·.label)

/-- The position of the block with a label. -/
def find? (label : String) : Option Nat := body.index.get? label

/-- Every top level instruction, block by block. -/
def instrs : List Instr := body.toList.flatMap (·.instrs)

/-- Add an empty block. Its label must not be empty and not be taken. -/
def addBlock (label : String) : Except Defect Body :=
  if label.isEmpty then .error .emptyLabel
  else if body.index.contains label then .error (.duplicateLabel label)
  else .ok { blocks := body.blocks.push { label }, index := body.index.insert label body.size }

/-- The block at a position. -/
def block (b : Nat) : Except Defect Block :=
  match body.blocks.get? b with
  | some block => .ok block
  | none => .error .foreignBlock

/-- Change the block at a position. -/
def edit (b : Nat) (f : Block → Block) : Except Defect Body := do
  let _ ← body.block b
  return { body with blocks := body.blocks.modify b f }

/-- Append instructions to a block. -/
def append (b : Nat) (instrs : List Instr) : Except Defect Body :=
  body.edit b fun block => { block with instrs := block.instrs ++ instrs }

/-- Put an instruction before position `index` of a block; nothing is answered when the block is
too short. -/
def insertInstr (b index : Nat) (i : Instr) : Except Defect (Option Body) := do
  let block ← body.block b
  if index ≤ block.instrs.length then
    return some (← body.edit b fun block => { block with instrs := block.instrs.insertIdx index i })
  else
    return none

/-- Replace the instruction at position `index` of a block, and answer the old one; nothing is
answered when the block is too short. -/
def replaceInstr (b index : Nat) (i : Instr) :
    Except Defect (Option (Instr × Body)) := do
  let block ← body.block b
  match block.instrs[index]? with
  | some old =>
    return some (old, ← body.edit b fun block => { block with instrs := block.instrs.set index i })
  | none => return none

/-- Attach an escape fact to the instruction at position `index` of a block; nothing is answered
when the block is too short. -/
def setEscape (b index : Nat) (fact : EscapeFact) : Except Defect (Option Body) := do
  let block ← body.block b
  match block.instrs[index]? with
  | some old =>
    let i ← old.setEscape fact
    return some (← body.edit b fun block => { block with instrs := block.instrs.set index i })
  | none => return none

/-- The list with `x` at its end, unless it is there already. -/
def addOnce (l : List Nat) (x : Nat) : List Nat := if x ∈ l then l else l ++ [x]

/-- Add an edge, at both ends. An edge that exists is not added again. -/
def addEdge (source target : Nat) : Except Defect Body := do
  let body ← body.edit source fun block => { block with succs := addOnce block.succs target }
  body.edit target fun block => { block with preds := addOnce block.preds source }

/-- The successors of a block; a position without block has none. -/
def succs (b : Nat) : List Nat :=
  match body.blocks.get? b with
  | some block => block.succs
  | none => []

/-- The predecessors of a block; a position without block has none. -/
def preds (b : Nat) : List Nat :=
  match body.blocks.get? b with
  | some block => block.preds
  | none => []

/-- Replace the instructions of every block, keeping labels and edges. -/
def replaceInstrsM {m : Type → Type} [Monad m] (f : List Instr → m (List Instr)) :
    m Body := do
  let blocks ← body.toList.mapM fun block => do
    let instrs ← f block.instrs
    return { block with instrs }
  return { body with blocks := ⟨blocks.toArray⟩ }

theorem mem_addOnce (l : List Nat) (x y : Nat) : y ∈ addOnce l x ↔ y ∈ l ∨ y = x := by
  unfold addOnce
  split
  · constructor
    · exact Or.inl
    · rintro (h | rfl) <;> assumption
  · simp

theorem nodup_addOnce {l : List Nat} (h : l.Nodup) (x : Nat) : (addOnce l x).Nodup := by
  unfold addOnce
  split
  · exact h
  · next hx =>
    rw [List.nodup_append]
    refine ⟨h, by simp, fun a ha b hb => ?_⟩
    simp only [List.mem_singleton] at hb
    subst hb
    rintro rfl
    exact hx ha

end Body

end ScopedIR
