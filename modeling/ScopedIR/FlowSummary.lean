import ScopedIR.Body

/-!
# Summaries of the control flow

The blocks reachable from the entry of a body, in reverse postorder of a depth-first walk that takes
successors in their order, with the edges between them. A summary is a snapshot: it is not changed by
later edits of the body.

Main definitions:

* `FlowSummary.meet`: the edges of a block, as they are listed at its first visit;
* `FlowSummary.walk`: the depth-first walk with an explicit stack. It ends because a block leaves
  the list of fresh blocks when it is first visited;
* `Body.flow`: the summary of a body;
* `Body.Reaches`: reachability along edges, the relation the summary is about.
-/

namespace ScopedIR

/-- What a walk has left to do with a block. -/
inductive FlowTask where
  /-- Visit it and then everything it leads to, if it is fresh. -/
  | visit (b : Nat)
  /-- Everything it leads to is done. -/
  | leave (b : Nat)
deriving DecidableEq, Inhabited

/-- What a walk has found. -/
structure FlowSummary where
  /-- The successors of each visited block. -/
  succs : FinMap Nat (List Nat) := .empty
  /-- The predecessors of each visited block, as far as they are visited themselves. -/
  preds : FinMap Nat (List Nat) := .empty
  /-- The visited blocks in reverse postorder. -/
  order : List Nat := []
deriving DecidableEq, Inhabited

namespace FlowSummary

/-- Change the list under a key, where a missing one is empty. -/
def revise (m : FinMap Nat (List Nat)) (k : Nat) (f : List Nat → List Nat) :
    FinMap Nat (List Nat) :=
  m.insert k (f ((m.get? k).getD []))

/-- List the edges from a block to its successors, at both ends and each once. -/
def meet (found : FlowSummary) (b : Nat) (succs : List Nat) : FlowSummary :=
  { found with
    succs := revise found.succs b fun listed => succs.foldl Body.addOnce listed
    preds := succs.foldl (fun preds t => revise preds t (Body.addOnce · b))
      (revise found.preds b fun listed => listed) }

@[simp] theorem order_meet (found : FlowSummary) (b : Nat) (succs : List Nat) :
    (found.meet b succs).order = found.order := rfl

/-- The depth-first walk. The blocks in `fresh` were not visited yet. A block may stand on the stack
more than once, and is passed over when it comes up again. -/
def walk (succs : Nat → List Nat) (fresh : List Nat) (stack : List FlowTask) (found : FlowSummary) :
    FlowSummary :=
  match stack with
  | [] => found
  | .leave b :: rest => walk succs fresh rest { found with order := b :: found.order }
  | .visit b :: rest =>
    if b ∈ fresh then
      walk succs (fresh.erase b)
        (((succs b).filter (· ∈ fresh.erase b)).map .visit ++ .leave b :: rest)
        (found.meet b (succs b))
    else walk succs fresh rest found
termination_by (fresh.length, stack.length)
decreasing_by
  · exact Prod.Lex.right _ (Nat.lt_succ_self _)
  · next h =>
    refine Prod.Lex.left _ _ ?_
    rw [List.length_erase_of_mem h]
    have := List.length_pos_of_mem h
    omega
  · exact Prod.Lex.right _ (Nat.lt_succ_self _)

/-- Whether a block was visited. -/
def isReachable (s : FlowSummary) (b : Nat) : Bool := s.succs.contains b

/-- The reachable blocks in the order of their positions. -/
def reachable (s : FlowSummary) : List Nat := s.succs.keys.mergeSort

end FlowSummary

namespace Body

/-- Reachability along edges, in any number of steps. -/
inductive Reaches (body : Body) : Nat → Nat → Prop
  | refl (a : Nat) : Reaches body a a
  | step {a b c : Nat} : b ∈ body.succs a → Reaches body b c → Reaches body a c

/-- The summary of the walk from the entry. -/
def flow (body : Body) : FlowSummary :=
  FlowSummary.walk body.succs (List.range body.size) (body.entry?.toList.map .visit) {}

end Body

end ScopedIR
