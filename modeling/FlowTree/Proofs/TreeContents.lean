import FlowTree.Lowering.Tree
import FlowTree.Proofs.Tables
import Mathlib.Data.List.Perm.Basic

/-!
# What a tree holds

All blocks and all loops of a dispatch tree, at any depth, as lists.  A block or a loop that stood in
the tree twice would be listed twice, so that something occurs exactly once can be said of the
lists.

Folding takes nodes out of the outermost dispatcher and puts others in.  What that dispatcher holds
is therefore followed as a list of nodes in which the order does not count.

## Main definitions

* `Node.blocks`, `Node.loops`, `Tree.blocks`, `Tree.loops` — all blocks and all loops.
* `TopNodes.held` — the nodes of the outermost dispatcher.
-/

namespace FlowTree

variable {ν : Type}

/-! ## All blocks and all loops -/

mutual

/-- The blocks that a node holds. -/
def Node.blocks : Node ν → List (BlockNode ν)
  | .block b => [b]
  | .loop l => l.blocks

def LoopNode.blocks : LoopNode ν → List (BlockNode ν)
  | ⟨_, _, body, _, _⟩ => Node.blocksOf body

def Node.blocksOf : List (Node ν) → List (BlockNode ν)
  | [] => []
  | n :: ns => n.blocks ++ Node.blocksOf ns

end

mutual

/-- The loops that a node holds, itself among them. -/
def Node.loops : Node ν → List (LoopNode ν)
  | .block _ => []
  | .loop l => l.loops

def LoopNode.loops : LoopNode ν → List (LoopNode ν)
  | ⟨id, header, body, places, exits⟩ => ⟨id, header, body, places, exits⟩ :: Node.loopsOf body

def Node.loopsOf : List (Node ν) → List (LoopNode ν)
  | [] => []
  | n :: ns => n.loops ++ Node.loopsOf ns

end

theorem Node.blocksOf_eq (ns : List (Node ν)) : blocksOf ns = ns.flatMap blocks := by
  induction ns with
  | nil => rfl
  | cons n rest ih => rw [blocksOf, ih, List.flatMap_cons]

theorem Node.loopsOf_eq (ns : List (Node ν)) : loopsOf ns = ns.flatMap loops := by
  induction ns with
  | nil => rfl
  | cons n rest ih => rw [loopsOf, ih, List.flatMap_cons]

theorem LoopNode.blocks_eq (l : LoopNode ν) : l.blocks = l.body.flatMap Node.blocks := by
  obtain ⟨_, _, body, _, _⟩ := l
  exact Node.blocksOf_eq body

theorem LoopNode.loops_eq (l : LoopNode ν) : l.loops = l :: l.body.flatMap Node.loops := by
  obtain ⟨_, _, body, _, _⟩ := l
  exact congrArg (List.cons _) (Node.loopsOf_eq body)

/-! ## Counts -/

mutual

theorem Node.blockCount_eq : (n : Node ν) → n.blockCount = n.blocks.length
  | .block _ => rfl
  | .loop l => LoopNode.blockCount_eq l

theorem LoopNode.blockCount_eq : (l : LoopNode ν) → l.blockCount = l.blocks.length
  | ⟨_, _, body, _, _⟩ => Node.blockCounts_eq body

theorem Node.blockCounts_eq : (ns : List (Node ν)) → Node.blockCounts ns = (Node.blocksOf ns).length
  | [] => rfl
  | n :: ns => by
    rw [Node.blockCounts, Node.blocksOf, List.length_append, Node.blockCount_eq n,
      Node.blockCounts_eq ns]

end

mutual

theorem Node.loopCount_eq : (n : Node ν) → n.loopCount = n.loops.length
  | .block _ => rfl
  | .loop l => LoopNode.loopCount_eq l

theorem LoopNode.loopCount_eq : (l : LoopNode ν) → l.loopCount = l.loops.length
  | ⟨_, _, body, _, _⟩ => by
    rw [LoopNode.loopCount, LoopNode.loops, List.length_cons, Node.loopCounts_eq body, Nat.add_comm]

theorem Node.loopCounts_eq : (ns : List (Node ν)) → Node.loopCounts ns = (Node.loopsOf ns).length
  | [] => rfl
  | n :: ns => by
    rw [Node.loopCounts, Node.loopsOf, List.length_append, Node.loopCount_eq n,
      Node.loopCounts_eq ns]

end

/-! ## The outermost dispatcher -/

namespace TopNodes

variable {nodes nodes' : TopNodes ν} {b : BlockId} {node : Node ν}

/-- The nodes of the outermost dispatcher. -/
def held (nodes : TopNodes ν) : List (Node ν) := nodes.toList.filterMap id

/-- A dispatcher without one of its nodes. -/
theorem held_of_remove (hb : nodes.get? b = some (some node)) (h : nodes.set b none = .ok nodes') :
    (held nodes).Perm (node :: held nodes') := by
  obtain ⟨before, after, hold, hnew⟩ := Table.toList_of_set hb h
  simp [held, hold, hnew]

/-- A dispatcher with one more node. -/
theorem held_of_place (hb : nodes.get? b = some none)
    (h : nodes.set b (some node) = .ok nodes') : (held nodes').Perm (node :: held nodes) := by
  obtain ⟨before, after, hold, hnew⟩ := Table.toList_of_set hb h
  simp [held, hold, hnew]

end TopNodes

namespace Tree

def blocks (t : Tree ν) : List (BlockNode ν) := (TopNodes.held t.nodes).flatMap Node.blocks

def loops (t : Tree ν) : List (LoopNode ν) := (TopNodes.held t.nodes).flatMap Node.loops

theorem blockCount_eq (t : Tree ν) : t.blockCount = t.blocks.length := by
  rw [blockCount, Node.blockCounts_eq, Node.blocksOf_eq]
  rfl

theorem loopCount_eq (t : Tree ν) : t.loopCount = t.loops.length := by
  rw [loopCount, Node.loopCounts_eq, Node.loopsOf_eq]
  rfl

end Tree

end FlowTree
