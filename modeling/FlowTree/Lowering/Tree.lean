import FlowTree.Ident.Table
import FlowTree.Storage.Copy

/-!
# Dispatch trees

What a function is lowered to.  A dispatcher chooses the next node by the block that control goes
to.  At the top there is a node for each block outside every loop and one for each outermost loop,
at the place of its header; a loop is a dispatcher of its own over its members, in which the loops
directly inside it are single nodes again.

A tree holds nothing that changes during a call.

## Main definitions

* `BlockNode` — a block's executable node with what is done around it.
* `Node`, `LoopNode` — an entry of a dispatcher: a block, or a whole loop.
* `Tree` — the result of lowering.
-/

namespace FlowTree

/-- A block's executable node, with what the dispatcher does around it. -/
structure BlockNode (ν : Type) where
  id : BlockId
  node : ν
  successors : List BlockId
  /-- What is copied when control leaves, by position. -/
  edges : List (ParallelCopy SlotId)
  clearBefore : List SlotId
  clearAfter : List SlotId
deriving DecidableEq, Repr

mutual

/-- An entry of a dispatcher. -/
inductive Node (ν : Type) where
  | block (b : BlockNode ν)
  | loop (l : LoopNode ν)

/-- A loop as a dispatcher over its members.  It goes on as long as control stays at blocks with a
place in it. -/
structure LoopNode (ν : Type) where
  id : LoopId
  header : BlockId
  /-- The nodes that it dispatches, the header's first. -/
  body : List (Node ν)
  /-- The place of each block that is dispatched here. -/
  places : List (BlockId × Nat)
  exits : List BlockId

end

/-- The place of a block in a loop's dispatcher, if it is dispatched there. -/
def LoopNode.place? {ν : Type} (l : LoopNode ν) (b : BlockId) : Option Nat := l.places.lookup b

/-- The block by which control enters a node. -/
def Node.entry {ν : Type} : Node ν → BlockId
  | .block b => b.id
  | .loop l => l.header

mutual

/-- How many loops a node holds, itself counted. -/
def Node.loopCount {ν : Type} : Node ν → Nat
  | .block _ => 0
  | .loop l => l.loopCount

def LoopNode.loopCount {ν : Type} : LoopNode ν → Nat
  | ⟨_, _, body, _, _⟩ => 1 + Node.loopCounts body

def Node.loopCounts {ν : Type} : List (Node ν) → Nat
  | [] => 0
  | n :: ns => n.loopCount + Node.loopCounts ns

end

mutual

/-- How many blocks a node holds. -/
def Node.blockCount {ν : Type} : Node ν → Nat
  | .block _ => 1
  | .loop l => l.blockCount

def LoopNode.blockCount {ν : Type} : LoopNode ν → Nat
  | ⟨_, _, body, _, _⟩ => Node.blockCounts body

def Node.blockCounts {ν : Type} : List (Node ν) → Nat
  | [] => 0
  | n :: ns => n.blockCount + Node.blockCounts ns

end

/-- The nodes of the outermost dispatcher.  A block inside a loop has none, unless it is the header
of an outermost loop and the whole loop stands in its place. -/
abbrev TopNodes (ν : Type) := Table .block (Option (Node ν))

/-- The result of lowering. -/
structure Tree (ν : Type) where
  name : String
  nodes : TopNodes ν
  clearBefore : Table .block (List SlotId)
  clearAfter : Table .block (List SlotId)
  /-- The slot in which a loop says where to go on; only a function with loops has one. -/
  exitSlot : Option SlotId
  frameSize : Nat

namespace Tree

variable {ν : Type}

/-- The node at a block's place, if there is one. -/
def node? (t : Tree ν) (b : BlockId) : Option (Node ν) := (t.nodes.get? b).join

/-- The slots that are emptied before a block; none for a block that does not exist. -/
def slotsBefore (t : Tree ν) (b : BlockId) : List SlotId := (t.clearBefore.get? b).getD []

/-- The slots that are emptied after a block; none for a block that does not exist. -/
def slotsAfter (t : Tree ν) (b : BlockId) : List SlotId := (t.clearAfter.get? b).getD []

/-- How many loops the tree holds, nested ones included. -/
def loopCount (t : Tree ν) : Nat := Node.loopCounts (t.nodes.toList.filterMap id)

def blockCount (t : Tree ν) : Nat := Node.blockCounts (t.nodes.toList.filterMap id)

end Tree

end FlowTree
