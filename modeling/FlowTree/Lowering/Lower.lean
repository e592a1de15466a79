import FlowTree.Lowering.Analysis
import FlowTree.Lowering.Tree

/-!
# Lowering

A function becomes a dispatch tree in three steps.  It is analysed; each block gets an executable
node, made by the caller; and the loops are folded, inner loops first.  Folding a loop takes the
nodes of its members out of the outermost dispatcher, the header's first, and puts one node for the
whole loop at the header's place.  A loop inside it is one node by then, and its other blocks are
gone.

What the caller's nodes do is not known here.  Making them may have effects of the caller's own,
and it happens once for each block, in order, after nothing can be refused but a fold.

## Main definitions

* `Decoration` — what the caller is told about a block besides its instructions.
* `BlockPlan`, `Lowering.plan` — what is known about each block before its node is made.
* `Lowering.foldLoop` — one loop folded.
* `Lowering.assemble` — the tree over given nodes.
* `lower` — a function lowered.
-/

namespace FlowTree

/-- What the maker of a block's node is told besides its instructions. -/
structure Decoration where
  layout : Layout
  clearBefore : List SlotId
  clearAfter : List SlotId
  /-- What is copied when control leaves, by position. -/
  edges : List (ParallelCopy SlotId)

/-- What is known about a block before its node is made. -/
structure BlockPlan where
  block : Block
  successors : List BlockId
  decoration : Decoration

/-- The block's place in the tree, once it has a node. -/
def BlockPlan.withNode {ν : Type} (p : BlockPlan) (node : ν) : BlockNode ν where
  id := p.block.id
  node
  successors := p.successors
  edges := p.decoration.edges
  clearBefore := p.decoration.clearBefore
  clearAfter := p.decoration.clearAfter

namespace Lowering

/-- What is known about one block. -/
def planBlock (a : Analysis) (layout : Layout) (b : Block) : Checked BlockPlan := do
  let edges ← a.slotCopies.get b.id
  let clearBefore ← a.liveness.slotsBefore b.id
  let clearAfter ← a.liveness.slotsAfter b.id
  let successors ← a.graph.successors b.id
  return { block := b, successors, decoration := { layout, clearBefore, clearAfter, edges } }

def planBlocks (f : Func) (a : Analysis) (layout : Layout) : Checked (List BlockPlan) :=
  f.blocks.mapM (planBlock a layout)

/-- A function analysed, and what is known about each of its blocks. -/
def plan (f : Func) (layout : Layout) (options : Options) : Attempt (Analysis × List BlockPlan) := do
  let a ← Analysis.ofFunc f layout options
  return (a, ← planBlocks f a layout)

/-! ## Folding -/

/-- Take the node of block `b` out of the outermost dispatcher, if it is still there. -/
def takeNode {ν : Type} (state : TopNodes ν × List (BlockId × Node ν)) (b : BlockId) :
    Checked (TopNodes ν × List (BlockId × Node ν)) := do
  let (nodes, taken) := state
  match ← nodes.get b with
  | none => return (nodes, taken)
  | some node => return (← nodes.set b none, taken ++ [(b, node)])

/-- Take the nodes of some blocks out of the outermost dispatcher, as far as they are there. -/
def takeNodes {ν : Type} (nodes : TopNodes ν) (bs : List BlockId) :
    Checked (TopNodes ν × List (BlockId × Node ν)) :=
  bs.foldlM takeNode (nodes, [])

/-- The dispatcher of a loop over the nodes of its members. -/
def loopNode {ν : Type} (l : Loop) (taken : List (BlockId × Node ν)) : LoopNode ν where
  id := l.id
  header := l.header
  body := taken.map Prod.snd
  places := taken.zipIdx.map fun ((b, _), place) => (b, place)
  exits := l.exits

/-- Fold one loop into a node at its header's place. -/
def foldLoop {ν : Type} (nodes : TopNodes ν) (l : Loop) : Attempt (TopNodes ν) := do
  let (nodes, taken) ← takeNodes nodes l.members
  let folded := loopNode l taken
  if folded.place? l.header = some 0 then
    nodes.set l.header (some (.loop folded))
  else
    refuse (.malformed l.header (.headerFolded l.id))

/-- The tree over given blocks: all loops folded, inner loops first. -/
def assemble {ν : Type} (f : Func) (layout : Layout) (a : Analysis) (blocks : List (BlockNode ν)) :
    Attempt (Tree ν) := do
  let unfolded := Table.ofList (blocks.map fun b => some (Node.block b))
  let nodes ← (← a.loops.sorted).foldlM foldLoop unfolded
  let exitSlot ←
    if a.loops.size = 0 then pure none
    else some <$> (layout.spare : Attempt SlotId)
  return {
    name := f.name
    nodes
    clearBefore := a.liveness.clearBefore.map IdSet.toList
    clearAfter := a.liveness.clearAfter.map IdSet.toList
    exitSlot
    frameSize := layout.slotCount + exitSlot.toList.length }

end Lowering

/-- Lower a function, with `create` making the executable node of each block. -/
def lower {m : Type → Type} [Monad m] {ν : Type} (f : Func) (layout : Layout) (options : Options)
    (create : Block → Decoration → m ν) : m (Attempt (Tree ν)) := do
  match Lowering.plan f layout options with
  | .error stop => return .error stop
  | .ok (a, plans) =>
    let blocks ← plans.mapM fun p => return p.withNode (← create p.block p.decoration)
    return Lowering.assemble f layout a blocks

end FlowTree
