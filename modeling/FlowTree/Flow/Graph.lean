import FlowTree.Refusal
import FlowTree.Program.Func
import FlowTree.Flow.Walk
import FlowTree.Ident.Set

/-!
# Flow graphs

The successors and predecessors of every block of a function.  A flow graph is only built from a
function whose blocks stand where their names say and whose successors exist; the first defect in
block order is reported, a misplaced block before its successors.

Successors keep their positions and may repeat.  Predecessors are distinct and ascending, because
the blocks are read in order.

## Main definitions

* `FlowGraph`, `FlowGraph.ofFunc` — the graph of a function.
* `FlowGraph.walk` — the depth-first search from the entry.
* `FlowGraph.postorder`, `FlowGraph.reversePostorder`, `FlowGraph.reachable`.
-/

namespace FlowTree

/-- The successors and predecessors of every block. -/
structure FlowGraph where
  /-- The successors by position; a block can occur more than once. -/
  succs : Adjacency .block
  /-- The distinct predecessors, ascending. -/
  preds : Adjacency .block
deriving DecidableEq, Repr

namespace FlowGraph

/-! ## Building -/

/-- Note that control can go from `b` to `target`. -/
def addEdge (preds : Adjacency .block) (b target : BlockId) : Checked (Adjacency .block) := do
  let known ← preds.get target
  if b ∈ known then return preds else preds.set target (known ++ [b])

/-- Note that control can go from `b` to `target`, if there is such a block. -/
def addTarget (count : Nat) (b : BlockId) (preds : Adjacency .block) (target : BlockId) :
    Attempt (Adjacency .block) :=
  if target.index < count then addEdge preds b target
  else refuse (.malformed b (.noSuchSuccessor target))

/-- Read the block at a position: check its place and its successors, and note its edges. -/
def addBlock (count : Nat) (preds : Adjacency .block) (placed : Block × Nat) :
    Attempt (Adjacency .block) :=
  let (b, position) := placed
  if b.id.index = position then
    b.terminator.successors.foldlM (addTarget count b.id) preds
  else
    refuse (.malformed b.id (.misplaced position))

def ofFunc (f : Func) : Attempt FlowGraph := do
  let count := f.blocks.length
  if count = 0 then
    refuse (.malformed BlockId.entry .noBlocks)
  else
    let preds ← f.blocks.zipIdx.foldlM (addBlock count) (Table.replicate count [])
    return { succs := Table.ofList (f.blocks.map fun b => b.terminator.successors), preds }

/-! ## Reading -/

def size (g : FlowGraph) : Nat := g.succs.size

/-- All blocks, ascending. -/
def blocks (g : FlowGraph) : List BlockId := g.succs.idents

/-- The successors of a block by position. -/
def successors (g : FlowGraph) (b : BlockId) : Checked (List BlockId) := g.succs.get b

/-- The distinct predecessors of a block, ascending. -/
def predecessors (g : FlowGraph) (b : BlockId) : Checked (List BlockId) := g.preds.get b

/-! ## Order -/

/-- The depth-first search from the entry. -/
def walk (g : FlowGraph) : Checked (Walk .block) := Walk.ofRoots g.succs [BlockId.entry]

/-- The blocks that control can reach, each after everything first met from it. -/
def postorder (g : FlowGraph) : Checked (List BlockId) := return (← g.walk).postorder

def reversePostorder (g : FlowGraph) : Checked (List BlockId) := return (← g.postorder).reverse

def reachable (g : FlowGraph) : Checked (IdSet .block) := return IdSet.ofList (← g.postorder)

end FlowGraph

end FlowTree
