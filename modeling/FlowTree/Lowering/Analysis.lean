import FlowTree.Loop.Forest
import FlowTree.Storage.Liveness

/-!
# The analyses of a function

Everything that lowering needs to know about a function, each part from the parts before it: the
flow graph, the loops, the copies on edges, and the liveness of slots.  The first refusal wins.
-/

namespace FlowTree

/-- What is known about a function. -/
structure Analysis where
  graph : FlowGraph
  loops : LoopForest
  /-- What the φs do on edges, between values. -/
  copies : EdgeCopies
  /-- What the φs do on edges, between slots. -/
  slotCopies : SlotCopies
  liveness : Liveness
deriving DecidableEq, Repr

def Analysis.ofFunc (f : Func) (layout : Layout) (options : Options) : Attempt Analysis := do
  let graph ← FlowGraph.ofFunc f
  let loops ← LoopForest.ofGraph graph options.maxLoops
  let copies ← EdgeCopies.ofFunc f graph
  let slotCopies ← copies.onSlots graph layout
  let liveness ← Liveness.ofFunc f graph slotCopies layout options
  return { graph, loops, copies, slotCopies, liveness }

end FlowTree
