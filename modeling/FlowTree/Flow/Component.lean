import FlowTree.Flow.Graph

/-!
# Strongly connected components

Two blocks are in one component when control can go from each to the other.  The components are
found along one depth-first search over all blocks: a block keeps a place on a stack until it is
known from which earlier block on the stack it can be reached again, and a block that reaches none
earlier closes a component with everything above it.

A component is listed when it is closed, so one that control can leave for another comes after that
other.  Components serve to describe control flow that cannot be lowered; loops are found without
them.

## Main definitions

* `FlowGraph.components` — the components in the order in which they are closed, each ascending.
* `FlowGraph.isCyclic` — whether control can return to a component's blocks.
* `FlowGraph.regionAround`, `FlowGraph.regionEntries` — the cyclic components that meet given
  blocks, and where control can enter a region.
-/

namespace FlowTree

/-- How far a search for components has got. -/
structure ComponentSearch where
  next : Nat := 0
  /-- The blocks without a component yet, the latest first, each with its number. -/
  stack : List (BlockId × Nat) := []
  /-- The components found so far, the latest first. -/
  found : List (List BlockId) := []
deriving DecidableEq, Repr

namespace ComponentSearch

/-- Meet a block for the first time. -/
def meet (s : ComponentSearch) (b : BlockId) : ComponentSearch :=
  { s with next := s.next + 1, stack := (b, s.next) :: s.stack }

/-- Close the component of `b` and everything above it on the stack. -/
def close (s : ComponentSearch) (b : BlockId) : ComponentSearch :=
  let above := s.stack.takeWhile fun entry => entry.1 ≠ b
  { s with
    stack := s.stack.drop (above.length + 1)
    found := Ident.sort (b :: above.map Prod.fst) :: s.found }

/-- Follow a search.  `low` is the least number on the stack that is known to be reached from the
block being explored; the second result is that number after all its successors. -/
def follow : Walk .block → ComponentSearch → Nat → ComponentSearch × Nat
  | .done, s, low => (s, low)
  | .descend b inner rest, s, low =>
    let number := s.next
    let (s, lowest) := follow inner (s.meet b) number
    let s := if lowest = number then s.close b else s
    follow rest s (min low lowest)
  | .back b rest, s, low => follow rest s (((s.stack.lookup b).map (min low)).getD low)
  | .seen b rest, s, low => follow rest s (((s.stack.lookup b).map (min low)).getD low)

end ComponentSearch

namespace FlowGraph

/-- The strongly connected components in the order in which they are closed, each ascending. -/
def components (g : FlowGraph) : Checked (List (List BlockId)) := do
  let walk ← Walk.ofRoots g.succs g.blocks
  return (ComponentSearch.follow walk {} 0).1.found.reverse

/-- Whether control can return to a block of the component: it has several blocks, or its one
block leads to itself. -/
def isCyclic (g : FlowGraph) : List BlockId → Checked Bool
  | [] => return false
  | [b] => return b ∈ (← g.successors b)
  | _ :: _ :: _ => return true

/-- The components that control can return to, in order. -/
def cyclicComponents (g : FlowGraph) : Checked (List (List BlockId)) := do
  let components ← g.components
  let cyclic ← components.mapM g.isCyclic
  return ((components.zip cyclic).filter Prod.snd).map Prod.fst

/-- The blocks of the cyclic components that meet `blocks`, ascending. -/
def regionAround (g : FlowGraph) (blocks : List BlockId) : Checked (List BlockId) := do
  let meeting := (← g.cyclicComponents).filter fun c => c.any (· ∈ blocks)
  return Ident.sort meeting.flatten

/-- Whether control can enter a region at block `b`.  The entry of the function is always entered
from outside. -/
def isEntered (g : FlowGraph) (region : List BlockId) (b : BlockId) : Checked Bool := do
  let preds ← g.predecessors b
  return b = BlockId.entry || preds.any (· ∉ region)

/-- The blocks of a region that control can enter from outside it. -/
def regionEntries (g : FlowGraph) (region : List BlockId) : Checked (List BlockId) := do
  let entered ← region.mapM (g.isEntered region)
  return ((region.zip entered).filter Prod.snd).map Prod.fst

/-- The refusal of irreducible control flow around `headers`.  It names the entries of the region
around them, or the headers themselves where the region has no entry. -/
def irreducible (g : FlowGraph) (headers : List BlockId) : Checked Refusal := do
  let region ← g.regionAround headers
  let entries ← g.regionEntries region
  return .irreducible (if entries.isEmpty then headers else entries) region

end FlowGraph

end FlowTree
