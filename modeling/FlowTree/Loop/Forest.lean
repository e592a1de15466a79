import FlowTree.Flow.Component
import FlowTree.Loop.Nesting

/-!
# Loop forests

All loops of a flow graph with their nesting, or the refusal of a graph whose loops can be entered
beside their headers.

## Main definitions

* `Loop` — a loop: header, members, exits, and its place in the nesting.
* `LoopForest` — all loops of a graph.
* `LoopForest.ofGraph` — the loops of a graph, if its control flow is reducible.
* `LoopForest.membership`, `LoopForest.headed`, `LoopForest.innermost` — the loops of a block.
-/

namespace FlowTree

/-- A loop. -/
structure Loop where
  /-- Its name; loops are numbered as their headers are discovered. -/
  id : LoopId
  header : BlockId
  /-- The other members, descending. -/
  body : List BlockId
  /-- The loops directly inside it, inner loops first. -/
  inner : List LoopId
  parent : Option LoopId
  /-- The blocks outside it that a member leads to, ascending. -/
  exits : List BlockId
  blocks : BlockSet
deriving DecidableEq, Repr

namespace Loop

def contains (l : Loop) (b : BlockId) : Bool := b ∈ l.blocks

/-- The header, then the other members. -/
def members (l : Loop) : List BlockId := l.header :: l.body

def size (l : Loop) : Nat := l.body.length + 1

end Loop

/-- All loops of a flow graph. -/
structure LoopForest where
  loops : Table .loop Loop
  /-- The loops in an order in which inner loops come first. -/
  order : List LoopId
  memberships : Table .block LoopSet
  heads : Table .block (Option LoopId)
deriving DecidableEq, Repr

namespace LoopForest

/-! ## Building -/

/-- The blocks outside a set that a block of the set leads to, ascending. -/
def exitsOf (g : FlowGraph) (blocks : BlockSet) : Checked (List BlockId) := do
  let targets ← blocks.toList.mapM g.successors
  return (IdSet.ofList targets.flatten \ blocks).toList

/-- The loop with a given outline, where `parents` has the smallest loop around each loop. -/
def loopOf (g : FlowGraph) (parents : Table .loop (Option LoopId)) (order : List LoopId)
    (o : Outline) : Checked Loop := do
  let exits ← exitsOf g o.members
  let parent ← parents.get o.id
  return {
    id := o.id
    header := o.header
    body := (o.members.erase o.header).toList.reverse
    inner := order.filter fun l => parents.get? l = some (some o.id)
    parent
    exits
    blocks := o.members }

/-- The forest of loops that nest, in an order in which inner loops come first. -/
def ofOutlines (g : FlowGraph) (os : Outlines) (order : List LoopId) : Checked LoopForest := do
  let parents := os.parents.map (Option.map Outline.id)
  let loops ← os.toList.mapM (loopOf g parents order)
  let membership (b : BlockId) : LoopSet :=
    IdSet.ofList ((loops.filter (·.contains b)).map Loop.id)
  let headed (b : BlockId) : Option LoopId := (loops.find? (·.header = b)).map Loop.id
  return {
    loops := Table.ofList loops
    order
    memberships := Table.ofList (g.blocks.map membership)
    heads := Table.ofList (g.blocks.map headed) }

/-- The loops of a graph, at most `limit` of them if there is a limit.  Control flow that enters a
loop beside its header is refused. -/
def ofGraph (g : FlowGraph) (limit : Option Nat) : Attempt LoopForest := do
  let walk ← g.walk
  let (escaping, d) ← Discovery.ofWalk limit g.size walk
  if !escaping.isEmpty then
    refuse (← g.irreducible (← d.headersOf escaping.toList))
  else
    let outlines := Outlines.ofDiscovery d
    match ← outlines.order? with
    | .error cycle =>
      refuse (← g.irreducible (← d.headersOf cycle))
    | .ok order =>
      let outlines ← outlines.close order
      match Outlines.clash? (outlines.toList.zip outlines.parents.toList) with
      | some offending => refuse (← g.irreducible offending)
      | none => ofOutlines g outlines order

/-! ## Reading -/

def size (f : LoopForest) : Nat := f.loops.size

def get (f : LoopForest) (l : LoopId) : Checked Loop := f.loops.get l

/-- The loops, inner loops first. -/
def sorted (f : LoopForest) : Checked (List Loop) := f.order.mapM f.get

/-- The loops that are inside no other, in sorted order. -/
def roots (f : LoopForest) : Checked (List Loop) :=
  return (← f.sorted).filter fun l => l.parent.isNone

def headed (f : LoopForest) (b : BlockId) : Checked (Option LoopId) := f.heads.get b

def membership (f : LoopForest) (b : BlockId) : Checked LoopSet := f.memberships.get b

/-- The smallest loop that a block belongs to. -/
def innermost (f : LoopForest) (b : BlockId) : Checked (Option LoopId) := do
  let around ← (← f.membership b).toList.mapM f.get
  return (smallest Prod.snd (around.map fun l => (l.id, l.size))).map Prod.fst

end LoopForest

end FlowTree
