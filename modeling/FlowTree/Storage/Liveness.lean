import FlowTree.Lowering.Options
import FlowTree.Storage.EdgeCopies

/-!
# Liveness of slots

A slot is live where its contents may still be read.  Liveness flows backwards: a block's end is
live in what its successors need, less what the edge's copy writes, plus what the copy reads; a
block's start is live in what its end needs, less what the block writes, plus what it reads before
writing it.  φs belong to the edges and not to their block, and the result of a call that may unwind
is written on the edge where it returns normally.

The sets are found by sweeping over the blocks until nothing changes.  They only grow, so there are
at most as many sweeps that change something as there are pairs of a block and a slot.

From liveness follows what may be emptied: before a block, what was needed on some way to it and is
not needed in it; after a block, what it held or wrote and no successor needs.

## Main definitions

* `Effect`, `Effect.ofBlock` — what a block reads before writing it, and what it writes.
* `EdgeEffect` — what is written and read on an edge.
* `BlockFlow` — a block's effect and those of its edges.
* `Liveness.start`, `Liveness.sweep`, `Liveness.settle` — the transfer of one block, one sweep, and
  sweeps until nothing changes.
* `Liveness`, `Liveness.ofFunc` — the live sets and what may be emptied.
-/

namespace FlowTree

abbrev SlotSet := IdSet .slot

/-- What a block does to the slots. -/
structure Effect where
  /-- The slots that the block reads before it writes them. -/
  reads : SlotSet := ∅
  writes : SlotSet := ∅
deriving DecidableEq, Repr

namespace Effect

/-- Read a slot: it counts if it was not written before. -/
def read (width : Nat) (e : Effect) (s : SlotId) : Checked Effect :=
  if s ∈ e.writes then return e
  else return { e with reads := ← e.reads.insertBelow width s }

def write (width : Nat) (e : Effect) (s : SlotId) : Checked Effect :=
  return { e with writes := ← e.writes.insertBelow width s }

/-- Run one instruction: it reads before it writes. -/
def step (layout : Layout) (e : Effect) (i : Instr) : Checked Effect := do
  let e ← (layout.slotsOf i.uses).foldlM (read layout.slotCount) e
  (layout.slotsOf i.defines.toList).foldlM (write layout.slotCount) e

/-- The effect of a block, its φs left out. -/
def ofBlock (layout : Layout) (b : Block) : Checked Effect := do
  let e ← b.body.foldlM (step layout) {}
  (layout.slotsOf b.terminator.uses).foldlM (read layout.slotCount) e

end Effect

/-- What happens to the slots on one edge. -/
structure EdgeEffect where
  writes : SlotSet
  /-- The slots that are read on the edge, before any is written. -/
  reads : SlotSet
deriving DecidableEq, Repr

/-- The slots of a list, each below `width`. -/
def SlotSet.ofSlots (width : Nat) (slots : List SlotId) : Checked SlotSet :=
  slots.foldlM (fun set s => IdSet.insertBelow width s set) ∅

/-- What happens on the edge of block `b` at `position`: its copy, and the result of the block's
call if it returns there. -/
def EdgeEffect.ofEdge (layout : Layout) (b : Block) (copies : List (ParallelCopy SlotId))
    (position : Nat) : Checked EdgeEffect := do
  let copy := copies[position]?.getD ∅
  let result := layout.slotsOf (b.terminator.definesOn position).toList
  return {
    writes := ← SlotSet.ofSlots layout.slotCount (copy.defs ++ result)
    reads := ← SlotSet.ofSlots layout.slotCount copy.uses }

/-- A block's effect and, for each of its edges, where it leads and what happens on it. -/
structure BlockFlow where
  effect : Effect
  edges : List (BlockId × EdgeEffect)
deriving DecidableEq, Repr

def BlockFlow.ofBlock (g : FlowGraph) (copies : SlotCopies) (layout : Layout) (b : Block) :
    Checked BlockFlow := do
  let effect ← Effect.ofBlock layout b
  let onEdges := (copies.get? b.id).getD []
  let edges ← (← g.successors b.id).zipIdx.mapM fun (target, position) =>
    return (target, ← EdgeEffect.ofEdge layout b onEdges position)
  return { effect, edges }

/-- What is live, and what may be emptied. -/
structure Liveness where
  /-- What is live when a block starts, after the copies on the way to it. -/
  liveIn : Table .block SlotSet
  /-- What is live once control has left a block, after the copies on the way from it. -/
  liveOut : Table .block SlotSet
  clearBefore : Table .block SlotSet
  /-- What may be emptied after a block has run and the copies on the way from it are done. -/
  clearAfter : Table .block SlotSet
deriving DecidableEq, Repr

namespace Liveness

/-! ## The fixed point -/

/-- What is live at the end of a block, before the copies on the way from it. -/
def atEnd (live : Table .block SlotSet) (flow : BlockFlow) : Checked SlotSet :=
  flow.edges.foldlM (fun needed (target, edge) => do
    let inTarget ← live.get target
    return needed ∪ ((inTarget \ edge.writes) ∪ edge.reads)) ∅

/-- What is live at the start of a block, given what is live at the starts of its successors. -/
def start (live : Table .block SlotSet) (flow : BlockFlow) : Checked SlotSet := do
  let needed ← atEnd live flow
  return (needed \ flow.effect.writes) ∪ flow.effect.reads

/-- Bring one block up to date, and note whether that changed anything. -/
def update (flows : Table .block BlockFlow) (state : Table .block SlotSet × Bool) (b : BlockId) :
    Checked (Table .block SlotSet × Bool) := do
  let (live, changed) := state
  let now ← start live (← flows.get b)
  if now = (← live.get b) then return (live, changed)
  else return (← live.set b now, true)

/-- Bring all blocks up to date in a given order. -/
def sweep (flows : Table .block BlockFlow) (order : List BlockId) (live : Table .block SlotSet) :
    Checked (Table .block SlotSet × Bool) :=
  order.foldlM (update flows) (live, false)

/-- Sweep until nothing changes. -/
def settle (flows : Table .block BlockFlow) (order : List BlockId) :
    Nat → Table .block SlotSet → Checked (Table .block SlotSet)
  | 0, _ => .error .roundsUsedUp
  | rounds + 1, live => do
    match ← sweep flows order live with
    | (live, false) => return live
    | (live, true) => settle flows order rounds live

/-- The blocks in the order of a sweep: postorder, then the blocks that control cannot reach. -/
def sweepOrder (g : FlowGraph) : Checked (List BlockId) := do
  let reached ← g.reachable
  return (← g.postorder) ++ g.blocks.filter (· ∉ reached)

/-! ## Clear sets -/

/-- The union of a table's sets over some blocks. -/
def union (sets : Table .block SlotSet) (bs : List BlockId) : Checked SlotSet :=
  bs.foldlM (fun all b => return all ∪ (← sets.get b)) ∅

/-- What may be emptied before block `b`.  The caller counts as a predecessor of the entry, and
needs the parameters. -/
def beforeBlock (g : FlowGraph) (liveIn liveOut : Table .block SlotSet) (params never : SlotSet)
    (b : BlockId) : Checked SlotSet := do
  let passed := if b = BlockId.entry then params else ∅
  let needed ← union liveOut (← g.predecessors b)
  return ((passed ∪ needed) \ (← liveIn.get b)) \ never

/-- What may be emptied after block `b`. -/
def afterBlock (flows : Table .block BlockFlow) (liveIn liveOut : Table .block SlotSet)
    (never : SlotSet) (b : BlockId) : Checked SlotSet := do
  let flow ← flows.get b
  let onEdges := flow.edges.foldl (fun all (_, edge) => all ∪ edge.writes) ∅
  return (((← liveIn.get b) ∪ flow.effect.writes ∪ onEdges) \ (← liveOut.get b)) \ never

/-- The liveness of a function's slots, where `copies` has the slot copies of its edges. -/
def ofFunc (f : Func) (g : FlowGraph) (copies : SlotCopies) (layout : Layout) (options : Options) :
    Checked Liveness := do
  let width := layout.slotCount
  let nothing : Table .block SlotSet := Table.replicate g.size ∅
  let flows := Table.ofList (← f.blocks.mapM (BlockFlow.ofBlock g copies layout))
  let order ← sweepOrder g
  let liveIn ← settle flows order (g.size * width + 1) nothing
  let liveOut := Table.ofList (← g.succs.toList.mapM (union liveIn))
  if options.clearDead then
    let never ← SlotSet.ofSlots width (options.neverCleared.filter fun s => s.index < width)
    let params ← SlotSet.ofSlots width (layout.slotsOf f.params)
    let clearBefore ← g.blocks.mapM (beforeBlock g liveIn liveOut params never)
    let clearAfter ← g.blocks.mapM (afterBlock flows liveIn liveOut never)
    return {
      liveIn, liveOut
      clearBefore := Table.ofList clearBefore
      clearAfter := Table.ofList clearAfter }
  else
    return { liveIn, liveOut, clearBefore := nothing, clearAfter := nothing }

/-! ## Reading -/

def isLiveIn (l : Liveness) (b : BlockId) (s : SlotId) : Checked Bool := return s ∈ (← l.liveIn.get b)

/-- The slots that may be emptied before a block, ascending. -/
def slotsBefore (l : Liveness) (b : BlockId) : Checked (List SlotId) :=
  return (← l.clearBefore.get b).toList

/-- The slots that may be emptied after a block, ascending. -/
def slotsAfter (l : Liveness) (b : BlockId) : Checked (List SlotId) :=
  return (← l.clearAfter.get b).toList

end Liveness

end FlowTree
