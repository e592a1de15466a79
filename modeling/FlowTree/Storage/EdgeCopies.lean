import FlowTree.Flow.Graph
import FlowTree.Storage.Copy

/-!
# Copies on edges

What the φs of a function do when control moves along an edge.  A φ that takes `v` from predecessor
`p` becomes the move of `v` into the φ's value on the edge from `p`; the moves of one edge happen
at once, so φs that read each other see what was there at the end of `p`.

A function is refused when a φ stands behind another instruction, takes a value from a block that
is not a predecessor, or takes two different values from one predecessor.

## Main definitions

* `EdgeCopies`, `EdgeCopies.get?` — the copy of each edge that has one.
* `EdgeCopies.ofFunc` — the copies of a function's φs.
* `EdgeCopies.onSlots` — for each block, the slot copy of each of its edges by position.
-/

namespace FlowTree

/-- The copies of the edges that have one.  An edge is named by its two ends. -/
structure EdgeCopies where
  /-- The edges with their copies, in the order in which they were met; no edge occurs twice. -/
  entries : List ((BlockId × BlockId) × ParallelCopy ValueId) := []
deriving DecidableEq, Repr

/-- The slot copies of every block's edges, by position. -/
abbrev SlotCopies := Table .block (List (ParallelCopy SlotId))

namespace EdgeCopies

/-- The copy on the edge from `source` to `target`, if it has one. -/
def get? (e : EdgeCopies) (source target : BlockId) : Option (ParallelCopy ValueId) :=
  e.entries.lookup (source, target)

def size (e : EdgeCopies) : Nat := e.entries.length

/-- The entries by source, then by target. -/
def sorted (e : EdgeCopies) : List ((BlockId × BlockId) × ParallelCopy ValueId) :=
  e.entries.mergeSort fun a b =>
    a.1.1.index < b.1.1.index || (a.1.1 = b.1.1 && a.1.2.index ≤ b.1.2.index)

/-! ## Building -/

/-- Add a move to the copy of an edge.  A move that is there already is not repeated; `none` if the
destination already takes something else on this edge. -/
def add? (e : EdgeCopies) (edge : BlockId × BlockId) (m : Move ValueId) : Option EdgeCopies :=
  match e.entries.lookup edge with
  | none => some ⟨e.entries ++ [(edge, ⟨[m]⟩)]⟩
  | some copy =>
    match copy.sourceOf? m.dst with
    | none => some ⟨e.entries.map fun entry =>
        if entry.1 = edge then (edge, entry.2.push m) else entry⟩
    | some src => if src = m.src then some e else none

/-- Add what the φ `dst` of block `b` takes from one predecessor. -/
def addIncoming (g : FlowGraph) (b : BlockId) (dst : ValueId) (e : EdgeCopies) (i : Incoming) :
    Attempt EdgeCopies := do
  if i.source ∈ (← g.predecessors b) then
    match e.add? (i.source, b) { dst, src := Source.ofOperand i.operand } with
    | some e => return e
    | none => refuse (.malformed b (.conflictingValues dst i.source))
  else
    refuse (.malformed b (.notPredecessor dst i.source))

/-- Add one φ of block `b`; other instructions have no part in edges. -/
def addPhi (g : FlowGraph) (b : BlockId) (e : EdgeCopies) : Instr → Attempt EdgeCopies
  | .phi dst incoming => incoming.foldlM (addIncoming g b dst) e
  | _ => return e

def addBlock (g : FlowGraph) (e : EdgeCopies) (b : Block) : Attempt EdgeCopies :=
  if b.body.any Instr.isPhi then refuse (.malformed b.id .latePhi)
  else b.phis.foldlM (addPhi g b.id) e

def ofFunc (f : Func) (g : FlowGraph) : Attempt EdgeCopies := f.blocks.foldlM (addBlock g) {}

/-! ## On slots -/

/-- For each block, the slot copy of each of its edges by position; empty where there is none. -/
def onSlots (e : EdgeCopies) (g : FlowGraph) (layout : Layout) : Checked SlotCopies := do
  let copies ← g.blocks.mapM fun source => do
    let targets ← g.successors source
    return targets.map fun target =>
      ((e.get? source target).map (ParallelCopy.onSlots layout)).getD ∅
  return Table.ofList copies

end EdgeCopies

end FlowTree
