import FlowTree.Flow.Graph

/-!
# Loop discovery

Loops are found along one depth-first search from the entry.  An edge into a block that is still
being explored closes a loop; that block is the loop's header, and headers are numbered as they are
met.  Each block *reports* the loops that are closed somewhere below it and not yet complete: a
header stops reporting its own loop, and an edge into a finished block reports again what that block
reported.

What the entry still reports belongs to loops that control can enter without passing their header.
-/

namespace FlowTree

abbrev LoopSet := IdSet .loop

abbrev BlockSet := IdSet .block

/-- What a search has found about loops. -/
structure Discovery where
  headers : List BlockId
  /-- For each finished block, the loops that it reported. -/
  reported : Table .block LoopSet
deriving DecidableEq, Repr

namespace Discovery

/-- The loop with the given header, if one is known. -/
def loopAt? (d : Discovery) (header : BlockId) : Option LoopId :=
  (d.headers.idxOf? header).map Ident.mk

def headersOf (d : Discovery) (ls : List LoopId) : Checked (List BlockId) :=
  ls.mapM (Table.ofList d.headers : Table .loop BlockId).get

/-- The loop with the given header; a new one if none is known yet and another is allowed. -/
def loopAt (limit : Option Nat) (d : Discovery) (header : BlockId) :
    Attempt (LoopId × Discovery) :=
  match d.loopAt? header with
  | some l => .ok (l, d)
  | none =>
    match limit.filter (· ≤ d.headers.length) with
    | some limit => refuse (.tooManyLoops limit)
    | none => do
      let l ← Ident.ofIndex .loop d.headers.length
      return (l, { d with headers := d.headers ++ [header] })

/-- Finish a block whose successors reported `below`: it reports them again, less its own loop. -/
def finish (d : Discovery) (b : BlockId) (below : LoopSet) : Checked (LoopSet × Discovery) := do
  let report := match d.loopAt? b with
    | some l => below.erase l
    | none => below
  return (report, { d with reported := ← d.reported.set b report })

/-- Follow a search.  `report` collects what the successors of the block being explored report. -/
def follow (limit : Option Nat) :
    Walk .block → Discovery → LoopSet → Attempt (LoopSet × Discovery)
  | .done, d, report => .ok (report, d)
  | .descend b inner rest, d, report => do
    let (below, d) ← follow limit inner d ∅
    let (reported, d) ← d.finish b below
    follow limit rest d (report ∪ reported)
  | .back b rest, d, report => do
    let (l, d) ← d.loopAt limit b
    follow limit rest d (report.insert l)
  | .seen b rest, d, report => do
    let reported ← d.reported.get b
    follow limit rest d (report ∪ reported)

/-- Discovery along the search of a graph with `count` blocks, and the loops that the entry
reported. -/
def ofWalk (limit : Option Nat) (count : Nat) (walk : Walk .block) :
    Attempt (LoopSet × Discovery) :=
  follow limit walk { headers := [], reported := Table.replicate count ∅ } ∅

end Discovery

end FlowTree
