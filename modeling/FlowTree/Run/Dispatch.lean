import FlowTree.Lowering.Tree
import FlowTree.Storage.Frame

/-!
# Running dispatch trees

A run goes from block to block.  At each it runs the block's node, performs the copy of the edge
that the node chose, empties what is dead after the block, finds the next block, and empties what is
dead before it.

The next block is looked for in the innermost dispatcher first.  A loop that has no place for it
leaves its name in the exit slot and is over; the dispatcher around it takes the name out of the
slot and looks in turn.  So the dispatchers in progress form a path, and one step of a run executes
exactly one block.

Nodes are the caller's.  What running one does is a function of the frame and of a state of the
caller's own, and may fail; a failure leaves the frame as the node left it.

## Main definitions

* `Transfer`, `Runner` — how control leaves a node, and what running a node does.
* `RunError` — why a run ends early.
* `Stats` — how many blocks, back edges and loop entries a run had.
* `Cursor` — the block to be run and the loops in progress around it.
* `Tree.start`, `Tree.step`, `Tree.run` — the first cursor, one step, and a bounded run.
-/

namespace FlowTree

/-- How control leaves a node. -/
inductive Transfer (V : Type) where
  | branch (position : Nat)
  | ret (value : Option V)
deriving DecidableEq, Repr

/-- What running a node does to the caller's state and to the frame, and how it ends. -/
abbrev Runner (ν σ V E : Type) := ν → σ → Frame V → Except E (Transfer V) × σ × Frame V

/-- Why a run ends early. -/
inductive RunError (E : Type) where
  | node (block : BlockId) (error : E)
  | invalidSuccessor (block : BlockId) (position : Nat)
  /-- A loop is over and has not said where to go on. -/
  | missingLoopExit (header : BlockId)
  | missingNode (block : BlockId)
deriving DecidableEq, Repr

/-- The wording of an error, given that of the nodes' own errors. -/
def RunError.message {E : Type} (text : E → String) : RunError E → String
  | node block error => s!"{block.text}: {text error}"
  | invalidSuccessor block position =>
    s!"{block.text} took successor {position}, which it does not have"
  | missingLoopExit header => s!"loop at {header.text} exited without a resume target"
  | missingNode block => s!"no node to dispatch for {block.text}"

/-- What happened during a run.  The counts are natural numbers, so they never overflow, as counters
of 64 bits would at `2 ^ 64`. -/
structure Stats where
  blocks : Nat := 0
  /-- How often control went from inside a loop back to its header. -/
  backEdges : Nat := 0
  /-- How often a loop was entered from outside. -/
  loopEntries : Nat := 0
deriving DecidableEq, Repr

/-- What changes during a run. -/
structure RunState (σ V : Type) where
  frame : Frame V
  world : σ
  stats : Stats := {}
deriving DecidableEq, Repr

/-- Where a run stands: the block to be run, and the loops in progress around it, the innermost
first. -/
structure Cursor (ν : Type) where
  block : BlockNode ν
  path : List (LoopNode ν)

/-- The outcome of a step. -/
inductive Step (ν V E : Type) where
  | next (cursor : Cursor ν)
  | returned (value : Option V)
  | failed (error : RunError E)

namespace RunState

variable {σ V : Type}

def clear (s : RunState σ V) (slots : List SlotId) : RunState σ V :=
  { s with frame := s.frame.clearAll slots }

def countBlock (s : RunState σ V) : RunState σ V :=
  { s with stats := { s.stats with blocks := s.stats.blocks + 1 } }

/-- Count a back edge, if control goes to the first place of a loop. -/
def countPlace (s : RunState σ V) (place : Nat) : RunState σ V :=
  if place = 0 then { s with stats := { s.stats with backEdges := s.stats.backEdges + 1 } } else s

def countEntry (s : RunState σ V) : RunState σ V :=
  { s with stats := { s.stats with loopEntries := s.stats.loopEntries + 1 } }

end RunState

namespace BlockNode

variable {ν σ V E : Type} [FrameValue V]

/-- Run a block and leave it: the block to go to, or the end of the run. -/
def execute (run : Runner ν σ V E) (b : BlockNode ν) (s : RunState σ V) :
    Except (RunError E) (BlockId ⊕ Option V) × RunState σ V :=
  let s := s.countBlock
  let (result, world, frame) := run b.node s.world s.frame
  let s := { s with world, frame }
  match result with
  | .error e => (.error (.node b.id e), s)
  | .ok (.ret value) => (.ok (.inr value), s)
  | .ok (.branch position) =>
    match b.successors[position]? with
    | none => (.error (.invalidSuccessor b.id position), s)
    | some next =>
      let copied := match b.edges[position]? with
        | some copy => { s with frame := s.frame.perform copy }
        | none => s
      (.ok (.inl next), copied.clear b.clearAfter)

end BlockNode

namespace Tree

variable {ν σ V E : Type}

/-- Enter a node inside the loops of `path`: a loop is entered at its first node. -/
def enter (t : Tree ν) : Node ν → List (LoopNode ν) → RunState σ V →
    Except (RunError E) (Cursor ν) × RunState σ V
  | .block b, path, s => (.ok { block := b, path }, s)
  | .loop ⟨id, header, body, places, exits⟩, path, s =>
    match t.exitSlot with
    | none => (.error (.missingLoopExit header), s)
    | some _ =>
      match body with
      | [] => (.error (.missingNode header), s.countEntry)
      | first :: others =>
        t.enter first (⟨id, header, first :: others, places, exits⟩ :: path) s.countEntry

/-- Go to block `b` from inside the loops of a path, leaving those that have no place for it. -/
def goto (t : Tree ν) : List (LoopNode ν) → BlockId → RunState σ V →
    Except (RunError E) (Cursor ν) × RunState σ V
  | [], b, s =>
    let s := s.clear (t.slotsBefore b)
    match t.node? b with
    | none => (.error (.missingNode b), s)
    | some node => t.enter node [] s
  | l :: outer, b, s =>
    match l.place? b with
    | some place =>
      let s := (s.countPlace place).clear (t.slotsBefore b)
      match l.body[place]? with
      | none => (.error (.missingNode l.header), s)
      | some node => t.enter node (l :: outer) s
    | none =>
      match t.exitSlot with
      | none => (.error (.missingLoopExit l.header), s)
      | some slot =>
        match (s.frame.put slot (.block b)).takeBlock slot with
        | (none, frame) => (.error (.missingLoopExit l.header), { s with frame })
        | (some resumed, frame) => t.goto outer resumed { s with frame }

/-- A frame of empty cells for one call. -/
def newFrame (t : Tree ν) : Frame V := Frame.ofSize t.frameSize

/-- Begin a run at the entry. -/
def start (t : Tree ν) (s : RunState σ V) : Except (RunError E) (Cursor ν) × RunState σ V :=
  t.goto [] BlockId.entry s

variable [FrameValue V]

/-- Run one block and go to the next. -/
def step (t : Tree ν) (run : Runner ν σ V E) (c : Cursor ν) (s : RunState σ V) :
    Step ν V E × RunState σ V :=
  match c.block.execute run s with
  | (.error e, s) => (.failed e, s)
  | (.ok (.inr value), s) => (.returned value, s)
  | (.ok (.inl next), s) =>
    match t.goto c.path next s with
    | (.error e, s) => (.failed e, s)
    | (.ok c, s) => (.next c, s)

/-- Go on from a cursor for at most `limit` blocks.  There is no result if the run is not over by
then. -/
def runFrom (t : Tree ν) (run : Runner ν σ V E) :
    Nat → Cursor ν → RunState σ V → Option (Except (RunError E) (Option V)) × RunState σ V
  | 0, _, s => (none, s)
  | limit + 1, c, s =>
    match t.step run c s with
    | (.next c, s) => t.runFrom run limit c s
    | (.returned value, s) => (some (.ok value), s)
    | (.failed e, s) => (some (.error e), s)

/-- Run the function on a frame that has the arguments in place, for at most `limit` blocks. -/
def run (t : Tree ν) (run : Runner ν σ V E) (limit : Nat) (world : σ) (frame : Frame V) :
    Option (Except (RunError E) (Option V)) × RunState σ V :=
  match t.start { world, frame } with
  | (.error e, s) => (some (.error e), s)
  | (.ok c, s) => t.runFrom run limit c s

end Tree

end FlowTree
