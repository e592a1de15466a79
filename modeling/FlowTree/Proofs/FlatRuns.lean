import FlowTree.Run.Dispatch
import FlowTree.Proofs.FlatLowering

/-!
# Flat runs

A function that is lowered to its blocks runs by going straight from block to block.  What is done
around a block is the same as in a tree.

## Main definitions

* `Flat.goto`, `Flat.leave`, `Flat.runFrom`, `Flat.run` — flat dispatch.
* `Visit`, `Tree.visits`, `Flat.visits` — the blocks that a run comes to, and what it finds there.
* `BlockNode.Ends` — a run is over at a block.
-/

namespace FlowTree

variable {ν σ V E : Type}

/-! ## Dispatch -/

namespace Flat

/-- Go to block `b`: empty what is dead before it. -/
def goto (p : Flat ν) (b : BlockId) (s : RunState σ V) :
    Except (RunError E) (BlockNode ν) × RunState σ V :=
  match p.blocks.get? b with
  | none => (.error (.missingNode b), s)
  | some n => (.ok n, s.clear n.clearBefore)

variable [FrameValue V]

/-- Leave block `n` by the edge at a position: perform the edge's copy, empty what is dead after the
block, and go to where the edge leads. -/
def leave (p : Flat ν) (n : BlockNode ν) (position : Nat) (s : RunState σ V) :
    Except (RunError E) (BlockNode ν) × RunState σ V :=
  match n.successors[position]? with
  | none => (.error (.invalidSuccessor n.id position), s)
  | some next =>
    let copied := s.frame.perform (n.edges[position]?.getD ∅)
    p.goto next { s with frame := copied.clearAll n.clearAfter }

/-- Go on from block `n` for at most `limit` blocks. -/
def runFrom (p : Flat ν) (run : Runner ν σ V E) :
    Nat → BlockNode ν → RunState σ V → Option (Except (RunError E) (Option V)) × RunState σ V
  | 0, _, s => (none, s)
  | limit + 1, n, s =>
    let (result, world, frame) := run n.node s.world s.frame
    let s := { s.countBlock with world, frame }
    match result with
    | .error e => (some (.error (.node n.id e)), s)
    | .ok (.ret value) => (some (.ok value), s)
    | .ok (.branch position) =>
      match p.leave n position s with
      | (.error e, s) => (some (.error e), s)
      | (.ok next, s) => p.runFrom run limit next s

/-- Run the function for at most `limit` blocks. -/
def run (p : Flat ν) (run : Runner ν σ V E) (limit : Nat) (world : σ) (frame : Frame V) :
    Option (Except (RunError E) (Option V)) × RunState σ V :=
  match p.goto BlockId.entry { world, frame } with
  | (.error e, s) => (some (.error e), s)
  | (.ok n, s) => p.runFrom run limit n s

end Flat

/-! ## Visits -/

/-- A block that a run comes to, with what its node finds. -/
structure Visit (σ V : Type) where
  block : BlockId
  world : σ
  frame : Frame V

section Visits

variable [FrameValue V]

/-- The blocks that a run of a tree comes to from a cursor. -/
def Tree.visitsFrom (t : Tree ν) (run : Runner ν σ V E) :
    Nat → Cursor ν → RunState σ V → List (Visit σ V)
  | 0, _, _ => []
  | limit + 1, c, s =>
    ⟨c.block.id, s.world, s.frame⟩ ::
      match t.step run c s with
      | (.next c, s) => t.visitsFrom run limit c s
      | _ => []

/-- The blocks that a run of a tree comes to, in order. -/
def Tree.visits (t : Tree ν) (run : Runner ν σ V E) (limit : Nat) (world : σ) (frame : Frame V) :
    List (Visit σ V) :=
  match (t.start { world, frame } : Except (RunError E) (Cursor ν) × RunState σ V) with
  | (.error _, _) => []
  | (.ok c, s) => t.visitsFrom run limit c s

/-- The blocks that a flat run comes to from a block. -/
def Flat.visitsFrom (p : Flat ν) (run : Runner ν σ V E) :
    Nat → BlockNode ν → RunState σ V → List (Visit σ V)
  | 0, _, _ => []
  | limit + 1, n, s =>
    ⟨n.id, s.world, s.frame⟩ ::
      let (result, world, frame) := run n.node s.world s.frame
      match result with
      | .ok (.branch position) =>
        match (p.leave n position { s.countBlock with world, frame } :
          Except (RunError E) (BlockNode ν) × RunState σ V) with
        | (.ok next, s) => p.visitsFrom run limit next s
        | (.error _, _) => []
      | _ => []

/-- The blocks that a flat run comes to, in order. -/
def Flat.visits (p : Flat ν) (run : Runner ν σ V E) (limit : Nat) (world : σ) (frame : Frame V) :
    List (Visit σ V) :=
  match (p.goto BlockId.entry { world, frame } :
    Except (RunError E) (BlockNode ν) × RunState σ V) with
  | (.error _, _) => []
  | (.ok n, s) => p.visitsFrom run limit n s

end Visits

/-! ## The first block of a run -/

/-- A run that ends at block `n` ends as its node says, with the frame as the node left it. -/
structure BlockNode.Ends (n : BlockNode ν) (out : Except E (Transfer V) × σ × Frame V)
    (result : Except (RunError E) (Option V)) (s : RunState σ V) : Prop where
  world : s.world = out.2.1
  frame : s.frame = out.2.2
  result : (∃ e, out.1 = .error e ∧ result = .error (.node n.id e)) ∨
    (∃ value, out.1 = .ok (.ret value) ∧ result = .ok value) ∨
    (∃ position, out.1 = .ok (.branch position) ∧ n.successors[position]? = none ∧
      result = .error (.invalidSuccessor n.id position))

namespace Flat

variable [FrameValue V] {p : Flat ν} {run : Runner ν σ V E}

/-- A flat run that ends at the block at hand. -/
theorem runFrom_of_ends {n : BlockNode ν} {s s' : RunState σ V}
    {result : Except (RunError E) (Option V)} (h : n.Ends (run n.node s.world s.frame) result s')
    (hstats : s'.stats = s.countBlock.stats) (limit : Nat) :
    p.runFrom run (limit + 1) n s = (some result, s') ∧
      p.visitsFrom run (limit + 1) n s = [⟨n.id, s.world, s.frame⟩] := by
  obtain ⟨frame, world, stats⟩ := s'
  obtain ⟨rfl, rfl, hresult⟩ := h
  obtain rfl := hstats
  rcases hout : run n.node s.world s.frame with ⟨out, world, frame⟩
  rw [hout] at hresult
  rcases hresult with ⟨e, rfl, rfl⟩ | ⟨value, rfl, rfl⟩ | ⟨position, rfl, hnone, rfl⟩
  · simp [runFrom, visitsFrom, hout]
  · simp [runFrom, visitsFrom, hout]
  · simp [runFrom, visitsFrom, leave, hout, hnone]

/-- A flat run that goes on. -/
theorem runFrom_of_next {n m : BlockNode ν} {s : RunState σ V} {position : Nat}
    {next : BlockId} {world : σ} {frame : Frame V}
    (hout : run n.node s.world s.frame = (.ok (.branch position), world, frame))
    (hnext : n.successors[position]? = some next) (hm : p.blocks.get? next = some m) (limit : Nat) :
    let s' : RunState σ V := RunState.clear { s.countBlock with
      world, frame := (frame.perform (n.edges[position]?.getD ∅)).clearAll n.clearAfter } m.clearBefore
    p.runFrom run (limit + 1) n s = p.runFrom run limit m s' ∧
      p.visitsFrom run (limit + 1) n s =
        ⟨n.id, s.world, s.frame⟩ :: p.visitsFrom run limit m s' := by
  simp [runFrom, visitsFrom, leave, goto, hout, hnext, hm]

end Flat

end FlowTree
