import FlowTree.Fault
import FlowTree.Storage.Copy

/-!
# Parallel copies in sequence

Moves done one at a time, to the effect of doing them at once.  A move can be done as soon as no
pending move still reads its destination.  When there is no such move, only cycles are left, and
the destination of the first pending move is parked in a spare location; that frees the move, so
every second round at least completes one.

The spare location must not be written by the copy itself: a cycle through it can never be opened,
and then the rounds run out.
-/

namespace FlowTree

namespace ParallelCopy

variable {α : Type} [DecidableEq α]

/-- Whether no pending move reads the move's destination. -/
def isFree (pending : List (Move α)) (m : Move α) : Bool :=
  pending.all fun other => other.src ≠ .loc m.dst

/-- The move after `parked` was copied to `spare`: it reads the copy instead. -/
def park (parked spare : α) (m : Move α) : Move α :=
  if m.src = .loc parked then { m with src := .loc spare } else m

/-- Do one pending move after the other; each round completes a move or parks a location. -/
def sequence (spare : α) : Nat → List (Move α) → Checked (List (Move α))
  | _, [] => .ok []
  | 0, _ :: _ => .error .roundsUsedUp
  | rounds + 1, first :: others =>
    let pending := first :: others
    match pending.find? (isFree pending) with
    | some m => do
      let rest ← sequence spare rounds (pending.eraseP (isFree pending))
      return m :: rest
    | none => do
      let rest ← sequence spare rounds (pending.map (park first.dst spare))
      return { dst := spare, src := .loc first.dst } :: rest

/-- The moves in sequence, with `spare` as the spare location.  Moves of a location into itself are
left out. -/
def inSequence (c : ParallelCopy α) (spare : α) : Checked (List (Move α)) :=
  let pending := c.moves.filter fun m => !m.isTrivial
  sequence spare (2 * pending.length) pending

end ParallelCopy

end FlowTree
