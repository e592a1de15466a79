import FlowTree.Storage.Layout

/-!
# Parallel copies

A parallel copy is a list of moves that happen at once: every source is read before any destination
is written.  Copies are between values when they come from φs, and between slots when they are
performed on a frame.

## Main definitions

* `Source`, `Move`, `ParallelCopy` — locations or constants to read, and where to put them.
* `ParallelCopy.perform` — all reads in order, then all writes in order.
* `ParallelCopy.onSlots` — a copy between values as a copy between their slots.
-/

namespace FlowTree

/-- What a move reads. -/
inductive Source (α : Type) where
  | loc (a : α)
  | const (c : Constant)
deriving DecidableEq, Repr

/-- An operand is the source of a move between values. -/
def Source.ofOperand : Operand → Source ValueId
  | .value v => .loc v
  | .const c => .const c

/-- The location that a source reads, if it is not a constant. -/
def Source.loc? {α : Type} : Source α → Option α
  | loc a => some a
  | const _ => none

/-- One move: `dst` gets what `src` holds. -/
structure Move (α : Type) where
  dst : α
  src : Source α
deriving DecidableEq, Repr

/-- Whether a move puts a location into itself. -/
def Move.isTrivial {α : Type} [DecidableEq α] (m : Move α) : Bool := m.src = .loc m.dst

/-- Moves that happen at once. -/
structure ParallelCopy (α : Type) where
  /-- The moves, in the order in which they are read and written. -/
  moves : List (Move α) := []
deriving DecidableEq, Repr

namespace ParallelCopy

variable {α : Type}

instance : EmptyCollection (ParallelCopy α) := ⟨{}⟩

def push (c : ParallelCopy α) (m : Move α) : ParallelCopy α := ⟨c.moves ++ [m]⟩

/-- The source of the first move into `dst`. -/
def sourceOf? [DecidableEq α] (c : ParallelCopy α) (dst : α) : Option (Source α) :=
  (c.moves.find? fun m => m.dst = dst).map Move.src

/-- The locations that are written, in order. -/
def defs (c : ParallelCopy α) : List α := c.moves.map Move.dst

/-- The locations that are read, in order. -/
def uses (c : ParallelCopy α) : List α := c.moves.filterMap fun m => m.src.loc?

/-- Perform the copy: read every source, then write every destination. -/
def perform {m : Type → Type} [Monad m] {V : Type} (read : Source α → m V)
    (write : α → V → m Unit) (c : ParallelCopy α) : m Unit := do
  let values ← c.moves.mapM fun move => read move.src
  (c.moves.zip values).forM fun (move, value) => write move.dst value

/-- What a source between values reads when values live in slots: a value without a slot was never
stored and reads as undefined. -/
def slotSource (layout : Layout) : Source ValueId → Source SlotId
  | .loc v =>
    match layout.slotOf v with
    | some s => .loc s
    | none => .const .undefined
  | .const c => .const c

/-- A move between values as a move between slots.  There is none if the destination has no slot,
or if both ends share one. -/
def slotMove? (layout : Layout) (move : Move ValueId) : Option (Move SlotId) :=
  match layout.slotOf move.dst with
  | none => none
  | some dst =>
    let onSlots : Move SlotId := { dst, src := slotSource layout move.src }
    if onSlots.isTrivial then none else some onSlots

/-- A copy between values as a copy between their slots. -/
def onSlots (layout : Layout) (c : ParallelCopy ValueId) : ParallelCopy SlotId :=
  ⟨c.moves.filterMap (slotMove? layout)⟩

end ParallelCopy

end FlowTree
