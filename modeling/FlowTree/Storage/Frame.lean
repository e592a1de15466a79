import FlowTree.Program.Code
import FlowTree.Storage.Copy

/-!
# Frames

The storage of one call: a row of cells, one for each slot.  A cell is empty, holds a value, or
holds the name of a block, which is how a loop tells the dispatcher around it where to go on.

A frame grows when a slot past its end is written, and reads as empty there.

## Main definitions

* `Cell`, `Frame` — what a slot holds, and the row of cells.
* `Frame.ofSize`, `Frame.allocate` — a new frame, and one whose size was not known beforehand.
* `Frame.cell` — what a slot holds, past the end too.
* `Frame.put`, `Frame.set`, `Frame.clear`, `Frame.takeBlock` — changes to one cell.
* `Frame.perform` — a parallel copy between slots.
-/

namespace FlowTree

/-- Values that can live in a frame. -/
class FrameValue (V : Type) where
  ofConstant : Constant → V

instance : FrameValue Constant := ⟨id⟩

/-- What a slot holds. -/
inductive Cell (V : Type) where
  /-- Nothing: never written, or emptied. -/
  | empty
  | value (v : V)
  | block (b : BlockId)
deriving DecidableEq, Repr

/-- The storage of one call. -/
structure Frame (V : Type) where
  cells : Array (Cell V)
deriving DecidableEq, Repr

namespace Frame

variable {V : Type}

/-- A frame of `size` empty cells. -/
def ofSize (size : Nat) : Frame V := ⟨Array.replicate size .empty⟩

/-- How many cells memory can address: they take sixteen bytes each, of at most `2 ^ 63`. -/
def capacity : Nat := 1 <<< 59

/-- A frame of `size` empty cells, if memory can address so many. -/
def allocate (size : Nat) : Checked (Frame V) :=
  if size < capacity then .ok (ofSize size) else .error .tooLarge

def size (f : Frame V) : Nat := f.cells.size

/-- What a slot holds; past the end, nothing. -/
def cell (f : Frame V) (s : SlotId) : Cell V := f.cells[s.index]?.getD .empty

/-- The value in a slot, if it holds one. -/
def get? (f : Frame V) (s : SlotId) : Option V :=
  match f.cell s with
  | .value v => some v
  | _ => none

def isEmpty (f : Frame V) (s : SlotId) : Bool :=
  match f.cell s with
  | .empty => true
  | _ => false

/-- The cells, with empty ones added so that there is a cell `index`. -/
def grown (cells : Array (Cell V)) (index : Nat) : Array (Cell V) :=
  cells ++ Array.replicate (index + 1 - cells.size) .empty

theorem lt_size_grown (cells : Array (Cell V)) (index : Nat) : index < (grown cells index).size := by
  simp only [grown, Array.size_append, Array.size_replicate]
  omega

/-- Put something into a slot; the frame grows if the slot is past its end. -/
def put (f : Frame V) (s : SlotId) (c : Cell V) : Frame V :=
  ⟨(grown f.cells s.index).set s.index c (lt_size_grown f.cells s.index)⟩

def set (f : Frame V) (s : SlotId) (v : V) : Frame V := f.put s (.value v)

/-- Empty a slot; past the end there is nothing to empty. -/
def clear (f : Frame V) (s : SlotId) : Frame V := ⟨f.cells.setIfInBounds s.index .empty⟩

def clearAll (f : Frame V) (slots : List SlotId) : Frame V := slots.foldl clear f

/-- Take the name of a block out of a slot.  A slot that holds something else is left alone. -/
def takeBlock (f : Frame V) (s : SlotId) : Option BlockId × Frame V :=
  match f.cell s with
  | .block b => (some b, f.clear s)
  | _ => (none, f)

/-- What a move between slots reads. -/
def read [FrameValue V] (f : Frame V) : Source SlotId → Cell V
  | .loc s => f.cell s
  | .const c => .value (FrameValue.ofConstant c)

/-- Put something into a slot, as one write of a copy. -/
def write (s : SlotId) (c : Cell V) : StateM (Frame V) Unit := modify fun f => f.put s c

/-- Perform a parallel copy: everything is read from the frame as it is, then written in order. -/
def perform [FrameValue V] (f : Frame V) (copy : ParallelCopy SlotId) : Frame V :=
  ((copy.perform (fun src => pure (f.read src)) write).run f).2

/-! ## Reading back -/

@[simp] theorem cell_put (f : Frame V) (s t : SlotId) (c : Cell V) :
    (f.put s c).cell t = if s = t then c else f.cell t := by
  by_cases h : s = t
  · subst h
    simp [put, cell]
  · have hne : s.index ≠ t.index := fun e => h (Ident.ext e)
    simp only [put, cell, h, if_false]
    rw [Array.getElem?_set_ne _ hne]
    simp only [grown, Array.getElem?_append]
    split
    · rfl
    · rename_i hlt
      rw [Array.getElem?_eq_none (Nat.not_lt.1 hlt)]
      simp only [Array.getElem?_replicate]
      split <;> rfl

@[simp] theorem cell_clear (f : Frame V) (s t : SlotId) :
    (f.clear s).cell t = if s = t then .empty else f.cell t := by
  by_cases h : s = t
  · subst h
    simp only [clear, cell, Array.getElem?_setIfInBounds_self, if_true]
    split <;> rfl
  · have hne : s.index ≠ t.index := fun e => h (Ident.ext e)
    simp [clear, cell, h, Array.getElem?_setIfInBounds_ne hne]

/-- **A copy writes what its sources held at the start**, one destination after the other. -/
theorem perform_eq [FrameValue V] (f : Frame V) (copy : ParallelCopy SlotId) :
    f.perform copy =
      (copy.moves.map fun m => (m.dst, f.read m.src)).foldl (fun g w => g.put w.1 w.2) f := by
  have writes : ∀ (ms : List (Move SlotId)) (g : Frame V),
      (((ms.zip (ms.map fun m : Move SlotId => f.read m.src)).forM
        fun w : Move SlotId × Cell V => write w.1.dst w.2).run g).2 =
      (ms.map fun m => (m.dst, f.read m.src)).foldl (fun g w => g.put w.1 w.2) g := by
    intro ms
    induction ms with
    | nil => intro g; rfl
    | cons m rest ih => intro g; exact ih (g.put m.dst (f.read m.src))
  simp only [perform, ParallelCopy.perform, List.mapM_pure]
  exact writes copy.moves f

end Frame

/-- The code of a cell of constants: an empty cell is `_`, the name of a block is not spelled out. -/
def Cell.code : Cell Constant → String
  | empty => "_"
  | value c => c.code
  | block _ => "block"

/-- The code of a frame of constants: its cells, parted by blanks. -/
def Frame.code (f : Frame Constant) : String := " ".intercalate (f.cells.toList.map Cell.code)

end FlowTree
