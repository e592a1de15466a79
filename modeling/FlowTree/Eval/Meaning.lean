import FlowTree.Run.Dispatch

/-!
# Running blocks

What a block does to a frame, given what single instructions mean.  A *meaning* says what an
instruction computes and how a terminator leaves its block, from what their operands hold; here it
is said where operands are read from and results are put.  A meaning may carry a state of its own
from instruction to instruction, such as a memory.

The instructions behind the φs run in order, then the terminator.  A value is read from its slot and
written to its slot; a value without a slot can be written, to no effect, but not read.  What a
terminator defines on an edge is written when that edge is taken.

## Main definitions

* `Leave`, `Meaning` — how a terminator leaves its block, and what instructions mean.
* `Meaning.read`, `Frame.store`, `Frame.storeArgs` — operands, results and arguments in a frame.
* `Meaning.runInstrs`, `Meaning.runTerminator`, `Meaning.runBlock` — a block run on a frame.
-/

namespace FlowTree

/-- How a terminator leaves its block. -/
inductive Leave (V : Type) where
  | ret (value : Option V)
  /-- It takes the edge at a position, with a result if it has one. -/
  | take (position : Nat) (result : Option V)
deriving DecidableEq, Repr

/-- What operands hold, where they can be read. -/
abbrev Reader (V E : Type) := Operand → Except E V

/-- Of some operands, `read'` reads whatever `read` reads, and finds the same. -/
def Reader.Extends {V E : Type} (xs : List Operand) (read read' : Reader V E) : Prop :=
  ∀ x ∈ xs, ∀ v, read x = .ok v → read' x = .ok v

/-- What instructions and terminators mean, given what operands hold, with a state of type `σ`. -/
structure Meaning (σ V E : Type) where
  noSlot : ValueId → E
  emptySlot : ValueId → E
  instr : σ → Reader V E → Instr → Except E (Option V × σ)
  leave : σ → Reader V E → Terminator → Except E (Leave V × σ)
  /-- What an instruction computes rests on those of its operands that it reads. -/
  instr_extends : ∀ {w read read' i r}, Reader.Extends (Instr.operands i) read read' →
    instr w read i = .ok r → instr w read' i = .ok r
  /-- How a terminator leaves rests on those of its operands that it reads. -/
  leave_extends : ∀ {w read read' t r}, Reader.Extends (Terminator.operands t) read read' →
    leave w read t = .ok r → leave w read' t = .ok r

/-- Put a result into the slot of a value; without a result, a value or a slot, nothing happens. -/
def Frame.store {V : Type} (layout : Layout) (f : Frame V) (v : Option ValueId) (x : Option V) :
    Frame V :=
  match v.bind layout.slotOf, x with
  | some s, some x => f.set s x
  | _, _ => f

/-- Put arguments into the slots of the parameters.  Parameters without a slot, and arguments
without a parameter, are passed over. -/
def Frame.storeArgs {V : Type} (layout : Layout) (f : Frame V) (params : List ValueId)
    (args : List V) : Frame V :=
  (params.zip args).foldl (fun f (v, x) => f.store layout (some v) (some x)) f

namespace Meaning

variable {σ V E : Type} [FrameValue V]

/-- What an operand holds in a frame. -/
def read (M : Meaning σ V E) (layout : Layout) (f : Frame V) : Reader V E
  | .const c => .ok (FrameValue.ofConstant c)
  | .value v =>
    match layout.slotOf v with
    | none => .error (M.noSlot v)
    | some s =>
      match f.get? s with
      | none => .error (M.emptySlot v)
      | some x => .ok x

/-- Run instructions in order.  A failure leaves everything as the instructions before it left it. -/
def runInstrs (M : Meaning σ V E) (layout : Layout) :
    List Instr → σ → Frame V → Except E Unit × σ × Frame V
  | [], w, f => (.ok (), w, f)
  | i :: rest, w, f =>
    match M.instr w (M.read layout f) i with
    | .error e => (.error e, w, f)
    | .ok (x, w) => M.runInstrs layout rest w (f.store layout i.defines x)

/-- Run a terminator.  What it defines on the edge that it takes is written. -/
def runTerminator (M : Meaning σ V E) (layout : Layout) (t : Terminator) (w : σ) (f : Frame V) :
    Except E (Transfer V) × σ × Frame V :=
  match M.leave w (M.read layout f) t with
  | .error e => (.error e, w, f)
  | .ok (.ret value, w) => (.ok (.ret value), w, f)
  | .ok (.take position result, w) =>
    (.ok (.branch position), w, f.store layout (t.definesOn position) result)

/-- Run a block: the instructions behind its φs, then its terminator. -/
def runBlock (M : Meaning σ V E) (layout : Layout) (b : Block) (w : σ) (f : Frame V) :
    Except E (Transfer V) × σ × Frame V :=
  match M.runInstrs layout b.body w f with
  | (.error e, w, f) => (.error e, w, f)
  | (.ok (), w, f) => M.runTerminator layout b.terminator w f

end Meaning

end FlowTree
