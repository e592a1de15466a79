import FlowTree.Eval.Integer
import FlowTree.Lowering.Lower

/-!
# Trial runs

Runs that are watched.  A trial has a budget of blocks, records each block with the frame that it
found, and can follow a script instead of running instructions: the script says which edges are
taken.

Trials of one tree follow each other, and a trial may start from the frame that the one before it
left, also when that one failed.

## Main definitions

* `Cue`, `Watch` — one item of a script, and what a trial keeps track of.
* `Trial.runner` — what a block does in a trial.
* `Trial`, `Trial.Report` — a trial and what came of it.
* `Trial.perform`, `Trial.performAll` — one trial, and trials one after the other.
-/

namespace FlowTree

/-- One item of a script. -/
inductive Cue where
  | branch (position : Nat)
  | ret
  | fail
deriving DecidableEq, Repr

/-- Why a block fails in a trial. -/
inductive TrialError where
  | eval (e : EvalError)
  | outOfFuel
  | scripted
deriving DecidableEq, Repr

def TrialError.message : TrialError → String
  | eval e => e.message
  | outOfFuel => "out of fuel"
  | scripted => "scripted failure"

/-- What a trial keeps track of. -/
structure Watch where
  fuel : Nat
  script : Option (List Cue)
  /-- The blocks run so far with the frames that they found, the latest first. -/
  trace : List (BlockId × Frame Constant) := []
deriving DecidableEq, Repr

/-- One trial. -/
structure Trial where
  /-- Whether to start from the frame that the trial before it left. -/
  reuse : Bool := false
  /-- Slots to be filled before the arguments. -/
  preset : List (SlotId × Constant) := []
  args : List Constant := []
  fuel : Nat := 200
  script : Option (List Cue) := none
deriving DecidableEq, Repr

namespace Trial

/-- What a block does in a trial: it uses up fuel, is recorded, and follows the script or runs.
Without successors it has nothing to follow and returns. -/
def runner (layout : Layout) : Runner Block Watch Constant TrialError := fun b watch frame =>
  match watch.fuel with
  | 0 => (.error .outOfFuel, watch, frame)
  | fuel + 1 =>
    let watch := { watch with fuel, trace := (b.id, frame) :: watch.trace }
    match watch.script with
    | none =>
      let (result, _, frame) := integerMeaning.runBlock layout b () frame
      (result.mapError .eval, watch, frame)
    | some cues =>
      if b.terminator.successors.isEmpty then (.ok (.ret none), watch, frame)
      else
        let rest := { watch with script := some cues.tail }
        match cues.head? with
        | some (.branch position) => (.ok (.branch position), rest, frame)
        | some .fail => (.error .scripted, rest, frame)
        | some .ret => (.ok (.ret none), rest, frame)
        | none => (.ok (.ret none), rest, frame)

/-- What came of a trial. -/
structure Report where
  result : Except (RunError TrialError) (Option Constant)
  stats : Stats
  frame : Frame Constant
  /-- The blocks that were run with the frames that they found, in order. -/
  trace : List (BlockId × Frame Constant)

/-- The frame with which a trial starts: the preset slots, then the arguments in the slots of the
parameters. -/
def prepare (trial : Trial) (f : Func) (layout : Layout) (frame : Frame Constant) :
    Frame Constant :=
  let frame := trial.preset.foldl (fun frame (s, c) => frame.set s c) frame
  frame.storeArgs layout f.params trial.args

/-- Perform a trial on a frame.  Every block uses up fuel, so a run is over one block after the
budget. -/
def perform (trial : Trial) (f : Func) (layout : Layout) (t : Tree Block)
    (frame : Frame Constant) : Checked Report :=
  let watch : Watch := { fuel := trial.fuel, script := trial.script }
  let start := trial.prepare f layout frame
  match t.run (runner layout) (trial.fuel + 1) watch start with
  | (none, _) => .error .roundsUsedUp
  | (some result, s) =>
    .ok { result, stats := s.stats, frame := s.frame, trace := s.world.trace.reverse }

/-- Perform trials one after the other; `previous` is the frame that the trial before them left. -/
def performAll (f : Func) (layout : Layout) (t : Tree Block) :
    Option (Frame Constant) → List Trial → Checked (List Report)
  | _, [] => .ok []
  | previous, trial :: rest => do
    let frame := match trial.reuse, previous with
      | true, some frame => frame
      | _, _ => t.newFrame
    let report ← trial.perform f layout t frame
    let reports ← performAll f layout t (some report.frame) rest
    return report :: reports

end Trial

end FlowTree
