import FlowTree.Program.Draft

/-!
# Commands to a draft

The edits that a draft can be asked for, as data.  An `Edit` is any computation on a draft; a
`Command` is one of the edits on offer, so that "every draft that can be written" is a statement
about lists of commands.

A fault does not end a draft: the next command goes on with what the fault left.

## Main definitions

* `Command`, `Reply` — what can be asked, and what is answered.
* `Command.edit` — the edit that a command asks for.
* `Draft.perform`, `Draft.performAll` — a draft after one command, and after several.
-/

namespace FlowTree

/-- What a draft can be asked for. -/
inductive Command where
  | freshValue
  | param
  | newBlock
  /-- Go on writing at a block. -/
  | moveTo (b : BlockId)
  | current
  | isTerminated
  | phi (incoming : List Incoming)
  /-- Give a φ one more predecessor. -/
  | addIncoming (b : BlockId) (v : ValueId) (more : Incoming)
  | copy (operand : Operand)
  | unary (op : UnaryOp) (operand : Operand)
  | binary (op : BinaryOp) (left right : Operand)
  | compare (test : Comparison) (left right : Operand)
  | select (condition whenTrue whenFalse : Operand)
  | load (address : Operand)
  | store (address value : Operand)
  | call (callee : String) (args : List Operand) (hasResult : Bool)
  | ret (operand : Option Operand)
  | br (target : BlockId)
  | condBr (condition : Operand) (whenTrue whenFalse : BlockId)
  | switch (scrutinee : Operand) (cases : List (Int64 × BlockId)) (otherwise : BlockId)
  | indirectBr (address : Operand) (targets : List BlockId)
  | invoke (callee : String) (args : List Operand) (normal unwind : BlockId) (hasResult : Bool)
  | resume (operand : Operand)
  | unreachable
deriving DecidableEq, Repr

/-- What a draft answers. -/
inductive Reply where
  | done
  | value (v : ValueId)
  | block (b : BlockId)
  | flag (b : Bool)
  | result (v : Option ValueId)
deriving DecidableEq, Repr

namespace Command

/-- Add an instruction that defines a new value, and answer its name. -/
def define (instr : ValueId → Instr) : Edit Reply := return .value (← Edit.define instr)

def terminate (t : Terminator) : Edit Reply := do
  Edit.terminate t
  return .done

/-- The edit that a command asks for. -/
def edit : Command → Edit Reply
  | freshValue => return .value (← Edit.freshValue)
  | param => return .value (← Edit.param)
  | newBlock => return .block (← Edit.newBlock)
  | moveTo b => do
    Edit.moveTo b
    return .done
  | current => return .block (← Edit.current)
  | isTerminated => return .flag (← Edit.isTerminated)
  | phi incoming => return .value (← Edit.phi incoming)
  | addIncoming b v more => return .flag (← Edit.addIncoming b v more)
  | copy operand => define fun dst => .copy dst operand
  | unary op operand => define fun dst => .unary dst op operand
  | binary op left right => define fun dst => .binary dst op left right
  | compare test left right => define fun dst => .compare dst test left right
  | select condition whenTrue whenFalse => define fun dst => .select dst condition whenTrue whenFalse
  | load address => define fun dst => .load dst address
  | store address value => do
    Edit.push (.store address value)
    return .done
  | call callee args hasResult => return .result (← Edit.call callee args hasResult)
  | ret operand => terminate (.ret operand)
  | br target => terminate (.br target)
  | condBr condition whenTrue whenFalse => terminate (.condBr condition whenTrue whenFalse)
  | switch scrutinee cases otherwise => terminate (.switch scrutinee cases otherwise)
  | indirectBr address targets => terminate (.indirectBr address targets)
  | invoke callee args normal unwind hasResult =>
    return .result (← Edit.invoke callee args normal unwind hasResult)
  | resume operand => terminate (.resume operand)
  | unreachable => terminate .unreachable

end Command

namespace Draft

/-- Carry out a command: the answer or the fault, and the draft that is left. -/
def perform (d : Draft) (c : Command) : Checked Reply × Draft :=
  match c.edit.run d with
  | .ok reply d => (.ok reply, d)
  | .error fault d => (.error fault, d)

/-- Carry out commands one after the other, through faults. -/
def performAll (d : Draft) : List Command → List (Checked Reply) × Draft
  | [] => ([], d)
  | c :: rest =>
    let (reply, d) := d.perform c
    let (replies, d) := d.performAll rest
    (reply :: replies, d)

end Draft

end FlowTree
