import FlowTree.Program.Instr
import FlowTree.Program.Terminator

/-!
# Blocks and functions

A function is a list of basic blocks; control starts at the first.  Nothing is checked here: the
identifier that a block carries and its position in the list may differ, a successor may not exist,
and a φ may stand behind other instructions.  `FlowGraph.ofFunc` and `EdgeCopies.ofFunc` refuse
such functions.
-/

namespace FlowTree

/-- A basic block. -/
structure Block where
  /-- The name of the block; it should be its position in the function. -/
  id : BlockId
  /-- The instructions in order; φs should come first. -/
  instrs : List Instr
  terminator : Terminator
deriving DecidableEq, Repr

namespace Block

/-- The φs at the head of the block. -/
def phis (b : Block) : List Instr := b.instrs.takeWhile Instr.isPhi

/-- The instructions behind the leading φs. -/
def body (b : Block) : List Instr := b.instrs.dropWhile Instr.isPhi

theorem phis_append_body (b : Block) : b.phis ++ b.body = b.instrs :=
  List.takeWhile_append_dropWhile

end Block

/-- A function in block form. -/
structure Func where
  name : String
  params : List ValueId
  /-- The blocks; control starts at the first. -/
  blocks : List Block
  valueCount : Nat
deriving DecidableEq, Repr

namespace Func

def entry (_ : Func) : BlockId := BlockId.entry

/-- The block at the position that `b` names. -/
def block? (f : Func) (b : BlockId) : Option Block := f.blocks[b.index]?

end Func

end FlowTree
