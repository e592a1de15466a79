import FlowTree.Program.Operand

/-!
# Terminators

How control leaves a block.  The successors of a terminator have positions, and an edge is named by
the position it leaves from: two edges of one block may lead to the same block.
-/

namespace FlowTree

/-- How control leaves a block. -/
inductive Terminator where
  | ret (operand : Option Operand)
  | br (target : BlockId)
  | condBr (condition : Operand) (whenTrue whenFalse : BlockId)
  /-- Go to the successor of the first matching case, or else to the last successor. -/
  | switch (scrutinee : Operand) (cases : List (Int64 × BlockId)) (otherwise : BlockId)
  | indirectBr (address : Operand) (targets : List BlockId)
  /-- Call a function; go to the first successor with its result, or to the second if it unwinds. -/
  | invoke (dst : Option ValueId) (callee : String) (args : List Operand)
      (normal unwind : BlockId)
  | resume (operand : Operand)
  | unreachable
deriving DecidableEq, Repr

namespace Terminator

/-- The successors by position; a block can occur more than once. -/
def successors : Terminator → List BlockId
  | ret _ => []
  | br target => [target]
  | condBr _ whenTrue whenFalse => [whenTrue, whenFalse]
  | switch _ cases otherwise => cases.map Prod.snd ++ [otherwise]
  | indirectBr _ targets => targets
  | invoke _ _ _ normal unwind => [normal, unwind]
  | resume _ => []
  | unreachable => []

/-- The operands that the terminator reads, in order. -/
def operands : Terminator → List Operand
  | ret operand => operand.toList
  | br _ => []
  | condBr condition _ _ => [condition]
  | switch scrutinee _ _ => [scrutinee]
  | indirectBr address _ => [address]
  | invoke _ _ args _ _ => args
  | resume operand => [operand]
  | unreachable => []

/-- The values that the terminator reads, in order. -/
def uses (t : Terminator) : List ValueId := t.operands.filterMap Operand.value?

/-- The value that the terminator writes on the edge at `position`: only a call that may unwind
writes one, and only where it returns normally. -/
def definesOn (t : Terminator) (position : Nat) : Option ValueId :=
  match t, position with
  | invoke dst _ _ _ _, 0 => dst
  | _, _ => none

end Terminator

end FlowTree
