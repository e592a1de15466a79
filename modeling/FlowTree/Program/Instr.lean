import FlowTree.Program.Operand

/-!
# Instructions

The instructions of a block, apart from the one that ends it.  A φ reads its operands on the edge
by which control arrives, at the end of the predecessor, and so has no operands in its own block.
-/

namespace FlowTree

/-- An operator on one operand. -/
inductive UnaryOp where
  | neg | not
deriving DecidableEq, Repr

/-- An operator on two operands. -/
inductive BinaryOp where
  | add | sub | mul | div | rem | and | or | xor | shl | shr
deriving DecidableEq, Repr

/-- A comparison of two operands. -/
inductive Comparison where
  | eq | ne | lt | le | gt | ge
deriving DecidableEq, Repr

/-- What a φ takes when control arrives from one predecessor. -/
structure Incoming where
  source : BlockId
  operand : Operand
deriving DecidableEq, Repr

/-- An instruction that does not end its block. -/
inductive Instr where
  /-- Merge the values that arrive on different edges. -/
  | phi (dst : ValueId) (incoming : List Incoming)
  | copy (dst : ValueId) (operand : Operand)
  | unary (dst : ValueId) (op : UnaryOp) (operand : Operand)
  | binary (dst : ValueId) (op : BinaryOp) (left right : Operand)
  | compare (dst : ValueId) (test : Comparison) (left right : Operand)
  | select (dst : ValueId) (condition whenTrue whenFalse : Operand)
  | load (dst : ValueId) (address : Operand)
  | store (address value : Operand)
  /-- Call a function; the result is dropped if it has no name. -/
  | call (dst : Option ValueId) (callee : String) (args : List Operand)
deriving DecidableEq, Repr

namespace Instr

/-- The value that the instruction writes, if any. -/
def defines : Instr → Option ValueId
  | phi dst _ => some dst
  | copy dst _ => some dst
  | unary dst _ _ => some dst
  | binary dst _ _ _ => some dst
  | compare dst _ _ _ => some dst
  | select dst _ _ _ => some dst
  | load dst _ => some dst
  | store _ _ => none
  | call dst _ _ => dst

/-- The operands that the instruction reads in its own block, in order. -/
def operands : Instr → List Operand
  | phi _ _ => []
  | copy _ operand => [operand]
  | unary _ _ operand => [operand]
  | binary _ _ left right => [left, right]
  | compare _ _ left right => [left, right]
  | select _ condition whenTrue whenFalse => [condition, whenTrue, whenFalse]
  | load _ address => [address]
  | store address value => [address, value]
  | call _ _ args => args

/-- The values that the instruction reads in its own block, in order. -/
def uses (i : Instr) : List ValueId := i.operands.filterMap Operand.value?

def isPhi : Instr → Bool
  | phi _ _ => true
  | _ => false

end Instr

end FlowTree
