import FlowTree.Ident.Basic

/-!
# Constants and operands

An operand of an instruction is a value or a constant.  A floating-point constant is kept as its
bit pattern, so constants are compared bit by bit and every constant equals itself.
-/

namespace FlowTree

/-- A constant. -/
inductive Constant where
  | int (n : Int64)
  /-- A floating-point number, as its bit pattern. -/
  | float (bits : UInt64)
  | bool (b : Bool)
  | null
  /-- A value that nothing may depend on. -/
  | undefined
deriving DecidableEq, Repr

/-- What an instruction reads. -/
inductive Operand where
  | value (v : ValueId)
  | const (c : Constant)
deriving DecidableEq, Repr

/-- The value that an operand reads, if it is not a constant. -/
def Operand.value? : Operand → Option ValueId
  | value v => some v
  | const _ => none

end FlowTree
