import FlowTree.Decimal.Shortest
import FlowTree.Program.Func

/-!
# The written form of functions

One line for each instruction, one paragraph for each block; every line of a block ends in a newline.
The form is meant for reading: it is not parsed back.  A store names what it writes before where it
writes it, and the default of a switch stands before its cases.
-/

namespace FlowTree

/-- The written form of a constant. -/
def Constant.text : Constant → String
  | int n => toString n.toInt
  | float bits => (Binary.ofBits bits).text
  | bool b => if b then "true" else "false"
  | null => "null"
  | undefined => "undef"

def Operand.text : Operand → String
  | value v => v.text
  | const c => c.text

def UnaryOp.text : UnaryOp → String
  | neg => "neg"
  | not => "not"

def BinaryOp.text : BinaryOp → String
  | add => "add"
  | sub => "sub"
  | mul => "mul"
  | div => "div"
  | rem => "rem"
  | and => "and"
  | or => "or"
  | xor => "xor"
  | shl => "shl"
  | shr => "shr"

def Comparison.text : Comparison → String
  | eq => "eq"
  | ne => "ne"
  | lt => "lt"
  | le => "le"
  | gt => "gt"
  | ge => "ge"

/-- Texts in a row, parted by commas. -/
def commaSeparated (texts : List String) : String := ", ".intercalate texts

/-- A call of a function, behind the name of its result if it has one. -/
def callText (verb : String) (dst : Option ValueId) (callee : String) (args : List Operand) :
    String :=
  let result := match dst with
    | some v => v.text ++ " = "
    | none => ""
  s!"{result}{verb} @{callee}({commaSeparated (args.map Operand.text)})"

/-- The written form of what a φ takes from one predecessor. -/
def Incoming.text (i : Incoming) : String := s!"[{i.operand.text}, {i.source.text}]"

def Instr.text : Instr → String
  | phi dst incoming => s!"{dst.text} = phi {commaSeparated (incoming.map Incoming.text)}"
  | copy dst operand => s!"{dst.text} = {operand.text}"
  | unary dst op operand => s!"{dst.text} = {op.text} {operand.text}"
  | binary dst op left right => s!"{dst.text} = {op.text} {left.text}, {right.text}"
  | compare dst test left right => s!"{dst.text} = cmp {test.text} {left.text}, {right.text}"
  | select dst condition whenTrue whenFalse =>
    s!"{dst.text} = select {condition.text}, {whenTrue.text}, {whenFalse.text}"
  | load dst address => s!"{dst.text} = load {address.text}"
  | store address value => s!"store {value.text}, {address.text}"
  | call dst callee args => callText "call" dst callee args

/-- The written form of one case of a switch. -/
def caseText (arm : Int64 × BlockId) : String := s!"{arm.1.toInt}: {arm.2.text}"

def Terminator.text : Terminator → String
  | ret (some operand) => s!"ret {operand.text}"
  | ret none => "ret"
  | br target => s!"br {target.text}"
  | condBr condition whenTrue whenFalse =>
    s!"br {condition.text}, {whenTrue.text}, {whenFalse.text}"
  | switch scrutinee cases otherwise =>
    s!"switch {scrutinee.text}, {otherwise.text} [{commaSeparated (cases.map caseText)}]"
  | indirectBr address targets =>
    s!"indirectbr {address.text}, [{commaSeparated (targets.map Ident.text)}]"
  | invoke dst callee args normal unwind =>
    callText "invoke" dst callee args ++ s!" to {normal.text} unwind {unwind.text}"
  | resume operand => s!"resume {operand.text}"
  | unreachable => "unreachable"

def Block.text (b : Block) : String :=
  let lines := b.instrs.map Instr.text ++ [b.terminator.text]
  b.id.text ++ ":\n" ++ String.join (lines.map fun line => "  " ++ line ++ "\n")

/-- The written form of a function. -/
def Func.text (f : Func) : String :=
  s!"fn {f.name}({commaSeparated (f.params.map Ident.text)}) \x7b\n" ++
    String.join (f.blocks.map Block.text) ++ "\x7d"

end FlowTree
