import FlowTree.Program.Operand

/-!
# Codes of constants

A code is a short exact spelling of a constant or operand, meant to be read back: an integer is
`i` and its decimal digits, a floating-point number is `f` and the sixteen hexadecimal digits of its
bit pattern, and the others are words.  The written form of a function (`Func.text`) is for people;
codes are for frames, traces and data exchange.
-/

namespace FlowTree

namespace Constant

/-- The hexadecimal digits of a bit pattern, sixteen of them. -/
def hexDigits (bits : UInt64) : List Char :=
  let digits := Nat.toDigits 16 bits.toNat
  List.replicate (16 - digits.length) '0' ++ digits

/-- The value of a lower-case hexadecimal digit. -/
def hexValue? (c : Char) : Option Nat :=
  if '0' ≤ c ∧ c ≤ '9' then some (c.toNat - '0'.toNat)
  else if 'a' ≤ c ∧ c ≤ 'f' then some (c.toNat - 'a'.toNat + 10)
  else none

/-- The code of a constant. -/
def code : Constant → String
  | int n => s!"i{n.toInt}"
  | float bits => "f" ++ String.ofList (hexDigits bits)
  | bool true => "true"
  | bool false => "false"
  | null => "null"
  | undefined => "undef"

/-- The constant with a given code. -/
def ofCode? (text : String) : Option Constant :=
  match text with
  | "true" => some (bool true)
  | "false" => some (bool false)
  | "null" => some null
  | "undef" => some undefined
  | _ =>
    match text.toList with
    | 'i' :: digits => (String.ofList digits).toInt?.map fun n => int (Int64.ofInt n)
    | 'f' :: digits =>
      (digits.foldlM (fun n c => (hexValue? c).map (n * 16 + ·)) 0).map fun n => float n.toUInt64
    | _ => none

end Constant

namespace Operand

/-- The code of an operand. -/
def code : Operand → String
  | value v => v.text
  | const c => c.code

/-- The operand with a given code. -/
def ofCode? (text : String) : Option Operand :=
  match text.toList with
  | '%' :: digits => (String.ofList digits).toNat?.map fun n => value ⟨n⟩
  | _ => (Constant.ofCode? text).map const

end Operand

end FlowTree
