import FlowTree.Decimal.Binary

/-!
# Shortest decimals

The decimal with the fewest digits that reads back as a given binary number, and of those the one
closest to it; a number halfway between two of them is rounded up.  It is written positionally,
however many zeros that takes, and without a fractional part if that is zero.

The search goes through decimal grids from coarse to fine.  On each grid only the two neighbours of
the number matter, because a grid that meets the interval of numbers that read back also has one of
the two neighbours in it.  All arithmetic is exact.
-/

namespace FlowTree

/-- The number `digits * 10 ^ exponent`. -/
structure Decimal where
  digits : Nat
  /-- The power of ten of the last digit. -/
  exponent : Int
deriving DecidableEq, Repr

namespace Decimal

/-- The point of the grid `10 ^ exponent` that is to stand for `mantissa * 2 ^ power`, if one of
the number's two neighbours on the grid reads back as it.

Everything is counted in quarters of the last bit of the mantissa and brought to a common
denominator, so that the number is `value / unit` grid steps.  The ends of the interval read back
exactly when the mantissa is even. -/
def onGrid (mantissa : Nat) (power exponent : Int) : Option Nat :=
  let scale := Nat.pow 10 (-exponent).toNat <<< (power - 2).toNat
  let unit := Nat.pow 10 exponent.toNat <<< (2 - power).toNat
  let value := 4 * mantissa * scale
  let low := (4 * mantissa - if Binary.hasNarrowGap mantissa power then 1 else 2) * scale
  let high := (4 * mantissa + 2) * scale
  let readsBack (point : Nat) : Bool :=
    if mantissa % 2 = 0 then decide (low ≤ point * unit ∧ point * unit ≤ high)
    else decide (low < point * unit ∧ point * unit < high)
  let below := value / unit
  match readsBack below, readsBack (below + 1) with
  | false, false => none
  | true, false => some below
  | false, true => some (below + 1)
  | true, true => some (if 2 * (value - below * unit) < unit then below else below + 1)

/-- The first hit on the grids `10 ^ exponent`, `10 ^ (exponent - 1)`, and so on. -/
def search (mantissa : Nat) (power : Int) : Nat → Int → Decimal
  | 0, exponent => ⟨0, exponent⟩
  | rounds + 1, exponent =>
    match onGrid mantissa power exponent with
    | some digits => ⟨digits, exponent⟩
    | none => search mantissa power rounds (exponent - 1)

/-- The shortest decimal that reads back as `mantissa * 2 ^ power`, for a positive mantissa of at
most 53 bits.  The first grid is coarser than the number; seventeen digits always read back. -/
def shortest (mantissa : Nat) (power : Int) : Decimal :=
  let bits : Int := (mantissa.log2 : Int) + 1 + power
  search mantissa power 24 (bits * 30103 / 100000 + 2)

/-- The decimal without an exponent. -/
def positional (d : Decimal) : String :=
  let digits := toString d.digits
  if 0 ≤ d.exponent then
    digits ++ "".pushn '0' d.exponent.toNat
  else
    let places := (-d.exponent).toNat
    if digits.length ≤ places then
      "0." ++ "".pushn '0' (places - digits.length) ++ digits
    else
      let whole := digits.length - places
      String.ofList (digits.toList.take whole) ++ "." ++ String.ofList (digits.toList.drop whole)

end Decimal

/-- The written form of a 64-bit number. -/
def Binary.text : Binary → String
  | nan => "NaN"
  | infinite negative => if negative then "-inf" else "inf"
  | finite negative mantissa exponent =>
    let sign := if negative then "-" else ""
    if mantissa = 0 then sign ++ "0"
    else sign ++ (Decimal.shortest mantissa exponent).positional

end FlowTree
