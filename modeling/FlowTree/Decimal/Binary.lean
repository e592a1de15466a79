/-!
# Binary numbers in 64 bits

A 64-bit pattern of the usual binary interchange format: one bit of sign, eleven of exponent and
fifty-two of fraction.  `Binary.ofBits` takes the pattern apart; nothing here rounds.
-/

namespace FlowTree

/-- What a 64-bit pattern stands for. -/
inductive Binary where
  | nan
  | infinite (negative : Bool)
  /-- `mantissa * 2 ^ exponent` with the given sign; zero has a sign too. -/
  | finite (negative : Bool) (mantissa : Nat) (exponent : Int)
deriving DecidableEq, Repr

namespace Binary

/-- The number of bits of the fraction. -/
def fractionBits : Nat := 52

/-- The meaning of a pattern.  The smallest exponent has no implicit leading bit, the largest is
kept for infinities and for what is not a number. -/
def ofBits (bits : UInt64) : Binary :=
  let n := bits.toNat
  let negative := n.testBit 63
  let exponent : Nat := (n >>> fractionBits) % (1 <<< 11)
  let fraction : Nat := n % (1 <<< fractionBits)
  if exponent = 1 <<< 11 - 1 then
    if fraction = 0 then infinite negative else nan
  else if exponent = 0 then finite negative fraction (-1074)
  else finite negative (1 <<< fractionBits + fraction) ((exponent : Int) - 1075)

/-- Whether the next smaller number is closer than the next larger one: the mantissa is the
smallest of its exponent, and there is a smaller exponent. -/
def hasNarrowGap (mantissa : Nat) (exponent : Int) : Bool :=
  mantissa == 1 <<< fractionBits && decide (-1074 < exponent)

end Binary

end FlowTree
