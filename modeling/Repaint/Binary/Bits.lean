import Repaint.Binary.Basic

/-!
# Bit patterns of doubles

A double's 64 bits hold its sign, eleven bits of exponent and 52 bits of fraction. Read as a count of
units, exponent 0 means the fraction itself, exponent `e > 0` means `2^52` plus the fraction, times
`2^(e - 1)`, and the largest exponent means an infinity or not-a-number. `Binary.toBits` writes what
`Binary.ofBits` reads, with the positive zero and one pattern for not-a-number.
-/

namespace Repaint

namespace Binary

/-- The exponent field that marks infinities and not-a-number. -/
def topExponent : Nat := 2047

/-- The double with a bit pattern. -/
def ofBits (bits : Nat) : Binary Format.double :=
  let negative := bits / pow2 63 % 2 = 1
  let exponent : Nat := bits / pow2 52 % pow2 11
  let fraction : Nat := bits % pow2 52
  if exponent = topExponent then
    if fraction ≠ 0 then .nan else if negative then .negInf else .posInf
  else
    let units : Nat := if exponent = 0 then fraction else (pow2 52 + fraction) * pow2 (exponent - 1)
    .finite (if negative then -(units : Int) else units)

/-- The exponent and fraction fields of a count of units below the range. -/
def fieldsOfUnits (units : Nat) : Nat :=
  if units < pow2 52 then units
  else
    let shift := units.log2 - 52
    (shift + 1) * pow2 52 + (units / pow2 shift - pow2 52)

/-- The bit pattern of a double. -/
def toBits : Binary Format.double → Nat
  | .finite a => (if a < 0 then pow2 63 else 0) + fieldsOfUnits a.natAbs
  | .negInf => pow2 63 + topExponent * pow2 52
  | .posInf => topExponent * pow2 52
  | .nan => topExponent * pow2 52 + pow2 51

end Binary

end Repaint
