import Repaint.Binary.Basic

/-!
# Decimal text of binary numbers

Two texts of a number. `Binary.tenths` rounds the exact value to one decimal, ties to even.
`Binary.shortest` writes the fewest digits that still read back as the same number: it walks from coarse
decimal grids to fine ones and takes the first grid with a point that rounds to the number, of two such
points the nearer.
-/

namespace Repaint

/-- A decimal number: some digits times a power of ten. -/
structure Decimal where
  digits : Nat
  /-- The power of ten they are multiplied with. -/
  exponent : Int
deriving DecidableEq

namespace Decimal

/-- The same number without zeros at the end of its digits; `fuel` bounds how many are dropped. -/
def trim : Nat → Decimal → Decimal
  | 0, d => d
  | fuel + 1, d =>
    if d.digits ≠ 0 ∧ d.digits % 10 = 0 then trim fuel ⟨d.digits / 10, d.exponent + 1⟩ else d

/-- Digits around a point, with at least one on each side. The number is one-point-something times a power
of ten from `10^16` on and below `10^-5`. -/
def text (d : Decimal) : String :=
  let digits := (toString d.digits).toList
  let point := digits.length + d.exponent
  let zeros (n : Int) := List.replicate n.toNat '0'
  let written :=
    if -5 < point ∧ point ≤ 0 then '0' :: '.' :: zeros (-point) ++ digits
    else if 0 < point ∧ point ≤ 16 then
      if 0 ≤ d.exponent then digits ++ zeros d.exponent ++ ['.', '0']
      else digits.take point.toNat ++ '.' :: digits.drop point.toNat
    else
      let fraction := if digits.length ≤ 1 then [] else '.' :: digits.drop 1
      let mark := if point ≤ 0 then ['e'] else ['e', '+']
      digits.take 1 ++ fraction ++ mark ++ (toString (point - 1)).toList
  String.ofList written

end Decimal

namespace Binary

variable {fmt : Format}

/-- The decimals that round to a positive number of units, as bounds in quarters of a unit and whether the
bounds themselves belong to them. -/
structure RoundingInterval where
  lower : Nat
  upper : Nat
  /-- Whether the bounds round to the number, as ties do when its last bit is zero. -/
  closed : Bool

/-- The rounding interval of a positive number of units. Below a power of two the numbers lie twice as
dense. -/
def roundingInterval (fmt : Format) (units : Nat) : RoundingInterval :=
  let spacing := fmt.spacing units
  let below := if 1 < spacing ∧ units = pow2 units.log2 then spacing else 2 * spacing
  ⟨4 * units - below, 4 * units + 2 * spacing, units / spacing % 2 = 0⟩

/-- Whether a fraction of a quarter unit lies in the interval. -/
def RoundingInterval.contains (i : RoundingInterval) (num den : Nat) : Bool :=
  if i.closed then i.lower * den ≤ num && num ≤ i.upper * den
  else i.lower * den < num && num < i.upper * den

/-- The point of the grid of multiples of `10^exponent` that reads back as the number, if there is one: of
the two around the number the nearer that does, the even one of two equally near. -/
def onGrid? (fmt : Format) (units : Nat) (exponent : Int) : Option Decimal :=
  let interval := roundingInterval fmt units
  let fine := Nat.pow 10 (-exponent).toNat
  let coarse := pow2 fmt.scale * Nat.pow 10 exponent.toNat
  let low := units * fine / coarse
  let hits (c : Nat) : Bool := interval.contains (4 * c * coarse) fine
  let near := nearestWhole (units * fine) coarse
  let far := if near = low then low + 1 else low
  if hits near then some ⟨near, exponent⟩ else if hits far then some ⟨far, exponent⟩ else none

/-- The first decimal found on grids from `10^exponent` downwards, at most `fuel` of them. -/
def firstOnGrid (fmt : Format) (units : Nat) : Nat → Int → Decimal
  | 0, exponent => ⟨0, exponent⟩
  | fuel + 1, exponent =>
    match onGrid? fmt units exponent with
    | some d => d
    | none => firstOnGrid fmt units fuel (exponent - 1)

/-- The shortest decimal that reads back as a positive number of units. The first grid is coarser than the
number; the last that can be needed has the digits of the smallest number. -/
def shortestDecimal (fmt : Format) (units : Nat) : Decimal :=
  let first := (toString (units / pow2 fmt.scale)).length
  (firstOnGrid fmt units (first + fmt.scale) first).trim first

/-- The text with the fewest digits that reads back as the number. -/
def shortest : Binary fmt → String
  | .finite a =>
    if a = 0 then "0.0"
    else (if a < 0 then "-" else "") ++ (shortestDecimal fmt a.natAbs).text
  | .negInf => "-inf"
  | .posInf => "inf"
  | .nan => "NaN"

/-- The exact value rounded to one decimal, ties to even. -/
def tenths : Binary fmt → String
  | .finite a =>
    let count := nearestWhole (a.natAbs * 10) (pow2 fmt.scale)
    (if a < 0 then "-" else "") ++ toString (count / 10) ++ "." ++ toString (count % 10)
  | .negInf => "-inf"
  | .posInf => "inf"
  | .nan => "NaN"

end Binary

end Repaint
