/-!
# Binary floating-point numbers as whole numbers of units

A binary format has a smallest positive number, its *unit*, and every finite number of the format is a
whole number of units. So a finite number is stored as the integer that counts its units, beside the
two infinities and not-a-number, and order and exact sums are those of the integers.

Every operation computes its exact result and rounds it once, to nearest with ties to even
(`Binary.ofRatio`). The two zeros of a bit pattern are one value here: no operation of this library tells them
apart. The integers are wider than a format's finite numbers; operations on a format's numbers give the
format's numbers, because each result is rounded.
-/

namespace Repaint

/-- Two to a power. -/
def pow2 (exponent : Nat) : Nat := Nat.pow 2 exponent

/-- A binary floating-point format. -/
structure Format where
  /-- The number of significant bits. -/
  precision : Nat
  /-- The number one is two to this power of units. -/
  scale : Nat
  /-- Finite numbers are below two to this power of units. -/
  range : Nat
deriving DecidableEq

namespace Format

/-- The double format: 53 bits, units of `2^-1074`, numbers below `2^1024`. -/
def double : Format := ⟨53, 1074, 2098⟩

/-- The single format: 24 bits, units of `2^-149`, numbers below `2^128`. -/
def single : Format := ⟨24, 149, 277⟩

/-- The distance of neighbouring numbers of the format where the exact value has the whole part `n`. -/
def spacing (fmt : Format) (n : Nat) : Nat := pow2 (n.log2 - (fmt.precision - 1))

end Format

/-- The whole number nearest to a quotient; of two equally near ones the even one. -/
def nearestWhole (num den : Nat) : Nat :=
  let quotient := num / den
  let twice := 2 * (num % den)
  if twice < den ∨ (twice = den ∧ quotient % 2 = 0) then quotient else quotient + 1

/-- A number of a binary format: an infinity, a finite number counted in units, or not a number. -/
inductive Binary (fmt : Format) where
  /-- The infinity below every finite number. -/
  | negInf
  /-- A finite number, as a count of units. -/
  | finite (units : Int)
  /-- The infinity above every finite number. -/
  | posInf
  /-- The result of an operation that has none; it compares with nothing. -/
  | nan
deriving DecidableEq

namespace Binary

variable {fmt : Format}

instance : Inhabited (Binary fmt) := ⟨.finite 0⟩

instance : OfNat (Binary fmt) 0 := ⟨.finite 0⟩

instance : OfNat (Binary fmt) 1 := ⟨.finite (pow2 fmt.scale)⟩

/-! ## Order -/

/-- The strict order; false where either side is not a number. -/
protected def lt : Binary fmt → Binary fmt → Bool
  | .finite a, .finite b => decide (a < b)
  | .negInf, .finite _ => true
  | .negInf, .posInf => true
  | .finite _, .posInf => true
  | _, _ => false

instance : LT (Binary fmt) := ⟨fun a b => a.lt b = true⟩

instance (a b : Binary fmt) : Decidable (a < b) := inferInstanceAs (Decidable (a.lt b = true))

/-- Whether two numbers compare as equal; not a number equals nothing. -/
def agrees : Binary fmt → Binary fmt → Bool
  | .nan, _ => false
  | a, b => decide (a = b)

/-- The order with equality; false where either side is not a number. -/
protected def le (a b : Binary fmt) : Bool := a.lt b || a.agrees b

instance : LE (Binary fmt) := ⟨fun a b => a.le b = true⟩

instance (a b : Binary fmt) : Decidable (a ≤ b) := inferInstanceAs (Decidable (a.le b = true))

/-- The lesser of two numbers; where one is not a number, the other. -/
protected def min : Binary fmt → Binary fmt → Binary fmt
  | .nan, b => b
  | a, .nan => a
  | a, b => if b < a then b else a

instance : Min (Binary fmt) := ⟨Binary.min⟩

/-- The greater of two numbers; where one is not a number, the other. -/
protected def max : Binary fmt → Binary fmt → Binary fmt
  | .nan, b => b
  | a, .nan => a
  | a, b => if a < b then b else a

instance : Max (Binary fmt) := ⟨Binary.max⟩

/-- Whether the number is neither an infinity nor not-a-number. -/
def isFinite : Binary fmt → Bool
  | .finite _ => true
  | _ => false

/-- The number, or zero in place of one that is not finite. -/
def orZero (a : Binary fmt) : Binary fmt := if a.isFinite then a else .finite 0

/-! ## Rounding -/

/-- The number of the format nearest to `num / den` units, ties to even; beyond the range, an infinity. -/
def ofRatio (num : Int) (den : Nat) : Binary fmt :=
  let spacing := fmt.spacing (num.natAbs / den)
  let units := nearestWhole num.natAbs (den * spacing) * spacing
  if units < pow2 fmt.range then
    if num < 0 then .finite (-units) else .finite units
  else if num < 0 then .negInf else .posInf

/-- The number of the format nearest to a fraction. -/
def ofFraction (num : Int) (den : Nat) : Binary fmt := ofRatio (num * pow2 fmt.scale) den

/-- The number of the format nearest to a whole number. -/
def ofInt (n : Int) : Binary fmt := ofFraction n 1

/-- The same number in another format, rounded where that has no such number. -/
def convert {target : Format} : Binary fmt → Binary target
  | .finite a => ofRatio (a * pow2 target.scale) (pow2 fmt.scale)
  | .negInf => .negInf
  | .posInf => .posInf
  | .nan => .nan

/-! ## Arithmetic -/

/-- The number with the opposite sign. -/
protected def neg : Binary fmt → Binary fmt
  | .finite a => .finite (-a)
  | .negInf => .posInf
  | .posInf => .negInf
  | .nan => .nan

instance : Neg (Binary fmt) := ⟨Binary.neg⟩

/-- The rounded sum; opposite infinities have none. -/
protected def add : Binary fmt → Binary fmt → Binary fmt
  | .finite a, .finite b => ofRatio (a + b) 1
  | .nan, _ => .nan
  | _, .nan => .nan
  | .posInf, .negInf => .nan
  | .negInf, .posInf => .nan
  | .posInf, _ => .posInf
  | _, .posInf => .posInf
  | .negInf, _ => .negInf
  | _, .negInf => .negInf

instance : Add (Binary fmt) := ⟨Binary.add⟩

instance : Sub (Binary fmt) := ⟨fun a b => a + -b⟩

/-- The sign of a number as `-1`, `0` or `1`; `0` for not-a-number. -/
def sign : Binary fmt → Int
  | .finite a => a.sign
  | .negInf => -1
  | .posInf => 1
  | .nan => 0

/-- The infinity of a sign; a zero sign has none. -/
def infinityOfSign (s : Int) : Binary fmt :=
  if s < 0 then .negInf else if 0 < s then .posInf else .nan

/-- The rounded product; zero times an infinity has none. -/
protected def mul : Binary fmt → Binary fmt → Binary fmt
  | .finite a, .finite b => ofRatio (a * b) (pow2 fmt.scale)
  | .nan, _ => .nan
  | _, .nan => .nan
  | a, b => infinityOfSign (a.sign * b.sign)

instance : Mul (Binary fmt) := ⟨Binary.mul⟩

/-- The rounded quotient. Zero has no sign here, so a quotient by zero is not a number. -/
protected def div : Binary fmt → Binary fmt → Binary fmt
  | .finite a, .finite b =>
    if b = 0 then .nan else ofRatio (a * b.sign * pow2 fmt.scale) b.natAbs
  | .nan, _ => .nan
  | _, .nan => .nan
  | .finite _, _ => .finite 0
  | a, .finite b => infinityOfSign (a.sign * b.sign)
  | _, _ => .nan

instance : Div (Binary fmt) := ⟨Binary.div⟩

/-! ## Whole numbers -/

/-- The greatest whole number that is not above the number. -/
def floor : Binary fmt → Binary fmt
  | .finite a => ofInt (a.fdiv (pow2 fmt.scale))
  | a => a

/-- The least whole number that is not below the number. -/
def ceil (a : Binary fmt) : Binary fmt := -(-a).floor

/-- The whole number that a number is, if it is one. -/
def toInt? : Binary fmt → Option Int
  | .finite a => if a % pow2 fmt.scale = 0 then some (a / pow2 fmt.scale) else none
  | _ => none

/-- The number without its fraction, brought into `lo … hi`; not-a-number counts as zero. -/
def truncate (lo hi : Int) : Binary fmt → Int
  | .finite a => max lo (min hi (a.tdiv (pow2 fmt.scale)))
  | .negInf => lo
  | .posInf => hi
  | .nan => 0

end Binary

end Repaint
