/-!
# `Number` — whole numbers and finite doubles

A number in a configuration is a whole number that fits a signed or an unsigned 64-bit word, or a finite
binary64 float. Infinities and NaN are no numbers: `Double.ofBits?` refuses their bit patterns.

Every finite double is a whole multiple of `2⁻¹⁰⁷⁴`, the smallest positive one. Measured in that unit
floats are integers, so that comparing and printing them is exact integer arithmetic. Both zeros measure
`0`, and so they are equal.

## Contents
- `Double`, with `magnitude`, `spacing` and `units`.
- `Whole`, with its nearest double (`Whole.units`).
- `Number.beq`: numeric equality. Two numbers that fit a signed 64-bit word compare as integers; any
  other pair compares as doubles, a whole number being rounded first. Above `2⁵³` rounding can make
  different whole numbers agree with the same float.
-/

namespace ConfigSchema

/-! ## Finite doubles -/

/-- The biased exponent of a binary64 pattern: the eleven bits below the sign. -/
def exponentOf (bits : UInt64) : Nat := bits.toNat / Nat.pow 2 52 % Nat.pow 2 11

/-- A finite binary64 number, by its bit pattern. The exponent of all ones is left to the infinities
    and NaN. -/
structure Double where
  bits : UInt64
  finite : exponentOf bits ≠ 2047
deriving DecidableEq

namespace Double

/-- The double with the given pattern, if that is finite. -/
def ofBits? (bits : UInt64) : Option Double :=
  if h : exponentOf bits ≠ 2047 then some ⟨bits, h⟩ else none

/-- Is the sign bit set? -/
def negative (x : Double) : Bool := x.bits.toNat / Nat.pow 2 63 = 1

/-- The biased exponent. -/
def exponent (x : Double) : Nat := exponentOf x.bits

/-- The 52 stored bits of the significand. -/
def fraction (x : Double) : Nat := x.bits.toNat % Nat.pow 2 52

/-- The distance to the next double of larger magnitude, in units of `2⁻¹⁰⁷⁴`. -/
def spacing (x : Double) : Nat := Nat.pow 2 (x.exponent - 1)

/-- The absolute value, in units of `2⁻¹⁰⁷⁴`. A zero exponent marks a subnormal number, which lacks the
    implicit leading bit. -/
def magnitude (x : Double) : Nat :=
  (if x.exponent = 0 then x.fraction else Nat.pow 2 52 + x.fraction) * x.spacing

/-- The value, in units of `2⁻¹⁰⁷⁴`. -/
def units (x : Double) : Int := if x.negative then -x.magnitude else x.magnitude

/-- How many units make one. -/
def unitsPerOne : Nat := Nat.pow 2 1074

end Double

/-! ## Whole numbers -/

/-- A whole number of the signed or the unsigned 64-bit range. -/
structure Whole where
  toInt : Int
  lower : -(Nat.pow 2 63 : Int) ≤ toInt
  upper : toInt < Nat.pow 2 64
deriving DecidableEq

namespace Whole

/-- The integer as a whole number, if it is in range. -/
def ofInt? (n : Int) : Option Whole :=
  if h : -(Nat.pow 2 63 : Int) ≤ n ∧ n < Nat.pow 2 64 then some ⟨n, h.1, h.2⟩ else none

/-- `n` rounded to 53 significant bits, a half going to the even neighbour. -/
def nearest53 (n : Nat) : Nat :=
  let unit := Nat.pow 2 (n.log2 + 1 - 53)
  let quotient := n / unit
  let twice := 2 * (n % unit)
  let up := unit < twice ∨ (twice = unit ∧ quotient % 2 = 1)
  (if up then quotient + 1 else quotient) * unit

/-- The nearest double, in units of `2⁻¹⁰⁷⁴`. -/
def units (n : Whole) : Int := n.toInt.sign * nearest53 n.toInt.natAbs * Double.unitsPerOne

/-- The value, if it fits a signed 64-bit word. -/
def toInt64? (n : Whole) : Option Int := if n.toInt < Nat.pow 2 63 then some n.toInt else none

end Whole

/-! ## Numbers -/

/-- A number of a configuration. -/
inductive Number where
  | whole (n : Whole)
  | double (x : Double)
deriving DecidableEq

namespace Number

/-- The number as a signed 64-bit word. No float has one, not even an integral float. -/
def toInt64? : Number → Option Int
  | whole n => n.toInt64?
  | double _ => none

/-- The number as a double, in units of `2⁻¹⁰⁷⁴`. -/
def units : Number → Int
  | whole n => n.units
  | double x => x.units

/-- Numeric equality: as integers where both fit a signed 64-bit word, else as doubles. -/
def beq (a b : Number) : Bool :=
  match a.toInt64?, b.toInt64? with
  | some m, some n => m = n
  | _, _ => a.units = b.units

theorem beq_refl (a : Number) : a.beq a = true := by
  unfold beq
  cases a.toInt64? <;> simp

theorem beq_comm (a b : Number) : a.beq b = b.beq a := by
  unfold beq
  cases a.toInt64? <;> cases b.toInt64? <;> simp [eq_comm]

end Number

end ConfigSchema
