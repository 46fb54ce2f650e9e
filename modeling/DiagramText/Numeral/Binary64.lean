import DiagramText.Text.Basic

/-!
# Decimal fractions in binary64

The double-precision number nearest to a decimal fraction, found in exact natural-number
arithmetic. A positive quotient is scaled by a power of two until it has 53 binary digits (fewer
among the subnormal numbers), rounded with ties to even, and its exponent and digits are added up
into one word; a carry out of the digits then raises the exponent by itself.
-/

namespace DiagramText

/-- The nearest natural number to a quotient, the even one of two that are equally near. -/
def roundHalfEven (num den : Nat) : Nat :=
  let quotient := num / den
  let twice := 2 * (num % den)
  if twice < den ∨ (twice = den ∧ quotient % 2 = 0) then quotient else quotient + 1

/-- A binary64 number, by its word. -/
structure Binary64 where
  bits : UInt64
deriving DecidableEq, Repr

namespace Binary64

/-- The quotient of `num` and `den` divided by two to the power `exponent`, as a quotient. -/
def scale (num den : Nat) (exponent : Int) : Nat × Nat :=
  if 0 ≤ exponent then (num, den * Nat.pow 2 exponent.toNat)
  else (num * Nat.pow 2 (-exponent).toNat, den)

/-- Two to the power 52, the least number with 53 binary digits. -/
def unit : Nat := 0x10000000000000

/-- The exponent at which a quotient has 53 binary digits, or the least that the format has. -/
def exponentOf (num den : Nat) : Int :=
  let guess : Int := (num.log2 : Int) - (den.log2 : Int) - 52
  let (n, d) := scale num den guess
  max (if n < unit * d then guess - 1 else guess) (-1074)

/-- The word of infinity, above all finite ones. -/
def infinity : Nat := 0x7ff0000000000000

/-- The bit of the sign. -/
def signBit : Nat := 0x8000000000000000

/-- The word of the number nearest to a quotient. -/
def magnitude (num den : Nat) : Nat :=
  if num = 0 then 0
  else
    let exponent := exponentOf num den
    let (n, d) := scale num den exponent
    min infinity ((exponent + 1074).toNat * unit + roundHalfEven n d)

/-- The number nearest to `digits` with the point moved `places` to the left. -/
def ofDecimal (negative : Bool) (digits places : Nat) : Binary64 :=
  ⟨.ofNat (magnitude digits (Nat.pow 10 places) + if negative then signBit else 0)⟩

end Binary64

end DiagramText
