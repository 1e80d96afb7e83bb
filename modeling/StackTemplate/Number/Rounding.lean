import StackTemplate.Number.Basic

/-!
# Rounding to a number

The number nearest to an exact fraction or decimal, a tie going to the even significand. A value
whose nearest significand would need an exponent above the greatest one is infinite.
-/

namespace StackTemplate.Number

/-- The integer nearest to `num / den`, a half going to the even neighbour. -/
def roundHalfEven (num den : Nat) : Nat :=
  let q := num / den
  let twice := 2 * (num % den)
  if twice < den then q
  else if den < twice then q + 1
  else if q % 2 = 0 then q else q + 1

/-- The fraction `num / den / 2 ^ e` as a numerator and a denominator. -/
def scaleDown (num den : Nat) (e : Int) : Nat × Nat :=
  if 0 ≤ e then (num, den * pow2 e.toNat) else (num * pow2 (-e).toNat, den)

/-- The exponent at which the whole part of `num / den / 2 ^ e` has 53 bits, but never below the
least exponent. The logarithms fix it up to one. -/
def fittingExponent (num den : Nat) : Int :=
  let e : Int := (num.log2 : Int) - den.log2 - 52
  let scaled := scaleDown num den e
  let e := if scaled.1 / scaled.2 < pow2 52 then e - 1 else e
  max e minExponent

/-- The number nearest to `num / den`, with the given sign. -/
def ofFraction (negative : Bool) (num den : Nat) : Number :=
  if num = 0 then zero negative
  else
    let e := fittingExponent num den
    let scaled := scaleDown num den e
    let m := roundHalfEven scaled.1 scaled.2
    -- Rounding up can carry into a 54th bit; the significand is then a power of two.
    let (m, e) := if m = pow2 precision then (pow2 52, e + 1) else (m, e)
    if maxExponent < e then .infinite negative else .finite negative m e

/-- The number nearest to `digits * 10 ^ exponent`, with the given sign. Decimals far outside
the range are settled by their magnitude alone: from `10 ^ 310` on they are infinite, and below
`10 ^ (-330)` they are zero. -/
def ofDecimal (negative : Bool) (digits : Nat) (exponent : Int) : Number :=
  if digits = 0 then zero negative
  else
    let magnitude : Int := (Nat.toDigits 10 digits).length + exponent
    if 310 < magnitude then .infinite negative
    else if magnitude < -330 then zero negative
    else if 0 ≤ exponent then ofFraction negative (digits * pow10 exponent.toNat) 1
    else ofFraction negative digits (pow10 (-exponent).toNat)

end StackTemplate.Number
