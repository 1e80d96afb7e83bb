/-!
# Numbers of a template

Numeric literals are double-precision numbers, held exactly: a finite number is
`± significand * 2 ^ exponent`. Every finite number built by this library is in lowest terms of
the format: the significand has at most 53 bits, the exponent is at least `-1074`, and either the
significand has exactly 53 bits or the exponent is `-1074`. So two finite numbers other than
zeros are equal exactly when their three parts are.
-/

namespace StackTemplate

/-- A double-precision number. -/
inductive Number where
  /-- The result that is no number; it equals nothing, itself included. -/
  | nan
  /-- Positive or negative infinity. -/
  | infinite (negative : Bool)
  /-- The number `± significand * 2 ^ exponent`. -/
  | finite (negative : Bool) (significand : Nat) (exponent : Int)
deriving DecidableEq, Inhabited

namespace Number

/-- A power of two. -/
def pow2 (n : Nat) : Nat := Nat.pow 2 n

/-- A power of ten. -/
def pow10 (n : Nat) : Nat := Nat.pow 10 n

/-- The number of bits of a significand. -/
def precision : Nat := 53

/-- The least exponent of a finite number. -/
def minExponent : Int := -1074

/-- The greatest exponent of a finite number. -/
def maxExponent : Int := 971

/-- Zero with a sign. -/
def zero (negative : Bool) : Number :=
  .finite negative 0 minExponent

/-- Whether the number is one of the two zeros. -/
def isZero : Number → Bool
  | .finite _ m _ => m == 0
  | _ => false

/-- Equality of values: the two zeros are equal, and no number equals `nan`. -/
def sameValue (a b : Number) : Bool :=
  match a, b with
  | .nan, _ => false
  | _, .nan => false
  | a, b => (a.isZero && b.isZero) || a == b

/-- The value of a number that is integral and not negative. -/
def natural? : Number → Option Nat
  | .finite negative m e =>
    if negative && m != 0 then none
    else if 0 ≤ e then some (m * pow2 e.toNat)
    else if m % pow2 (-e).toNat = 0 then some (m / pow2 (-e).toNat)
    else none
  | _ => none

end Number

end StackTemplate
