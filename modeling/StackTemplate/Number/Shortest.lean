import StackTemplate.Number.Basic

/-!
# The fewest digits that read back

A positive number `m * 2 ^ q` is written with the fewest decimal digits that still round to it,
and with those digits that lie nearest to it. The decimals that round to it fill an interval
around it, whose ends belong to it exactly when `m` is even, since a tie goes to the even
significand.

Everything is measured in quarters of the gap `2 ^ q`. The number is `4 * m` quarters, the upper
end of the interval lies two quarters above, and the lower end two quarters below, or only one if
the number is the least with its exponent: the gap below it is half as wide.
-/

namespace StackTemplate.Number

/-- A decimal `digits * 10 ^ exponent`. -/
structure Decimal where
  /-- The digits, read as an integer. -/
  digits : Nat
  /-- The power of ten they are multiplied by. -/
  exponent : Int
deriving DecidableEq, Inhabited

/-- `quarters * 2 ^ (q - 2)` over `10 ^ k`, as a numerator and a denominator. -/
def onGrid (quarters : Nat) (q k : Int) : Nat × Nat :=
  let (num, den) :=
    if 2 ≤ q then (quarters * pow2 (q - 2).toNat, 1) else (quarters, pow2 (2 - q).toNat)
  if 0 ≤ k then (num, den * pow10 k.toNat) else (num * pow10 (-k).toNat, den)

/-- How many quarters the lower end of the rounding interval lies below the number. -/
def quartersBelow (m : Nat) (q : Int) : Nat :=
  if m = pow2 52 ∧ minExponent < q then 1 else 2

/-- Whether `c * 10 ^ k` rounds to `m * 2 ^ q`. -/
def readsBack (m : Nat) (q : Int) (c : Nat) (k : Int) : Bool :=
  let (lowNum, lowDen) := onGrid (4 * m - quartersBelow m q) q k
  let (highNum, highDen) := onGrid (4 * m + 2) q k
  if m % 2 = 0 then lowNum ≤ c * lowDen && c * highDen ≤ highNum
  else lowNum < c * lowDen && c * highDen < highNum

/-- The best multiple of `10 ^ k` that rounds to `m * 2 ^ q`: one of the two neighbours of the
number on that grid, the nearer one, and the upper one if they are equally near. -/
def nearestOnGrid? (m : Nat) (q k : Int) : Option Nat :=
  let (num, den) := onGrid (4 * m) q k
  let below := num / den
  let order := if 2 * (num % den) < den then [below, below + 1] else [below + 1, below]
  order.find? (readsBack m q · k)

/-- Tries ever finer grids, from `10 ^ k` down. -/
def shortestFrom (m : Nat) (q : Int) : Nat → Int → Decimal
  | 0, k => ⟨(onGrid (4 * m) q k).1 / (onGrid (4 * m) q k).2, k⟩
  | n + 1, k =>
    match nearestOnGrid? m q k with
    | some c => ⟨c, k⟩
    | none => shortestFrom m q n (k - 1)

/-- The power of ten of the leading digit of a positive `m * 2 ^ q`. -/
def leadingPlace (m : Nat) (q : Int) : Int :=
  if 0 ≤ q then (Nat.toDigits 10 (m * pow2 q.toNat)).length - 1
  else
    -- `10 ^ 1100` lifts every finite number to an integer part.
    (Nat.toDigits 10 (m * pow10 1100 / pow2 (-q).toNat)).length - 1 - 1100

/-- The shortest decimal that rounds to the positive number `m * 2 ^ q`; 17 digits always do. -/
def shortest (m : Nat) (q : Int) : Decimal :=
  shortestFrom m q 17 (leadingPlace m q)

end StackTemplate.Number
