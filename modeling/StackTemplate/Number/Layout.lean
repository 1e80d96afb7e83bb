import StackTemplate.Number.Shortest

/-!
# Writing numbers

Numbers are always written positionally, without an exponent, with the fewest digits that read
back. Two spellings differ only for the negative zero: as a value it keeps its sign, inside text it
is plain `0`.
-/

namespace StackTemplate.Number

/-- Digits `ds` times `10 ^ exponent`, written with a point where one is needed. -/
def positional (ds : List Char) (exponent : Int) : List Char :=
  if 0 ≤ exponent then ds ++ List.replicate exponent.toNat '0'
  else
    let places := (-exponent).toNat
    if places < ds.length then
      ds.take (ds.length - places) ++ '.' :: ds.drop (ds.length - places)
    else '0' :: '.' :: List.replicate (places - ds.length) '0' ++ ds

/-- Drops the zeros at the end of the digits of a decimal, raising its exponent. -/
def trimZeros (ds : List Char) (exponent : Int) : List Char × Int :=
  let kept := (ds.reverse.dropWhile (· == '0')).reverse
  (kept, exponent + (ds.length - kept.length))

/-- The positional text of a decimal, without zeros at the end of a fraction. -/
def Decimal.text (d : Decimal) : List Char :=
  let (ds, e) := trimZeros (Nat.toDigits 10 d.digits) d.exponent
  if ds.isEmpty then ['0'] else positional ds e

/-- The number as a value: positional, shortest, the sign of a zero kept. -/
def display : Number → String
  | .nan => "NaN"
  | .infinite negative => if negative then "-inf" else "inf"
  | .finite negative m q =>
    let body := if m = 0 then ['0'] else (shortest m q).text
    String.ofList (if negative then '-' :: body else body)

/-- The number as it is spliced into text: as `display`, but a zero has no sign. -/
def toText (n : Number) : String :=
  if n.isZero then "0" else n.display

/-- Whether the number is neither infinite nor `nan`. -/
def isFinite : Number → Bool
  | .finite .. => true
  | _ => false

end StackTemplate.Number
