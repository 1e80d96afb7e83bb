import StackTemplate.Number.Layout
import StackTemplate.Number.Reading
import StackTemplate.Text.Blank

/-!
# Literal values

A literal is a string, a truth value or a number. It can be read as an index into a list, spliced
into text, and compared; a comparison never equates values of two sorts.
-/

namespace StackTemplate

/-- A constant. -/
inductive Value where
  | string (s : String)
  | bool (b : Bool)
  | number (n : Number)
deriving DecidableEq, Inhabited

namespace Value

/-- The truth value, if it is one. -/
def asBool? : Value → Option Bool
  | .bool b => some b
  | _ => none

/-- The string, if it is one. -/
def asString? : Value → Option String
  | .string s => some s
  | _ => none

/-- The greatest index. -/
def maxIndex : Nat := Number.pow2 64 - 1

/-- The index written by digits with an optional plus in front; one too large is no index. -/
def indexOfDigits? (cs : List Char) : Option Nat :=
  let ds := match cs with
    | '+' :: rest => rest
    | other => other
  if ds.isEmpty || !ds.all Number.isDigit then none
  else
    let n := Number.digitsValue ds
    if n ≤ maxIndex then some n else none

/-- The value as an index: a number that is integral and not negative, cut off at the greatest
index, or a string of digits with white space around it. -/
def asIndex? : Value → Option Nat
  | .number n => n.natural?.map (min · maxIndex)
  | .string s => indexOfDigits? (Text.trimBlank s.toList)
  | .bool _ => none

/-- The text of a truth value. -/
def boolText (b : Bool) : String :=
  if b then "true" else "false"

/-- The text that the value contributes when it is spliced into a string. -/
def toText : Value → String
  | .string s => s
  | .bool b => boolText b
  | .number n => n.toText

/-- Typed comparison: values of the same sort that are equal as strings, truth values or
numbers. -/
def same : Value → Value → Bool
  | .string a, .string b => a == b
  | .bool a, .bool b => a == b
  | .number a, .number b => a.sameValue b
  | _, _ => false

end Value

/-- A constant in a tree. -/
structure Literal where
  /-- The constant itself. -/
  value : Value
  /-- Substitution never replaces a final literal. -/
  isFinal : Bool := false
  /-- Set when the literal is the folded answer of an existence check. Conditions on such a
  literal are expected to be constant. -/
  fromExistenceCheck : Bool := false
deriving DecidableEq, Inhabited

namespace Literal

/-- A string literal. -/
def string (s : String) : Literal := { value := .string s }

/-- A truth literal, marked if it answers an existence check. -/
def bool (b : Bool) (fromExistenceCheck : Bool) : Literal :=
  { value := .bool b, fromExistenceCheck }

/-- The truth value, if the literal is one. -/
def asBool? (l : Literal) : Option Bool := l.value.asBool?

end Literal

end StackTemplate
