/-!
# Sizes and order of text

Offsets into source text count UTF-8 bytes, and lists of names are sorted by them. Comparing two
texts byte by byte agrees with comparing them code point by code point, because UTF-8 keeps the
order of code points; `Text.precedes` uses the code points.
-/

namespace StackTemplate.Text

/-- The number of UTF-8 bytes of a run of characters. -/
def byteSize : List Char → Nat
  | [] => 0
  | c :: cs => c.utf8Size + byteSize cs

/-- Strict dictionary order by code point on runs of characters. -/
def precedesChars : List Char → List Char → Bool
  | _, [] => false
  | [], _ :: _ => true
  | a :: as, b :: bs =>
    if a.toNat < b.toNat then true
    else if b.toNat < a.toNat then false
    else precedesChars as bs

/-- Strict dictionary order by code point, which is the order of the UTF-8 bytes. -/
def precedes (a b : String) : Bool :=
  precedesChars a.toList b.toList

/-- Adds a name to an ascending list of distinct names, unless it is already there. -/
def insertSorted (name : String) : List String → List String
  | [] => [name]
  | first :: rest =>
    if precedes name first then name :: first :: rest
    else if precedes first name then first :: insertSorted name rest
    else first :: rest

/-- The distinct names of a list in ascending order. -/
def sortedDistinct (names : List String) : List String :=
  names.foldr insertSorted []

/-- The distinct members of a list, each at its first position. -/
def firstOccurrences {α : Type} [DecidableEq α] (xs : List α) : List α :=
  xs.foldl (fun seen x => if x ∈ seen then seen else seen ++ [x]) []

end StackTemplate.Text
