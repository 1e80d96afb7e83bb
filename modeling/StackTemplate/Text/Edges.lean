/-!
# Classes of characters by their edges

A class of characters that comes in many runs is stored by its edges: the ascending code points at
which membership changes, starting outside the class. A code point is in the class exactly when an
odd number of edges are at or below it.
-/

namespace StackTemplate.Text

/-- Whether a character is in the class with these edges. -/
def isWithin (edges : List Nat) (c : Char) : Bool :=
  (edges.takeWhile (· ≤ c.toNat)).length % 2 == 1

end StackTemplate.Text
