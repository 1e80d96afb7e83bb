/-!
# Node ids

The nodes of a tree stand in one store, and a node is named by its position there. Ids are handed
out in ascending order and never reused.
-/

namespace StackTemplate

/-- The position of a node in its tree's store. -/
abbrev NodeId := Nat

/-- How an id is shown. -/
def NodeId.display (id : NodeId) : String := s!"#{id}"

end StackTemplate
