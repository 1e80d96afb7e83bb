import StackTemplate.NodeId
import StackTemplate.Table

/-!
# The directory of items

Declarations by full name, in the order in which they were registered. The first declaration of a
name keeps it.
-/

namespace StackTemplate

/-- Declarations by full name. -/
structure Directory where
  /-- The table from names to declarations. -/
  items : Table NodeId := .empty
deriving DecidableEq, Inhabited

namespace Directory

/-- The declaration of a name. -/
def get? (d : Directory) (name : String) : Option NodeId := d.items.get? name

/-- Whether the name is declared. -/
def contains (d : Directory) (name : String) : Bool := d.items.contains name

/-- The number of declared names. -/
def size (d : Directory) : Nat := d.items.size

/-- The declared names in order. -/
def names (d : Directory) : List String := d.items.keys

/-- Names and declarations in order. -/
def entries (d : Directory) : List (String × NodeId) := d.items.entries

/-- Registers a declaration. If the name is taken, the answer is the declaration that has it. -/
def register (d : Directory) (name : String) (id : NodeId) : Except NodeId Directory :=
  match d.get? name with
  | some first => .error first
  | none => .ok ⟨d.items.insert name id⟩

end Directory

end StackTemplate
