/-!
# Faults

A fault is a breach of an agreement between the caller and this library: a node id that does not
exist, a declaration where an expression belongs, a name that is read too early or set twice, an
index or a key that leads nowhere.
Mistakes in a template are not faults; they are reported as diagnostics.
-/

namespace StackTemplate

/-- A breach of an agreement between the caller and the library. -/
inductive Fault where
  /-- There is no node with this id among `size` nodes. -/
  | noSuchNode (id size : Nat)
  /-- The node is not a declaration. -/
  | notDeclaration (id : Nat)
  /-- The node is not an expression. -/
  | notExpression (id : Nat)
  /-- The full name of the declaration `own` was asked for before binding. -/
  | unnamed (own : String)
  /-- A declaration that has the full name `current` was to be named `new`. -/
  | renamed (current new : String)
  /-- The start of a span lies after its end. -/
  | reversedSpan
  /-- The symbol with this index belongs to another interner; this one holds `size` names. -/
  | foreignSymbol (size index : Nat)
  /-- A node with `count` child slots has none with this index. -/
  | noSuchSlot (count index : Nat)
  /-- A map was asked for a key that it does not have. -/
  | missingKey
deriving DecidableEq

/-- The wording of a fault. -/
def Fault.message : Fault → String
  | .noSuchNode id size => s!"arena: #{id} out of bounds (arena holds {size} nodes)"
  | .notDeclaration id => s!"arena: #{id} is not a declaration"
  | .notExpression id => s!"arena: #{id} is not an expression"
  | .unnamed own => s!"full_name: `{own}` read before binding (binder assigns every name)"
  | .renamed current new =>
    s!"full_name: `{current}` reassigned to `{new}` (full names are assigned once)"
  | .reversedSpan => "assertion failed: start.raw <= end.raw"
  | .foreignSymbol size index | .noSuchSlot size index =>
    s!"index out of bounds: the len is {size} but the index is {index}"
  | .missingKey => "IndexMap: key not found"

end StackTemplate
