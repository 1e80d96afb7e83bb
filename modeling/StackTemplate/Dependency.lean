import StackTemplate.NodeId
import StackTemplate.Text.Bytes

/-!
# Dependency edges

An edge says that one item needs another. It may hold only under guards: conditions that must all
hold for it to apply. Several edges to one target are merged into one that holds whenever any of
them does: its guards are the ones that all of them share.
-/

namespace StackTemplate

/-- A condition that an edge depends on. -/
inductive Guard where
  /-- A condition declaration, by name. -/
  | condition (name : String) (negated : Bool)
  /-- A condition expression in the tree. -/
  | expr (node : NodeId) (negated : Bool)
deriving DecidableEq, Inhabited

/-- The guard that holds exactly when this one does not. -/
def Guard.negate : Guard → Guard
  | .condition name negated => .condition name (!negated)
  | .expr node negated => .expr node (!negated)

/-- An edge to another item. -/
structure Dependency where
  /-- The full name of the other item. -/
  target : String
  /-- The guards, without repetition; an edge without guards always applies. -/
  guards : List Guard
  /-- The node at which the edge was found. -/
  origin : NodeId
deriving DecidableEq, Inhabited

namespace Dependency

/-- The edge under a stack of guards, outermost first; a repeated guard counts once. -/
def under (guards : List Guard) (target : String) (origin : NodeId) : Dependency :=
  { target, guards := Text.firstOccurrences guards, origin }

/-- Whether the edge has guards. -/
def isConditional (d : Dependency) : Bool := !d.guards.isEmpty

/-- The same edge seen from its target: it points back at the item `source`. -/
def reversed (d : Dependency) (source : String) : Dependency :=
  { d with target := source }

/-- Merges an edge into a list with one edge per target. The edge already there keeps its origin
and those of its guards that the new edge has too. -/
def mergeInto (d : Dependency) : List Dependency → List Dependency
  | [] => [d]
  | e :: es =>
    if e.target = d.target then
      { e with guards := e.guards.filter fun g => d.guards.contains g } :: es
    else e :: mergeInto d es

/-- One edge per target, in the order in which the targets first occur. -/
def uniqueByTarget (ds : List Dependency) : List Dependency :=
  ds.foldl (fun merged d => mergeInto d merged) []

end Dependency

end StackTemplate
