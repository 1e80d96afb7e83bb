import StackTemplate.Directory
import StackTemplate.Graph.Components
import StackTemplate.Tree.Walk

/-!
# Aliases

A variable, and any item with a reference expression, stands for an expression: references to it
are replaced by copies of that expression. An alias that leads back to itself is never replaced.
-/

namespace StackTemplate.Fold

/-- The expression that a reference to a name is replaced by. An item that stands for a reference
to itself has none. -/
def substitutionSource? (t : Tree) (directory : Directory) (name : String) : Option NodeId :=
  match ((directory.get? name).bind t.decl?).bind Decl.aliasSource? with
  | none => none
  | some source => if t.expr? source = some (.ref name) then none else some source

/-- The names that the subtree at an id refers to and that have a substitution source. -/
def aliasTargets (t : Tree) (directory : Directory) (source : NodeId) : List String :=
  (t.descendants source).filterMap fun id =>
    match t.expr? id with
    | some (.ref target) =>
      if (substitutionSource? t directory target).isSome then some target else none
    | _ => none

/-- Adds an alias and its targets to a graph; an item that is no alias adds nothing. -/
def addAlias (t : Tree) (directory : Directory) (g : NameGraph) (item : String × NodeId) :
    NameGraph :=
  match (t.decl? item.2).bind Decl.aliasSource? with
  | none => g
  | some source =>
    (aliasTargets t directory source).foldl (·.addEdge item.1 ·) (g.addNode item.1).2

/-- The graph of aliases: an edge leads from an alias to every alias in its expression. -/
def aliasGraph (t : Tree) (directory : Directory) : NameGraph :=
  directory.entries.foldl (addAlias t directory) {}

/-- The names of aliases whose replacement would never end. -/
def cyclicAliases (t : Tree) (directory : Directory) : List String :=
  (aliasGraph t directory).cyclicNames

end StackTemplate.Fold
