import StackTemplate.Diagnostic.Basic
import StackTemplate.Directory
import StackTemplate.Graph.Components
import StackTemplate.Graph.CyclePath
import StackTemplate.Text.Bytes
import StackTemplate.Tree.Basic

/-!
# Dependency cycles

Every cycle of the recorded edges is reported once, with a closed path through it and the places of
the other items on that path.
-/

namespace StackTemplate.Check

/-- Adds an item of the directory and its edges to a graph. -/
def addItem (t : Tree) (directory : Directory) (g : NameGraph) (item : String × NodeId) :
    NameGraph :=
  let targets := (((t.decl? item.2).map Decl.uniqueDependencies).getD []).map (·.target)
  (targets.filter directory.contains).foldl (·.addEdge item.1 ·) (g.addNode item.1).2

/-- The graph of the recorded edges between the items of the directory. -/
def dependencyGraph (t : Tree) (directory : Directory) : NameGraph :=
  directory.entries.foldl (addItem t directory) {}

/-- Reports a closed path, at the item that it starts with. -/
def pathReport? (t : Tree) (directory : Directory) (path : List String) : Option Diagnostic := do
  let start ← path.head?
  let first ← directory.get? start
  let report := (Diagnostic.report .circularDependency (t.span first)).detail
    (" -> ".intercalate path)
  some <| (Text.firstOccurrences path.tail).foldl (fun report name =>
    match directory.get? name with
    | some member =>
      if member = first then report
      else report.relatedTo ("`" ++ name ++ "` is part of the cycle") (t.span member)
    | none => report) report

/-- Reports all dependency cycles. -/
def dependencyCycles (t : Tree) (directory : Directory) : List Diagnostic :=
  let g := dependencyGraph t directory
  g.cycles.filterMap fun members => pathReport? t directory ((g.cyclePath members).map g.nameOf)

end StackTemplate.Check
