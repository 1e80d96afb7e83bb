import StackTemplate.Diagnostic.Basic
import StackTemplate.Resolution.Mention
import StackTemplate.Tree.Walk

/-!
# Recording dependencies

Every mention of an item of the directory becomes an edge on the declaration that mentions it and
a reverse edge on the item. A name that is not in the directory is reported once for each
declaration, where it is first mentioned.
-/

namespace StackTemplate

/-- A tree with edges, and what was reported about it. -/
structure Resolution where
  tree : Tree
  diagnostics : List Diagnostic := []
deriving Inhabited

namespace Tree

/-- Records an edge on its source and the reverse edge on its target. -/
def recordEdge (t : Tree) (source : NodeId) (sourceName : String) (target : NodeId)
    (edge : Dependency) : Tree :=
  let t := t.modifyDecl source fun d => { d with dependencies := d.dependencies ++ [edge] }
  t.modifyDecl target fun d =>
    { d with reverseDependencies := d.reverseDependencies ++ [edge.reversed sourceName] }

/-- Records those edges of a declaration that lead to items of the directory. -/
def recordEdges (t : Tree) (directory : Directory) (source : NodeId) (sourceName : String)
    (edges : List Dependency) : Tree :=
  edges.foldl (fun t edge =>
    match directory.get? edge.target with
    | some target => t.recordEdge source sourceName target edge
    | none => t) t

/-- The first edge to each name that is not in the directory. -/
def firstUndefined (directory : Directory) (edges : List Dependency) : List Dependency :=
  (edges.foldl (fun found edge =>
    if directory.contains edge.target || found.any (·.target = edge.target) then found
    else found ++ [edge]) [])

/-- Reports the names that some edges lead to and that are not in the directory. -/
def undefinedReports (t : Tree) (directory : Directory) (edges : List Dependency) :
    List Diagnostic :=
  (firstUndefined directory edges).map fun edge =>
    (Diagnostic.report .undefinedReference (t.span edge.origin)).detail edge.target

/-- Records the edges of the declaration at an id, which must have a full name. -/
def resolveDecl (directory : Directory) (r : Resolution) (id : NodeId) :
    Except Interruption Resolution := do
  let d ← Interruption.after r.diagnostics (r.tree.decl id)
  let edges := r.tree.declMentions directory id d
  let name ← Interruption.after r.diagnostics (r.tree.fullName id)
  pure
    { tree := r.tree.recordEdges directory id name edges
      diagnostics := r.diagnostics ++ r.tree.undefinedReports directory edges }

/-- Records the edges of all declarations within reach, which must all have full names. -/
def resolve (t : Tree) (directory : Directory) : Except Interruption Resolution :=
  t.decls.foldlM (resolveDecl directory) { tree := t }

end Tree

end StackTemplate
