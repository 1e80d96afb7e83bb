import StackTemplate.Diagnostic.Basic
import StackTemplate.Directory
import StackTemplate.Name
import StackTemplate.Tree.Basic

/-!
# Binding names

Every declaration that can be reached through items and groups gets its full name, in document
order. The directory lists each full name once, with the first declaration of it; later ones are
reported.
-/

namespace StackTemplate

/-- A tree with names, and the directory of its items. -/
structure Binding where
  tree : Tree
  directory : Directory
  diagnostics : List Diagnostic
deriving Inhabited

/-- The local name of the declaration at an id; other nodes have none. -/
def Tree.localName (t : Tree) (id : NodeId) : String := ((t.decl? id).map Decl.localName).getD ""

/-- The declarations that the one at an id holds. -/
def Tree.heldItems (t : Tree) (id : NodeId) : List NodeId :=
  ((t.decl? id).map (·.kind.items)).getD []

/-- The first `steps` items met from the pending ones on, each with its full name, the items of a
group right after the group. Pending items come with their scope. -/
def Tree.scopedItems (t : Tree) :
    (steps : Nat) → (pending : List (NodeId × Option String)) → List (NodeId × String)
  | 0, _ => []
  | _ + 1, [] => []
  | steps + 1, (id, scope) :: rest =>
    let name := scopedName scope (t.localName id)
    (id, name) :: t.scopedItems steps ((t.heldItems id).map (·, some name) ++ rest)

/-- All items of the module with their full names, in document order. If one of them holds itself,
the list goes on until an item is listed twice. -/
def Tree.namedItems (t : Tree) : List (NodeId × String) :=
  t.scopedItems (t.size + 1) (t.module.items.map (·, none))

/-- Gives an item its full name. It must be a declaration and have none. -/
def Tree.nameItem (t : Tree) (item : NodeId × String) : Except Fault Tree := do
  let d ← t.decl item.1
  match d.fullName with
  | some current => throw (.renamed current item.2)
  | none => pure (t.setKind item.1 (.decl { d with fullName := some item.2 }))

/-- Registers an item, or reports that its name is taken. -/
def Tree.registerItem (t : Tree) (sofar : Directory × List Diagnostic)
    (item : NodeId × String) : Directory × List Diagnostic :=
  match sofar.1.register item.2 item.1 with
  | .ok directory => (directory, sofar.2)
  | .error first =>
    let duplicate := (Diagnostic.report .duplicateDefinition (t.span item.1)).detail item.2
    (sofar.1, sofar.2 ++ [duplicate.relatedTo "first defined here" (t.span first)])

/-- Names an item and registers it. -/
def Binding.step (b : Binding) (item : NodeId × String) : Except Interruption Binding := do
  let tree ← Interruption.after b.diagnostics (b.tree.nameItem item)
  let (directory, diagnostics) := tree.registerItem (b.directory, b.diagnostics) item
  pure { tree, directory, diagnostics }

/-- Names all items and registers them. -/
def Tree.bind (t : Tree) : Except Interruption Binding :=
  t.namedItems.foldlM Binding.step { tree := t, directory := {}, diagnostics := [] }

end StackTemplate
