import StackTemplate.Tree.Basic

/-!
# Copying and detaching subtrees
-/

namespace StackTemplate

namespace Tree

/-! ### Copying -/

/-- Copies the subtree at an id, `depth` levels deep, into fresh nodes: first the children in
order, then the node over their copies. -/
def copyWithin : (depth : Nat) → NodeId → Tree → NodeId × Tree
  | 0, id, t => (id, t)
  | depth + 1, id, t =>
    match t.node? id with
    | none => (id, t)
    | some node =>
      let (copies, t) := addEach (copyWithin depth) node.kind.children t
      t.add (node.kind.refill copies) node.span

/-- Copies the subtree at an id into fresh nodes; the answer is the id of the copy. -/
def copy (t : Tree) (id : NodeId) : NodeId × Tree := copyWithin t.size id t

end Tree

/-! ### Detaching -/

/-- A list without an element, if it has that element. -/
def without? (ids : List NodeId) (id : NodeId) : Option (List NodeId) :=
  if ids.contains id then some (ids.filter (· != id)) else none

/-- A table without a value, if it has that value. -/
def Table.without? (fields : Table NodeId) (id : NodeId) : Option (Table NodeId) :=
  if fields.values.contains id then some (fields.filter fun _ value => value != id) else none

/-- The node content without a child. Only list-like slots can lose a child: the items or else the
pragmas of a module, the items of a group, the elements of a list or join, the fields of an object
and the parameters of an interpolated string. -/
def NodeKind.without? (kind : NodeKind) (id : NodeId) : Option NodeKind :=
  match kind with
  | .module m =>
    match StackTemplate.without? m.items id with
    | some items => some (.module { m with items })
    | none => (StackTemplate.without? m.pragmas id).map fun pragmas =>
        .module { m with pragmas }
  | .decl d =>
    match d.kind with
    | .group items => (StackTemplate.without? items id).map fun items =>
        .decl { d with kind := .group items }
    | _ => none
  | .expr e =>
    match e with
    | .list items => (StackTemplate.without? items id).map fun items => .expr (.list items)
    | .join delimiter values =>
      (StackTemplate.without? values id).map fun values => .expr (.join delimiter values)
    | .object fields => (fields.without? id).map fun fields => .expr (.object fields)
    | .sub format parameters =>
      (parameters.without? id).map fun parameters => .expr (.sub format parameters)
    | _ => none

/-- Takes a node out of its parent's list of children. The flag says whether it was taken out; a
node without a parent, or in a fixed operand slot, stays. -/
def Tree.detach (t : Tree) (id : NodeId) : Bool × Tree :=
  match t.parent? id with
  | none => (false, t)
  | some parent =>
    match (t.kind? parent).bind (·.without? id) with
    | none => (false, t)
    | some kind => (true, (t.setKind parent kind).setParent id none)

end StackTemplate
