import StackTemplate.Tree.Basic

/-!
# Walking a tree

Document order is pre-order: a node comes before its children, and children come in the order of
their slots. `descendants` lists it with an explicit stack of pending nodes. `tour` walks
recursively, noting when it enters and leaves each node, and can be told not to go below some of
them.

A tree without cycles has no path with more nodes than the store, so the size of the store bounds
the depth of every recursion below; the number of steps of the stack is the size of the unfolded
subtree.
-/

namespace StackTemplate

namespace Tree

/-! ### Document order -/

/-- The sum of a count over a list. -/
def totalOf {α : Type} (count : α → Nat) : List α → Nat
  | [] => 0
  | a :: as => count a + totalOf count as

/-- The size of the unfolded subtree at an id, as far as `depth` levels. -/
def weight (t : Tree) : (depth : Nat) → NodeId → Nat
  | 0, _ => 1
  | depth + 1, id => 1 + totalOf (t.weight depth) (t.children id)

/-- The first `steps` nodes met when the pending nodes are visited one after the other, the
children of each before the rest. -/
def visitPending (t : Tree) : (steps : Nat) → (pending : List NodeId) → List NodeId
  | 0, _ => []
  | _ + 1, [] => []
  | steps + 1, id :: rest => id :: t.visitPending steps (t.children id ++ rest)

/-- A node and everything below it, in document order. -/
def descendants (t : Tree) (id : NodeId) : List NodeId :=
  t.visitPending (t.weight t.size id) [id]

/-- All nodes within reach of the root, in document order. -/
def reachable (t : Tree) : List NodeId := t.descendants t.root

/-- The expressions within reach of the root, in document order. -/
def exprs (t : Tree) : List NodeId := t.reachable.filter fun id => (t.expr? id).isSome

/-- The declarations within reach of the root, in document order. -/
def decls (t : Tree) : List NodeId := t.reachable.filter fun id => (t.decl? id).isSome

/-! ### Towards the root -/

/-- The first declaration among a node and the nodes it hangs below, `limit` of them at most. -/
def enclosingWithin (t : Tree) : (limit : Nat) → NodeId → Option NodeId
  | 0, _ => none
  | limit + 1, id =>
    if (t.decl? id).isSome then some id
    else (t.parent? id).bind (t.enclosingWithin limit)

/-- The closest declaration that contains a node, the node itself included. -/
def enclosingDecl? (t : Tree) (id : NodeId) : Option NodeId := t.enclosingWithin t.size id

/-! ### Tours -/

/-- A step of a tour. -/
inductive Step where
  | enter (id : NodeId)
  | leave (id : NodeId)
deriving DecidableEq, Inhabited

/-- The steps of a tour below an id that goes `depth` levels deep and below a node only if
`goesBelow` says so. -/
def tourWithin (t : Tree) (goesBelow : NodeId → Bool) : (depth : Nat) → NodeId → List Step
  | 0, _ => []
  | depth + 1, id =>
    let below :=
      if goesBelow id then (t.children id).flatMap (t.tourWithin goesBelow depth) else []
    .enter id :: below ++ [.leave id]

/-- The steps of a tour of the subtree at an id. -/
def tour (t : Tree) (goesBelow : NodeId → Bool) (id : NodeId) : List Step :=
  t.tourWithin goesBelow t.size id

/-- The nodes that a list of steps enters, in order. -/
def Step.entered (steps : List Step) : List NodeId :=
  steps.filterMap fun
    | .enter id => some id
    | .leave _ => none

/-- The nodes that a list of steps leaves, in order. -/
def Step.left (steps : List Step) : List NodeId :=
  steps.filterMap fun
    | .enter _ => none
    | .leave id => some id

/-- The expressions without operands below an id, in document order. -/
def leaves (t : Tree) (id : NodeId) : List NodeId :=
  (Step.entered (t.tour (fun _ => true) id)).filter fun n =>
    (t.expr? n).isSome && (t.children n).isEmpty

/-- The declarations below an id, each after the ones inside it. -/
def declsInnerFirst (t : Tree) (id : NodeId) : List NodeId :=
  (Step.left (t.tour (fun _ => true) id)).filter fun n => (t.decl? n).isSome

/-- The word for the sort of a node. -/
def keyword (t : Tree) (id : NodeId) : String :=
  ((t.kind? id).map NodeKind.keyword).getD ""

/-- A node on a line of an outline: its sort, its id, and the name of a declaration. -/
def outlineLabel (t : Tree) (id : NodeId) : String :=
  let label := t.keyword id ++ " " ++ NodeId.display id
  match t.decl? id with
  | some d => label ++ " " ++ d.localName
  | none => label

/-- The lines for the steps of a tour when `depth` nodes are open. -/
def outlineLines (t : Tree) : (depth : Nat) → List Step → List String
  | _, [] => []
  | depth, .enter id :: rest =>
    (String.ofList (List.replicate (2 * depth) ' ') ++ "+" ++ t.outlineLabel id) ::
      t.outlineLines (depth + 1) rest
  | depth, .leave id :: rest =>
    (String.ofList (List.replicate (2 * (depth - 1)) ' ') ++ "-" ++ t.keyword id) ::
      t.outlineLines (depth - 1) rest

/-- An outline of the subtree at an id: a line for entering and one for leaving each node, two
columns deeper for each open node. Nodes of the sorts in `closed` are shown without what is below
them. -/
def outline (t : Tree) (closed : List String) (id : NodeId) : List String :=
  t.outlineLines 0 (t.tour (fun n => !closed.contains (t.keyword n)) id)

end Tree

end StackTemplate
