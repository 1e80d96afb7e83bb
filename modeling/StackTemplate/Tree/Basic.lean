import StackTemplate.Node

/-!
# Trees

A tree stores all nodes of one module. Nodes are added and rewired but never removed: a subtree
that loses its place stays in the store, out of reach of the root. Reading is total: an id without
a node has no content and no children.
-/

namespace StackTemplate

/-- All nodes of a module and the id of its root. -/
structure Tree where
  /-- The nodes; the id of a node is its position. -/
  nodes : Array Node := #[]
  /-- The id of the module node. -/
  root : NodeId := 0
deriving DecidableEq, Inhabited

namespace Tree

/-! ### Reading -/

/-- The number of nodes. -/
def size (t : Tree) : Nat := t.nodes.size

/-- The node with an id. -/
def node? (t : Tree) (id : NodeId) : Option Node := t.nodes[id]?

/-- The content of the node with an id. -/
def kind? (t : Tree) (id : NodeId) : Option NodeKind := (t.node? id).map Node.kind

/-- The expression at an id, if there is one. -/
def expr? (t : Tree) (id : NodeId) : Option Expr := (t.kind? id).bind NodeKind.expr?

/-- The declaration at an id, if there is one. -/
def decl? (t : Tree) (id : NodeId) : Option Decl := (t.kind? id).bind NodeKind.decl?

/-- The literal at an id, if there is one. -/
def literal? (t : Tree) (id : NodeId) : Option Literal := (t.expr? id).bind Expr.literal?

/-- The truth value of the literal at an id, if it is one. -/
def bool? (t : Tree) (id : NodeId) : Option Bool := (t.literal? id).bind Literal.asBool?

/-- The place of a node in the source. -/
def span (t : Tree) (id : NodeId) : Span := ((t.node? id).map Node.span).getD default

/-- The node that a node hangs below. -/
def parent? (t : Tree) (id : NodeId) : Option NodeId := (t.node? id).bind Node.parent

/-- The children of a node in traversal order. -/
def children (t : Tree) (id : NodeId) : List NodeId :=
  ((t.kind? id).map NodeKind.children).getD []

/-- The module at the root. -/
def module (t : Tree) : Module :=
  match t.kind? t.root with
  | some (.module m) => m
  | _ => default

/-- Whether the node is a literal that substitution leaves alone. -/
def isFinal (t : Tree) (id : NodeId) : Bool := ((t.expr? id).map Expr.isFinal).getD false

/-! ### Reading what must be there -/

/-- The node with an id, which must exist. -/
def node (t : Tree) (id : NodeId) : Except Fault Node :=
  match t.node? id with
  | some n => .ok n
  | none => .error (.noSuchNode id t.size)

/-- The expression at an id, which must be one. -/
def expr (t : Tree) (id : NodeId) : Except Fault Expr := do
  match (← t.node id).kind with
  | .expr e => pure e
  | _ => throw (.notExpression id)

/-- The declaration at an id, which must be one. -/
def decl (t : Tree) (id : NodeId) : Except Fault Decl := do
  match (← t.node id).kind with
  | .decl d => pure d
  | _ => throw (.notDeclaration id)

/-- The full name of the declaration at an id, which must have been bound. -/
def fullName (t : Tree) (id : NodeId) : Except Fault String := do
  let d ← t.decl id
  match d.fullName with
  | some name => pure name
  | none => throw (.unnamed d.localName)

/-! ### Changing -/

/-- Changes the node with an id, if it exists. -/
def modify (t : Tree) (id : NodeId) (f : Node → Node) : Tree :=
  { t with nodes := t.nodes.modify id f }

/-- Replaces the content of a node. -/
def setKind (t : Tree) (id : NodeId) (kind : NodeKind) : Tree :=
  t.modify id fun n => { n with kind }

/-- Replaces the expression at an id. -/
def setExpr (t : Tree) (id : NodeId) (e : Expr) : Tree := t.setKind id (.expr e)

/-- Changes the declaration at an id, if there is one. -/
def modifyDecl (t : Tree) (id : NodeId) (f : Decl → Decl) : Tree :=
  match t.decl? id with
  | some d => t.setKind id (.decl (f d))
  | none => t

/-- Hangs a node below another, or below none. -/
def setParent (t : Tree) (id : NodeId) (parent : Option NodeId) : Tree :=
  t.modify id fun n => { n with parent }

/-- Hangs `child` below `parent`. -/
def link (t : Tree) (parent child : NodeId) : Tree := t.setParent child (some parent)

/-- Adds a node and hangs its children below it; the answer is its id. -/
def add (t : Tree) (kind : NodeKind) (span : Span) : NodeId × Tree :=
  let id := t.size
  (id, kind.children.foldl (fun t child => t.link id child)
    { t with nodes := t.nodes.push { kind, span } })

/-- Adds an expression node. -/
def addExpr (t : Tree) (e : Expr) (span : Span) : NodeId × Tree := t.add (.expr e) span

/-- Adds a node whose children must exist; the new node counts. -/
def addChecked (t : Tree) (kind : NodeKind) (span : Span) : Except Fault (NodeId × Tree) :=
  match kind.children.find? (t.size < ·) with
  | some missing => .error (.noSuchNode missing (t.size + 1))
  | none => .ok (t.add kind span)

/-- Adds one node or subtree for each member of a list, in order. -/
def addEach {α : Type} (f : α → Tree → NodeId × Tree) : List α → Tree → List NodeId × Tree
  | [], t => ([], t)
  | a :: as, t =>
    let (id, t) := f a t
    let (ids, t) := addEach f as t
    (id :: ids, t)

end Tree

end StackTemplate
