import StackTemplate.Tree.Basic

/-!
# Building trees

A builder adds nodes from the leaves up. It holds the module's header and a position, which every
node gets until it is changed.
-/

namespace StackTemplate

/-- A tree under construction. -/
structure Builder where
  /-- The nodes so far. -/
  tree : Tree := {}
  /-- The module without its items. -/
  header : Module := {}
  /-- The position of the next node. -/
  position : Span := default
deriving Inhabited

namespace Builder

/-- A builder for a module of that name. -/
def new (name : String) : Builder := { header := { name } }

/-- Positions the nodes that follow in another source. -/
def inSource (b : Builder) (source : Nat) : Builder :=
  { b with position := { b.position with source } }

/-- Positions the nodes that follow at a range of bytes. -/
def atRange (b : Builder) (start stop : Nat) : Except Fault Builder := do
  let position ← Span.ofEnds b.position.source start stop
  pure { b with position }

/-- Sets the version of the module. -/
def version (b : Builder) (version : String) : Builder :=
  { b with header := { b.header with version := some version } }

/-- Adds a secret to the module's header. -/
def secret (b : Builder) (name : String) : Builder :=
  { b with header := { b.header with secrets := b.header.secrets ++ [name] } }

/-- Adds a pragma to the module's header. -/
def pragma (b : Builder) (id : NodeId) : Builder :=
  { b with header := { b.header with pragmas := b.header.pragmas ++ [id] } }

/-- Adds a used module to the module's header. -/
def usingModule (b : Builder) (module : String) (parameters : Option NodeId) : Builder :=
  { b with header := { b.header with usings := b.header.usings ++ [{ module, parameters }] } }

/-- Adds a node at the current position; its children must exist. -/
def add (b : Builder) (kind : NodeKind) : Except Fault (NodeId × Builder) := do
  let (id, tree) ← b.tree.addChecked kind b.position
  pure (id, { b with tree })

/-- Adds an expression. -/
def expr (b : Builder) (e : Expr) : Except Fault (NodeId × Builder) := b.add (.expr e)

/-- Adds a declaration. -/
def decl (b : Builder) (localName : String) (kind : DeclKind) :
    Except Fault (NodeId × Builder) :=
  b.add (.decl { localName, kind })

/-- Makes a declaration stand for an expression wherever it is referenced. -/
def setReference (b : Builder) (decl expr : NodeId) : Except Fault Builder := do
  let d ← b.tree.decl decl
  let _ ← b.tree.node expr
  let tree := b.tree.setKind decl (.decl { d with reference := some expr })
  pure { b with tree := tree.link decl expr }

/-- Finishes the module with its top-level items. -/
def finish (b : Builder) (items : List NodeId) : Except Fault Tree := do
  let (root, b) ← b.add (.module { b.header with items })
  pure { b.tree with root }

end Builder

end StackTemplate
