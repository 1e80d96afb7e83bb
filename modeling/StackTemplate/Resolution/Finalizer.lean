import StackTemplate.Resolution.Edges
import StackTemplate.Tree.Copy

/-!
# The finalizer

The finalizer invocation is a resource that must be created after every other resource of the
module. Resources that always exist go into its list of explicit dependencies. A resource with a
condition may not exist, so it is referenced from the `DependsOn` property instead, by an `if`
expression that gives no value when the condition fails.
-/

namespace StackTemplate

/-- What the finalizer was made to depend on. -/
structure FinalizerDependencies where
  /-- All its explicit dependencies, in ascending order. -/
  unconditional : List String
  /-- The resources referenced under a condition, in directory order. -/
  conditional : List String
deriving DecidableEq, Inhabited

/-- A resource with a condition. -/
structure ConditionalResource where
  name : String
  id : NodeId
  condition : NodeId
deriving DecidableEq, Inhabited

namespace Finalizer

/-- The property that lists what a resource depends on. -/
def dependsOnKey : String := "DependsOn"

/-- The resources of the directory besides the finalizer. -/
def otherResources (t : Tree) (directory : Directory) (finalizer : NodeId) :
    List (String × NodeId × Decl) :=
  directory.entries.filterMap fun (name, id) =>
    if id = finalizer then none
    else (t.decl? id).bind fun d => if d.isResource then some (name, id, d) else none

/-- The names of the resources that always exist: without a condition, or with the literal
`true`. -/
def unconditionalNames (t : Tree) (resources : List (String × NodeId × Decl)) : List String :=
  resources.filterMap fun (name, _, d) =>
    match d.ifCondition? with
    | none => some name
    | some condition => if t.bool? condition = some true then some name else none

/-- The resources whose condition is not decided. -/
def conditionalResources (t : Tree) (resources : List (String × NodeId × Decl)) :
    List ConditionalResource :=
  resources.filterMap fun (name, id, d) =>
    d.ifCondition?.bind fun condition =>
      if (t.bool? condition).isNone then some { name, id, condition } else none

/-- Replaces the explicit dependencies of a resource declaration. -/
def setDependsOn (names : List String) (d : Decl) : Decl :=
  match d.kind with
  | .resource r => { d with kind := .resource { r with dependsOn := names } }
  | _ => d

/-- Replaces the properties of a resource declaration. -/
def setProperties (id : NodeId) (d : Decl) : Decl :=
  match d.kind with
  | .resource r => { d with kind := .resource { r with properties := some id } }
  | _ => d

/-- The properties of a resource declaration. -/
def properties? (d : Decl) : Option NodeId :=
  match d.kind with
  | .resource r => r.properties
  | _ => none

/-- Makes the expression that a resource is referenced by: a copy of its reference expression, or a
reference to its name. -/
def addReference (t : Tree) (r : ConditionalResource) : NodeId × Tree :=
  match (t.decl? r.id).bind Decl.reference with
  | some e => t.copy e
  | none => t.addExpr (.ref r.name) (t.span r.id)

/-- Makes the `if` expression for a resource with a condition, and records the edge to it under the
copied condition. -/
def addConditional (finalizer : NodeId) (finalizerName : String) (r : ConditionalResource)
    (t : Tree) : NodeId × Tree :=
  let span := t.span r.id
  let (condition, t) := t.copy r.condition
  let (reference, t) := addReference t r
  let (noValue, t) := t.addExpr (.ref noValueName) span
  let (item, t) := t.addExpr (.ifElse condition reference noValue) span
  let edge : Dependency :=
    { target := r.name, guards := [t.guardFor condition], origin := reference }
  (item, t.recordEdge finalizer finalizerName r.id edge)

/-- The object of the finalizer's properties, a new one if the properties are no object. -/
def ensureProperties (t : Tree) (finalizer : NodeId) : NodeId × Tree :=
  let make : NodeId × Tree :=
    let (id, t) := t.addExpr (.object .empty) (t.span finalizer)
    (id, (t.modifyDecl finalizer (setProperties id)).link finalizer id)
  match (t.decl? finalizer).bind properties? with
  | none => make
  | some id =>
    match t.expr? id with
    | some (.object _) => (id, t)
    | _ => make

/-- The list under `DependsOn` in an object. If the property is something else, a new list takes
its place and holds it. What is there must be an expression. -/
def ensureList (t : Tree) (span : Span) (object : NodeId) : Except Fault (NodeId × Tree) := do
  match t.expr? object with
  | some (.object fields) =>
    let existing := fields.get? dependsOnKey
    let make : NodeId × Tree :=
      let (list, t) := t.addExpr (.list existing.toList) span
      (list, (t.setExpr object (.object (fields.insert dependsOnKey list))).link object list)
    match existing with
    | none => pure make
    | some id =>
      match ← t.expr id with
      | .list _ => pure (id, t)
      | _ => pure make
  | _ => pure (object, t)

/-- Appends items to the list at an id. -/
def appendItems (t : Tree) (list : NodeId) (items : List NodeId) : Tree :=
  match t.expr? list with
  | some (.list values) =>
    items.foldl (fun t item => t.link list item) (t.setExpr list (.list (values ++ items)))
  | _ => t

/-- Appends items to the `DependsOn` property of the finalizer. -/
def appendDependsOn (t : Tree) (finalizer : NodeId) (items : List NodeId) : Except Fault Tree :=
  if items.isEmpty then pure t
  else do
    let span := t.span finalizer
    let (object, t) := ensureProperties t finalizer
    let (list, t) ← ensureList t span object
    pure (appendItems t list items)

/-- Records an unguarded edge from the finalizer to each name. -/
def recordUnconditional (t : Tree) (directory : Directory) (finalizer : NodeId)
    (finalizerName : String) (names : List String) : Tree :=
  t.recordEdges directory finalizer finalizerName
    (names.map fun name => { target := name, guards := [], origin := finalizer })

/-- Makes the finalizer, a resource declaration, depend on all other resources. -/
def wire (t : Tree) (directory : Directory) (finalizerName : String) (finalizer : NodeId)
    (dependsOn : List String) : Except Fault (FinalizerDependencies × Tree) := do
  let resources := otherResources t directory finalizer
  let names := unconditionalNames t resources
  let conditional := conditionalResources t resources
  let unconditional := Text.sortedDistinct (dependsOn ++ names)
  let t := t.modifyDecl finalizer (setDependsOn unconditional)
  let t := recordUnconditional t directory finalizer finalizerName names
  let (items, t) := Tree.addEach (addConditional finalizer finalizerName) conditional t
  let t ← appendDependsOn t finalizer items
  pure ({ unconditional, conditional := conditional.map (·.name) }, t)

/-- Wires the finalizer of that name, if it is a resource declaration. -/
def analyze (t : Tree) (directory : Directory) (finalizerName : String) :
    Except Fault (Option FinalizerDependencies × Tree) :=
  match directory.get? finalizerName with
  | none => pure (none, t)
  | some finalizer =>
    match t.decl? finalizer with
    | some { kind := .resource r, .. } => do
      let (found, t) ← wire t directory finalizerName finalizer r.dependsOn
      pure (some found, t)
    | _ => pure (none, t)

end Finalizer

end StackTemplate
