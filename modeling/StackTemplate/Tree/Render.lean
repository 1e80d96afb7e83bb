import StackTemplate.Tree.Basic
import StackTemplate.Text.Quoted

/-!
# Showing trees as text

An expression is shown on one line, a module as an indented listing of its declarations and their
fields.
-/

namespace StackTemplate

/-! ### Expressions -/

/-- Members in square brackets. -/
def listText (members : List String) : String :=
  "[" ++ ", ".intercalate members ++ "]"

/-- Named members in braces. -/
def fieldsText (shown : NodeId → String) (fields : Table NodeId) : String :=
  "\x7b" ++ ", ".intercalate (fields.entries.map fun (key, id) => key ++ ": " ++ shown id) ++
    "\x7d"

/-- A function name with its arguments. -/
def callText (name : String) (arguments : List String) : String :=
  name ++ "(" ++ ", ".intercalate arguments ++ ")"

/-- A constant as it is shown in a tree: strings are quoted. -/
def Value.render : Value → String
  | .string s => Text.quoted s
  | other => other.toText

/-- An expression, given how its operands are shown. -/
def Expr.render (shown : NodeId → String) : Expr → String
  | .literal l => l.value.render
  | .ref name => callText "ref" [name]
  | .getAtt name attributeName => callText "getatt" [name, attributeName]
  | .conditionRef name => callText "condition" [name]
  | .isDefined name => callText "is-defined" [name]
  | .join delimiter values =>
    callText "join" [Text.quoted delimiter, listText (values.map shown)]
  | .select index values => callText "select" [shown index, listText (values.map shown)]
  | .split delimiter source => callText "split" [shown delimiter, shown source]
  | .findInMap mapName topKey secondKey =>
    callText "find-in-map" [mapName, shown topKey, shown secondKey]
  | .base64 value => callText "base64" [shown value]
  | .importValue value => callText "import-value" [shown value]
  | .sub format parameters =>
    callText "sub"
      (Text.quoted format :: if parameters.isEmpty then [] else [fieldsText shown parameters])
  | .ifElse condition ifTrue ifFalse =>
    callText "if" [shown condition, shown ifTrue, shown ifFalse]
  | .and lhs rhs => callText "and" [shown lhs, shown rhs]
  | .or lhs rhs => callText "or" [shown lhs, shown rhs]
  | .not value => callText "not" [shown value]
  | .equals lhs rhs => callText "equals" [shown lhs, shown rhs]
  | .list items => listText (items.map shown)
  | .object fields => fieldsText shown fields

namespace Tree

/-- The subtree at an id on one line, `depth` levels deep. -/
def renderWithin (t : Tree) : (depth : Nat) → NodeId → String
  | 0, _ => ""
  | depth + 1, id =>
    match t.kind? id with
    | none => ""
    | some (.module m) => "<module " ++ m.name ++ ">"
    | some (.decl d) => "<decl " ++ d.localName ++ ">"
    | some (.expr e) => e.render (t.renderWithin depth)

/-- The subtree at an id on one line. -/
def render (t : Tree) (id : NodeId) : String := t.renderWithin t.size id

/-! ### Dependency edges -/

/-- A guard, with a mark in front if it is negated. -/
def renderGuard (t : Tree) : Guard → String
  | .condition name negated => (if negated then "!" else "") ++ name
  | .expr node negated => (if negated then "!" else "") ++ t.render node

/-- The target of an edge and the guards it holds under. -/
def renderDependency (t : Tree) (d : Dependency) : String :=
  if d.guards.isEmpty then d.target
  else d.target ++ " when " ++ " && ".intercalate (d.guards.map t.renderGuard)

/-! ### Modules -/

/-- A field of an optional expression. -/
def exprField (t : Tree) (label : String) (id : Option NodeId) : List (String × String) :=
  (id.map fun id => (label, t.render id)).toList

/-- A field of an optional text. -/
def textField (label : String) (text : Option String) : List (String × String) :=
  (text.map fun text => (label, text)).toList

/-- A field of a list of names, left out if the list is empty. -/
def namesField (label : String) (names : List String) : List (String × String) :=
  if names.isEmpty then [] else [(label, ", ".intercalate names)]

/-- The shown fields of a declaration with their labels. -/
def shownFields (t : Tree) : DeclKind → List (String × String)
  | .parameter p =>
    ("type", p.typeName) :: t.exprField "default" p.defaultValue ++
      namesField "allowed" p.allowedValues
  | .var typeName value => textField "type" typeName ++ [("value", t.render value)]
  | .resource r =>
    textField "type" r.resourceType ++ t.exprField "if" r.ifCondition ++
      t.exprField "properties" r.properties ++ t.exprField "value" r.value ++
      namesField "depends-on" r.dependsOn
  | .function f =>
    t.exprField "if" f.ifCondition ++ t.exprField "properties" f.properties ++
      t.exprField "environment" f.environment ++ textField "runtime" f.runtime ++
      textField "handler" f.handler
  | .condition value => [("value", t.render value)]
  | .mapping value => [("value", t.render value)]
  | .resourceType handler .. => [("handler", t.render handler)]
  | .macroItem handler => [("handler", t.render handler)]
  | .nested n =>
    ("module", n.module) :: t.exprField "parameters" n.parameters ++
      namesField "depends-on" n.dependsOn
  | .package files => [("files", files)]
  | .importItem module _ => [("module", module)]
  | .group _ => []

/-- A line of a listing. -/
def listingLine (depth : Nat) (text : String) : String :=
  String.ofList (List.replicate (2 * depth) ' ') ++ text

/-- The lines of the declaration at an id and of the ones it holds, which must all be
declarations. -/
def declLines (t : Tree) (edges : Bool) : (levels : Nat) → (depth : Nat) → NodeId →
    Except Fault (List String)
  | 0, _, _ => pure []
  | levels + 1, depth, id => do
    let d ← t.decl id
    let head := listingLine depth (d.kind.keyword ++ " " ++ d.shownName)
    let fields := (t.shownFields d.kind ++ t.exprField "reference" d.reference).map
      fun (label, text) => listingLine (depth + 1) (label ++ ": " ++ text)
    let shownEdges := if edges then d.dependencies else []
    let edgeLines := shownEdges.map fun e => listingLine (depth + 1) ("-> " ++ t.renderDependency e)
    let nested ← d.kind.items.mapM (t.declLines edges levels (depth + 1))
    pure (head :: fields ++ edgeLines ++ nested.flatten)

/-- The header lines of a module: its name, pragmas and used modules. -/
def headerLines (t : Tree) (m : Module) : List String :=
  let title := "module " ++ m.name ++ ((m.version.map (" @ " ++ ·)).getD "")
  let pragmas := m.pragmas.map fun id => listingLine 1 ("pragma " ++ t.render id)
  let usings := m.usings.map fun u =>
    listingLine 1 ("using " ++ u.module ++ ((u.parameters.map (" " ++ t.render ·)).getD ""))
  title :: pragmas ++ usings

/-- The listing of the whole module, with the dependency edges if asked for. Items must be
declarations. -/
def listing (t : Tree) (edges : Bool) : Except Fault String := do
  let items ← t.module.items.mapM (t.declLines edges t.size 1)
  pure (String.join ((t.headerLines t.module ++ items.flatten).map (· ++ "\n")))

end Tree

end StackTemplate
