import StackTemplate.Fold.Alias
import StackTemplate.Format.Placeholder
import StackTemplate.Tree.Copy

/-!
# Folding one expression

`reduct?` decides what, if anything, an expression is folded into, looking only at the tree as it
is. `Reduct.realise` then makes the node that takes its place.
-/

namespace StackTemplate.Fold

/-- A part of a join after adjacent literals are merged. -/
inductive JoinPart where
  /-- A value that stays. -/
  | kept (id : NodeId)
  /-- A literal made of several, placed where the first of them was. -/
  | merged (text : String) (span : Span)
deriving DecidableEq, Inhabited

/-- What takes the place of an expression. -/
inductive Reduct where
  /-- A node of the tree. -/
  | existing (id : NodeId)
  /-- A copy of a subtree. -/
  | copied (id : NodeId)
  /-- A constant. -/
  | constant (l : Literal)
  /-- A list of strings. -/
  | strings (parts : List String)
  /-- A shorter join. -/
  | joined (delimiter : String) (parts : List JoinPart)
  /-- An interpolated string with fewer parameters. -/
  | interpolated (format : String) (parameters : Table NodeId)
deriving DecidableEq

/-! ### Logic -/

/-- Conjunction and disjunction. An operand that is the dominant truth value is the answer; else,
if one operand is known, the answer is the other. -/
def logic? (t : Tree) (dominant : Bool) (lhs rhs : NodeId) : Option NodeId :=
  match t.bool? lhs, t.bool? rhs with
  | some l, _ => if l = dominant then some lhs else some rhs
  | none, some r => if r = dominant then some rhs else some lhs
  | none, none => none

/-! ### Joins -/

/-- The texts of the literals among some nodes with a delimiter between them. -/
def joinText (t : Tree) (delimiter : String) (ids : List NodeId) : String :=
  delimiter.intercalate (ids.filterMap fun id => (t.literal? id).map (·.value.toText))

/-- Groups neighbours that are both literals; every other value is a group of its own. -/
def literalRuns (t : Tree) : List NodeId → List (List NodeId)
  | [] => []
  | id :: rest =>
    match literalRuns t rest with
    | (next :: run) :: runs =>
      if (t.literal? id).isSome && (t.literal? next).isSome then (id :: next :: run) :: runs
      else [id] :: (next :: run) :: runs
    | runs => [id] :: runs

/-- The part that a group of values becomes. -/
def JoinPart.ofRun (t : Tree) (delimiter : String) : List NodeId → JoinPart
  | [id] => .kept id
  | run => .merged (joinText t delimiter run) (t.span (run.head?.getD 0))

/-- A join of no value is the empty string, of one value that value, and of literals their text. In
any other join neighbouring literals are merged. -/
def join? (t : Tree) (delimiter : String) (values : List NodeId) : Option Reduct :=
  match values with
  | [] => some (.constant (.string ""))
  | [single] => some (.existing single)
  | _ =>
    if values.all fun id => (t.literal? id).isSome then
      some (.constant (.string (joinText t delimiter values)))
    else
      let runs := literalRuns t values
      if runs.any fun run => 1 < run.length then
        some (.joined delimiter (runs.map (JoinPart.ofRun t delimiter)))
      else none

/-! ### Look-ups -/

/-- A field of the object at an id. -/
def objectField? (t : Tree) (object : NodeId) (key : String) : Option NodeId :=
  match t.expr? object with
  | some (.object fields) => fields.get? key
  | _ => none

/-- Whether the subtree at an id holds literals, lists and objects only, looking `depth` levels
deep. -/
def isLiteralWithin (t : Tree) : (depth : Nat) → NodeId → Bool
  | 0, _ => false
  | depth + 1, id =>
    match t.expr? id with
    | some (.literal _) => true
    | some (.list items) => items.all (isLiteralWithin t depth)
    | some (.object fields) => fields.values.all (isLiteralWithin t depth)
    | _ => false

/-- Whether the subtree at an id holds literals, lists and objects only. -/
def isLiteralTree (t : Tree) (id : NodeId) : Bool := isLiteralWithin t t.size id

/-- The value of a declared mapping under two literal keys, if nothing in it is left to fold. -/
def findInMap? (t : Tree) (directory : Directory) (mapName : String)
    (topKey secondKey : NodeId) : Option NodeId := do
  let top ← t.literal? topKey
  let second ← t.literal? secondKey
  let d ← (directory.get? mapName).bind t.decl?
  match d.kind with
  | .mapping value =>
    let level ← objectField? t value top.value.toText
    let found ← objectField? t level second.value.toText
    if isLiteralTree t found then some found else none
  | _ => none

/-! ### Interpolated strings -/

/-- The parameters bound to literals, with the format text of each literal. -/
def literalTexts (t : Tree) (parameters : Table NodeId) : List (String × String) :=
  parameters.entries.filterMap fun (name, id) =>
    (t.literal? id).map fun l => (name, Format.escape l.value.toText)

/-- Literal parameters go into the format. What is left without placeholders and parameters is a
string. -/
def sub? (t : Tree) (format : String) (parameters : Table NodeId) : Option Reduct :=
  if Format.hasLocalAttribute format parameters then none
  else
    let inlined := literalTexts t parameters
    let remaining := parameters.filter fun _ id => (t.literal? id).isNone
    let inlinedFormat :=
      if inlined.isEmpty then .ok format else Format.replacePlaceholders (inlined.lookup ·) format
    match inlinedFormat with
    | .error _ => none
    | .ok newFormat =>
      let shortened :=
        if inlined.isEmpty then none else some (.interpolated newFormat remaining)
      if remaining.isEmpty then
        match Format.placeholders newFormat, Format.unescape newFormat with
        | .ok [], .ok text => some (.constant (.string text))
        | .ok _, _ => shortened
        | .error _, _ => none
      else shortened

/-! ### All expressions -/

/-- What an expression is folded into. References to the names in `cyclic` stay. -/
def reduct? (t : Tree) (directory : Directory) (cyclic : List String) : Expr → Option Reduct
  | .literal _ | .getAtt .. | .base64 _ | .importValue _ | .list _ | .object _ => none
  | .ref name =>
    if cyclic.contains name then none
    else (substitutionSource? t directory name).map .copied
  | .conditionRef name => do
    let d ← (directory.get? name).bind t.decl?
    match d.kind with
    | .condition value => (t.bool? value).map fun _ => .copied value
    | _ => none
  | .isDefined name =>
    some (.constant (.bool (directory.contains name || isPseudoParameter name) true))
  | .not value => do
    let l ← t.literal? value
    let b ← l.asBool?
    some (.constant (.bool (!b) l.fromExistenceCheck))
  | .equals lhs rhs => do
    let l ← t.literal? lhs
    let r ← t.literal? rhs
    some (.constant
      (.bool (l.value.same r.value) (l.fromExistenceCheck || r.fromExistenceCheck)))
  | .and lhs rhs => (logic? t false lhs rhs).map .existing
  | .or lhs rhs => (logic? t true lhs rhs).map .existing
  | .ifElse condition ifTrue ifFalse =>
    (t.bool? condition).map fun b => .existing (if b then ifTrue else ifFalse)
  | .join delimiter values => join? t delimiter values
  | .select index values => do
    let l ← t.literal? index
    let i ← l.value.asIndex?
    (values[i]?).map .existing
  | .split delimiter source => do
    let d ← (t.literal? delimiter).bind (·.value.asString?)
    let s ← (t.literal? source).bind (·.value.asString?)
    (Text.splitOn? d s).map .strings
  | .findInMap mapName topKey secondKey =>
    (findInMap? t directory mapName topKey secondKey).map .copied
  | .sub format parameters => sub? t format parameters

/-! ### Making the node -/

/-- Makes a part of a join. -/
def JoinPart.realise : JoinPart → Tree → NodeId × Tree
  | .kept id, t => (id, t)
  | .merged text span, t => t.addExpr (.literal (.string text)) span

/-- Makes the node that takes the place of an expression at `span`. -/
def Reduct.realise (span : Span) : Reduct → Tree → NodeId × Tree
  | .existing id, t => (id, t)
  | .copied id, t => t.copy id
  | .constant l, t => t.addExpr (.literal l) span
  | .strings parts, t =>
    let (ids, t) := Tree.addEach
      (fun part t => t.addExpr (.literal (.string part)) span) parts t
    t.addExpr (.list ids) span
  | .joined delimiter parts, t =>
    let (ids, t) := Tree.addEach JoinPart.realise parts t
    t.addExpr (.join delimiter ids) span
  | .interpolated format parameters, t => t.addExpr (.sub format parameters) span

end StackTemplate.Fold
