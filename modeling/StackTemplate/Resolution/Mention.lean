import StackTemplate.Format.Placeholder
import StackTemplate.Name
import StackTemplate.Tree.Basic

/-!
# What a declaration mentions

The fields of a declaration are walked for names of other items. A name is mentioned under guards:
the condition of a whole resource or function guards all its other fields, and the branches of an
`if` expression are guarded by its condition, the second one negated. Pseudo parameters are not
counted.

The walk does not go into nested declarations, which have edges of their own, nor into the
reference expression, which counts where it is copied to.
-/

namespace StackTemplate

namespace Tree

/-- The guard that holds when a condition is true. -/
def guardFor (t : Tree) (condition : NodeId) : Guard :=
  match t.expr? condition with
  | some (.conditionRef name) => .condition name false
  | _ => .expr condition false

/-- The edges to some names at a node under guards; pseudo parameters make none. -/
def edgesTo (names : List String) (guards : List Guard) (origin : NodeId) : List Dependency :=
  (names.filter fun name => !isPseudoParameter name).map fun name =>
    Dependency.under guards name origin

/-- The names that an expression itself mentions. -/
def mentionedNames (directory : Directory) : Expr → List String
  | .ref name | .getAtt name _ | .conditionRef name => [name]
  | .findInMap mapName _ _ => [mapName]
  | .sub format parameters => Format.directTargets directory format parameters
  | _ => []

/-- The edges of the subtree at an id under guards, outermost guard first, looking `depth` levels
deep. -/
def mentionsWithin (t : Tree) (directory : Directory) :
    (depth : Nat) → (guards : List Guard) → NodeId → List Dependency
  | 0, _, _ => []
  | depth + 1, guards, id =>
    match t.kind? id with
    | none | some (.decl _) => []
    | some (.module m) => m.children.flatMap (t.mentionsWithin directory depth guards)
    | some (.expr (.ifElse condition ifTrue ifFalse)) =>
      let guard := t.guardFor condition
      t.mentionsWithin directory depth guards condition ++
        t.mentionsWithin directory depth (guards ++ [guard]) ifTrue ++
        t.mentionsWithin directory depth (guards ++ [guard.negate]) ifFalse
    | some (.expr e) =>
      edgesTo (mentionedNames directory e) guards id ++
        e.children.flatMap (t.mentionsWithin directory depth guards)

/-- The edges of the subtree at an id under guards. -/
def mentions (t : Tree) (directory : Directory) (guards : List Guard) (id : NodeId) :
    List Dependency :=
  t.mentionsWithin directory t.size guards id

/-- The guards of the fields of a declaration besides its condition. A condition that is the
literal `true` is none. -/
def fieldGuards (t : Tree) (d : Decl) : List Guard :=
  match d.ifCondition? with
  | none => []
  | some condition => if t.bool? condition = some true then [] else [t.guardFor condition]

/-- The edges of the declaration `d` at an id: from its condition, then from its other fields, then
from the items it is explicitly created after. -/
def declMentions (t : Tree) (directory : Directory) (id : NodeId) (d : Decl) : List Dependency :=
  let guards := t.fieldGuards d
  let fields := d.kind.fields.filter fun field => some field ≠ d.ifCondition?
  d.ifCondition?.toList.flatMap (t.mentions directory []) ++
    fields.flatMap (t.mentions directory guards) ++ edgesTo d.dependsOn guards id

end Tree

end StackTemplate
