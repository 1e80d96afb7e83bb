import StackTemplate.NodeId
import StackTemplate.Table
import StackTemplate.Value

/-!
# Expressions

The built-in functions of a template. Operands are ids of other nodes of the same tree, read and
replaced through one list of slots: `children` lists them in source order, and `refill` puts a list
of ids back into the same slots.
-/

namespace StackTemplate

/-- An expression node. -/
inductive Expr where
  /-- A constant. -/
  | literal (l : Literal)
  /-- A reference to an item by its full name, or to a pseudo parameter. -/
  | ref (name : String)
  /-- An attribute of an item. -/
  | getAtt (name : String) (attributeName : String)
  /-- A reference to a condition declaration. -/
  | conditionRef (name : String)
  /-- Whether an item or pseudo parameter of that name exists. -/
  | isDefined (name : String)
  /-- The texts of the values with the delimiter between them. -/
  | join (delimiter : String) (values : List NodeId)
  /-- The value at an index. -/
  | select (index : NodeId) (values : List NodeId)
  /-- The pieces of a text between the occurrences of a delimiter. -/
  | split (delimiter : NodeId) (source : NodeId)
  /-- A two-level look-up in a mapping declaration. -/
  | findInMap (mapName : String) (topKey : NodeId) (secondKey : NodeId)
  | base64 (value : NodeId)
  | importValue (value : NodeId)
  /-- An interpolated string: a format and a table of local parameters. -/
  | sub (format : String) (parameters : Table NodeId)
  | ifElse (condition : NodeId) (ifTrue : NodeId) (ifFalse : NodeId)
  | and (lhs : NodeId) (rhs : NodeId)
  | or (lhs : NodeId) (rhs : NodeId)
  | not (value : NodeId)
  | equals (lhs : NodeId) (rhs : NodeId)
  | list (items : List NodeId)
  | object (fields : Table NodeId)
deriving DecidableEq

namespace Expr

instance : Inhabited Expr := ⟨.list []⟩

/-- The word that names this sort of expression. -/
def keyword : Expr → String
  | .literal _ => "literal"
  | .ref _ => "ref"
  | .getAtt .. => "getatt"
  | .conditionRef _ => "condition"
  | .isDefined _ => "is-defined"
  | .join .. => "join"
  | .select .. => "select"
  | .split .. => "split"
  | .findInMap .. => "find-in-map"
  | .base64 _ => "base64"
  | .importValue _ => "import-value"
  | .sub .. => "sub"
  | .ifElse .. => "if"
  | .and .. => "and"
  | .or .. => "or"
  | .not _ => "not"
  | .equals .. => "equals"
  | .list _ => "list"
  | .object _ => "object"

/-- The constant, if the expression is one. -/
def literal? : Expr → Option Literal
  | .literal l => some l
  | _ => none

/-- Whether the expression is a literal that substitution must leave alone. -/
def isFinal : Expr → Bool
  | .literal l => l.isFinal
  | _ => false

/-- The operands in source order. -/
def children : Expr → List NodeId
  | .literal _ | .ref _ | .getAtt .. | .conditionRef _ | .isDefined _ => []
  | .join _ values => values
  | .select index values => index :: values
  | .split delimiter source => [delimiter, source]
  | .findInMap _ topKey secondKey => [topKey, secondKey]
  | .base64 value | .importValue value | .not value => [value]
  | .sub _ parameters => parameters.values
  | .ifElse condition ifTrue ifFalse => [condition, ifTrue, ifFalse]
  | .and lhs rhs | .or lhs rhs | .equals lhs rhs => [lhs, rhs]
  | .list items => items
  | .object fields => fields.values

/-- The expression with other operands, given in the order of `children` and as many. -/
def refill : Expr → List NodeId → Expr
  | .join delimiter _, ids => .join delimiter ids
  | .select _ _, index :: values => .select index values
  | .split _ _, [delimiter, source] => .split delimiter source
  | .findInMap mapName _ _, [topKey, secondKey] => .findInMap mapName topKey secondKey
  | .base64 _, [value] => .base64 value
  | .importValue _, [value] => .importValue value
  | .not _, [value] => .not value
  | .sub format parameters, ids => .sub format (parameters.refill ids)
  | .ifElse _ _ _, [condition, ifTrue, ifFalse] => .ifElse condition ifTrue ifFalse
  | .and _ _, [lhs, rhs] => .and lhs rhs
  | .or _ _, [lhs, rhs] => .or lhs rhs
  | .equals _ _, [lhs, rhs] => .equals lhs rhs
  | .list _, ids => .list ids
  | .object fields, ids => .object (fields.refill ids)
  | e, _ => e

/-- The number of slots that an id can be written to. -/
def slotCount : Expr → Nat
  | .literal _ | .ref _ | .getAtt .. | .conditionRef _ | .isDefined _ => 0
  | .join _ values => values.length
  | .select _ values => 1 + values.length
  | .split .. | .findInMap .. | .and .. | .or .. | .equals .. => 2
  | .base64 _ | .importValue _ | .not _ => 1
  | .sub _ parameters => parameters.size
  | .ifElse .. => 3
  | .list items => items.length
  | .object fields => fields.size

/-! ### Slots -/

/-- There is one slot for each operand. -/
theorem slotCount_eq (e : Expr) : e.slotCount = e.children.length := by
  cases e <;> simp [slotCount, children, Table.size, Table.values, Nat.add_comm]

/-- Putting the operands back changes nothing. -/
@[simp] theorem refill_children (e : Expr) : e.refill e.children = e := by
  cases e <;> simp [refill, children]

/-- What is put into the slots is what the slots then hold. -/
theorem children_refill {e : Expr} {ids : List NodeId} (h : ids.length = e.children.length) :
    (e.refill ids).children = ids := by
  cases e with
  | sub format parameters => simpa [refill, children] using Table.values_refill h
  | object fields => simpa [refill, children] using Table.values_refill h
  | join delimiter values => rfl
  | list items => rfl
  | literal l => simp_all [refill, children]
  | ref name => simp_all [refill, children]
  | getAtt name attributeName => simp_all [refill, children]
  | conditionRef name => simp_all [refill, children]
  | isDefined name => simp_all [refill, children]
  | select index values =>
    cases ids with
    | nil => simp [children] at h
    | cons id ids => rfl
  | base64 value | importValue value | not value =>
    rcases ids with _ | ⟨a, _ | ⟨b, ids⟩⟩ <;> simp_all [refill, children]
  | split a b | findInMap mapName a b | and a b | or a b | equals a b =>
    rcases ids with _ | ⟨a, _ | ⟨b, _ | ⟨c, ids⟩⟩⟩ <;> simp_all [refill, children]
  | ifElse condition ifTrue ifFalse =>
    rcases ids with _ | ⟨a, _ | ⟨b, _ | ⟨c, _ | ⟨d, ids⟩⟩⟩⟩ <;> simp_all [refill, children]

/-- What was in the slots before does not count. -/
theorem refill_refill {e : Expr} {ids : List NodeId} (old : List NodeId)
    (h : ids.length = e.children.length) : (e.refill old).refill ids = e.refill ids := by
  cases e with
  | sub format parameters => simpa [refill, children] using Table.refill_refill old h
  | object fields => simpa [refill, children] using Table.refill_refill old h
  | join delimiter values => rfl
  | list items => rfl
  | literal l => rfl
  | ref name => rfl
  | getAtt name attributeName => rfl
  | conditionRef name => rfl
  | isDefined name => rfl
  | select index values =>
    cases ids with
    | nil => simp [children] at h
    | cons id ids => cases old <;> rfl
  | base64 value | importValue value | not value =>
    rcases old with _ | ⟨x, _ | ⟨y, old⟩⟩ <;> rcases ids with _ | ⟨a, _ | ⟨b, ids⟩⟩ <;>
      simp_all [refill, children]
  | split a b | findInMap mapName a b | and a b | or a b | equals a b =>
    rcases old with _ | ⟨x, _ | ⟨y, _ | ⟨z, old⟩⟩⟩ <;>
      rcases ids with _ | ⟨a, _ | ⟨b, _ | ⟨c, ids⟩⟩⟩ <;> simp_all [refill, children]
  | ifElse condition ifTrue ifFalse =>
    rcases old with _ | ⟨x, _ | ⟨y, _ | ⟨z, _ | ⟨w, old⟩⟩⟩⟩ <;>
      rcases ids with _ | ⟨a, _ | ⟨b, _ | ⟨c, _ | ⟨d, ids⟩⟩⟩⟩ <;> simp_all [refill, children]

end Expr

end StackTemplate
