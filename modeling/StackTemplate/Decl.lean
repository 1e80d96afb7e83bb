import StackTemplate.Dependency
import StackTemplate.NodeId

/-!
# Declarations

The items of a module. A declaration has expression fields, may stand for a reference expression,
and may, if it is a group, hold further declarations. As for expressions, `children` lists these
slots in source order and `refill` puts ids back into them.
-/

namespace StackTemplate

/-- An input of the template. -/
structure ParameterItem where
  typeName : String := ""
  defaultValue : Option NodeId := none
  allowedValues : List String := []
  description : Option String := none
deriving DecidableEq, Inhabited

/-- A resource of the template, or an existing one if it has a value. -/
structure ResourceItem where
  resourceType : Option String := none
  ifCondition : Option NodeId := none
  properties : Option NodeId := none
  value : Option NodeId := none
  /-- Full names of the items it is created after. -/
  dependsOn : List String := []
deriving DecidableEq, Inhabited

/-- A function of the template. -/
structure FunctionItem where
  ifCondition : Option NodeId := none
  properties : Option NodeId := none
  environment : Option NodeId := none
  runtime : Option String := none
  handler : Option String := none
deriving DecidableEq, Inhabited

/-- A nested stack. -/
structure NestedItem where
  module : String := ""
  parameters : Option NodeId := none
  /-- Full names of the items it is created after. -/
  dependsOn : List String := []
deriving DecidableEq, Inhabited

/-- The sort of a declaration, with the fields of that sort. -/
inductive DeclKind where
  | parameter (p : ParameterItem)
  | var (typeName : Option String) (value : NodeId)
  | resource (r : ResourceItem)
  | function (f : FunctionItem)
  | condition (value : NodeId)
  | mapping (value : NodeId)
  /-- A type of resources, with the names of their properties and attributes. -/
  | resourceType (handler : NodeId) (properties attributeNames : List String := [])
  | macroItem (handler : NodeId)
  | nested (n : NestedItem)
  | package (files : String)
  | group (items : List NodeId)
  /-- An item of another module, with its type if that is given. -/
  | importItem (module : String) (typeName : Option String := none)
deriving DecidableEq, Inhabited

/-! ### Optional slots -/

/-- Puts the next id into a slot if the slot is in use; the ids left over come second. -/
def takeSlot : Option NodeId → List NodeId → Option NodeId × List NodeId
  | none, ids => (none, ids)
  | some old, [] => (some old, [])
  | some _, id :: ids => (some id, ids)

/-- Putting back what a slot holds changes nothing and uses it up. -/
@[simp] theorem takeSlot_toList (slot : Option NodeId) (ids : List NodeId) :
    takeSlot slot (slot.toList ++ ids) = (slot, ids) := by
  cases slot <;> rfl

/-- A slot takes from the ids just what it then holds. -/
theorem toList_takeSlot (slot : Option NodeId) (ids : List NodeId)
    (h : slot.toList.length ≤ ids.length) :
    (takeSlot slot ids).1.toList ++ (takeSlot slot ids).2 = ids := by
  cases slot with
  | none => rfl
  | some old =>
    cases ids with
    | nil => simp at h
    | cons id ids => rfl

/-- A slot stays in use or out of use. -/
theorem length_toList_takeSlot (slot : Option NodeId) (ids : List NodeId) :
    (takeSlot slot ids).1.toList.length = slot.toList.length := by
  cases slot with
  | none => rfl
  | some old => cases ids <;> rfl

/-- A slot in use takes one id, if there is one. -/
theorem length_takeSlot (slot : Option NodeId) (ids : List NodeId) :
    (takeSlot slot ids).2.length = ids.length - slot.toList.length := by
  cases slot with
  | none => rfl
  | some old => cases ids <;> rfl

/-- What a slot held before does not count. -/
theorem takeSlot_takeSlot {slot : Option NodeId} (old : List NodeId) {ids : List NodeId}
    (h : slot.toList.length ≤ ids.length) :
    takeSlot (takeSlot slot old).1 ids = takeSlot slot ids := by
  cases slot with
  | none => rfl
  | some id =>
    cases ids with
    | nil => simp at h
    | cons id ids => cases old <;> rfl

namespace DeclKind

/-- The word that names this sort of declaration. -/
def keyword : DeclKind → String
  | .parameter _ => "parameter"
  | .var .. => "variable"
  | .resource _ => "resource"
  | .function _ => "function"
  | .condition _ => "condition"
  | .mapping _ => "mapping"
  | .resourceType .. => "resource-type"
  | .macroItem _ => "macro"
  | .nested _ => "nested"
  | .package _ => "package"
  | .group _ => "group"
  | .importItem .. => "import"

/-- The expression fields in source order. -/
def fields : DeclKind → List NodeId
  | .parameter p => p.defaultValue.toList
  | .var _ value => [value]
  | .resource r => r.ifCondition.toList ++ r.properties.toList ++ r.value.toList
  | .function f => f.ifCondition.toList ++ f.properties.toList ++ f.environment.toList
  | .condition value => [value]
  | .mapping value => [value]
  | .resourceType handler .. => [handler]
  | .macroItem handler => [handler]
  | .nested n => n.parameters.toList
  | .package _ | .group _ | .importItem .. => []

/-- The declarations that this one holds. -/
def items : DeclKind → List NodeId
  | .group items => items
  | _ => []

/-- The kind with other expression fields, given in the order of `fields` and as many. -/
def refillFields : DeclKind → List NodeId → DeclKind
  | .parameter p, ids => .parameter { p with defaultValue := (takeSlot p.defaultValue ids).1 }
  | .var typeName _, [value] => .var typeName value
  | .resource r, ids =>
    let (ifCondition, ids) := takeSlot r.ifCondition ids
    let (properties, ids) := takeSlot r.properties ids
    let (value, _) := takeSlot r.value ids
    .resource { r with ifCondition, properties, value }
  | .function f, ids =>
    let (ifCondition, ids) := takeSlot f.ifCondition ids
    let (properties, ids) := takeSlot f.properties ids
    let (environment, _) := takeSlot f.environment ids
    .function { f with ifCondition, properties, environment }
  | .condition _, [value] => .condition value
  | .mapping _, [value] => .mapping value
  | .resourceType _ properties attributeNames, [handler] =>
    .resourceType handler properties attributeNames
  | .macroItem _, [handler] => .macroItem handler
  | .nested n, ids => .nested { n with parameters := (takeSlot n.parameters ids).1 }
  | kind, _ => kind

/-- The kind with other held declarations. -/
def refillItems : DeclKind → List NodeId → DeclKind
  | .group _, ids => .group ids
  | kind, _ => kind

/-- The number of expression fields that an id can be written to. -/
def fieldCount : DeclKind → Nat
  | .parameter p => p.defaultValue.toList.length
  | .var .. | .condition _ | .mapping _ | .resourceType .. | .macroItem _ => 1
  | .resource r =>
    r.ifCondition.toList.length + r.properties.toList.length + r.value.toList.length
  | .function f =>
    f.ifCondition.toList.length + f.properties.toList.length + f.environment.toList.length
  | .nested n => n.parameters.toList.length
  | .package _ | .group _ | .importItem .. => 0

/-! ### Slots of a kind -/

/-- Each expression field can be written. -/
theorem fieldCount_eq (kind : DeclKind) : kind.fieldCount = kind.fields.length := by
  cases kind <;> simp [fieldCount, fields, Nat.add_assoc]

/-- Putting the fields back changes nothing. -/
@[simp] theorem refillFields_fields (kind : DeclKind) : kind.refillFields kind.fields = kind := by
  cases kind with
  | parameter p => cases p with | mk _ d => cases d <;> rfl
  | nested n => cases n with | mk _ p => cases p <;> rfl
  | resource r => cases r with | mk _ a b c => cases a <;> cases b <;> cases c <;> rfl
  | function f => cases f with | mk a b c => cases a <;> cases b <;> cases c <;> rfl
  | _ => rfl

/-- Putting the held declarations back changes nothing. -/
@[simp] theorem refillItems_items (kind : DeclKind) : kind.refillItems kind.items = kind := by
  cases kind <;> rfl

/-- The fields are what was put into them. -/
theorem fields_refillFields {kind : DeclKind} {ids : List NodeId}
    (h : ids.length = kind.fields.length) : (kind.refillFields ids).fields = ids := by
  cases kind with
  | parameter p | nested p =>
    cases p with
    | mk _ slot =>
      cases slot <;> rcases ids with _ | ⟨a, _ | ⟨b, ids⟩⟩ <;>
        simp_all [refillFields, fields, takeSlot]
  | resource r =>
    cases r with
    | mk _ a b c =>
      cases a <;> cases b <;> cases c <;>
        rcases ids with _ | ⟨x, _ | ⟨y, _ | ⟨z, _ | ⟨w, ids⟩⟩⟩⟩ <;>
        simp_all [refillFields, fields, takeSlot]
  | function f =>
    cases f with
    | mk a b c =>
      cases a <;> cases b <;> cases c <;>
        rcases ids with _ | ⟨x, _ | ⟨y, _ | ⟨z, _ | ⟨w, ids⟩⟩⟩⟩ <;>
        simp_all [refillFields, fields, takeSlot]
  | package _ | group _ | importItem _ _ => simp_all [refillFields, fields]
  | _ => rcases ids with _ | ⟨a, _ | ⟨b, ids⟩⟩ <;> simp_all [refillFields, fields]

/-- New fields leave the held declarations as they are. -/
@[simp] theorem items_refillFields (kind : DeclKind) (ids : List NodeId) :
    (kind.refillFields ids).items = kind.items := by
  unfold refillFields
  split <;> rfl

/-- New held declarations leave the fields as they are. -/
@[simp] theorem fields_refillItems (kind : DeclKind) (ids : List NodeId) :
    (kind.refillItems ids).fields = kind.fields := by
  unfold refillItems
  split <;> rfl

/-- The held declarations are what was put in. -/
theorem items_refillItems {kind : DeclKind} {ids : List NodeId}
    (h : ids.length = kind.items.length) : (kind.refillItems ids).items = ids := by
  cases kind <;> simp_all [refillItems, items]

/-- What was in the slots before does not count. -/
theorem refill_refill {kind : DeclKind} {ids : List NodeId} (old oldItems items : List NodeId)
    (h : ids.length = kind.fields.length) :
    (((kind.refillFields old).refillItems oldItems).refillFields ids).refillItems items =
      (kind.refillFields ids).refillItems items := by
  cases kind with
  | parameter p | nested p =>
    simp only [refillFields, refillItems]
    rw [takeSlot_takeSlot old (Nat.le_of_eq h.symm)]
  | resource r =>
    have hids : ids.length =
        r.ifCondition.toList.length + r.properties.toList.length + r.value.toList.length := by
      simpa [fields, Nat.add_assoc] using h
    have hfirst := length_takeSlot r.ifCondition ids
    have hsecond := length_takeSlot r.properties (takeSlot r.ifCondition ids).2
    simp only [refillFields, refillItems]
    rw [takeSlot_takeSlot old (by omega), takeSlot_takeSlot _ (by omega),
      takeSlot_takeSlot _ (by omega)]
  | function f =>
    have hids : ids.length =
        f.ifCondition.toList.length + f.properties.toList.length + f.environment.toList.length := by
      simpa [fields, Nat.add_assoc] using h
    have hfirst := length_takeSlot f.ifCondition ids
    have hsecond := length_takeSlot f.properties (takeSlot f.ifCondition ids).2
    simp only [refillFields, refillItems]
    rw [takeSlot_takeSlot old (by omega), takeSlot_takeSlot _ (by omega),
      takeSlot_takeSlot _ (by omega)]
  | package _ | group _ | importItem _ _ => rfl
  | _ =>
    obtain ⟨id, rfl⟩ := List.length_eq_one_iff.mp h
    rcases old with _ | ⟨x, _ | ⟨y, old⟩⟩ <;> rfl

end DeclKind

/-- A declaration node. -/
structure Decl where
  /-- The name it is declared under. -/
  localName : String
  /-- The dotted name through the groups around it, once binding has set it. -/
  fullName : Option String := none
  /-- Its sort and fields. -/
  kind : DeclKind
  /-- The expression that it stands for wherever it is referenced. -/
  reference : Option NodeId := none
  /-- Outgoing edges, set by dependency resolution. -/
  dependencies : List Dependency := []
  /-- Incoming edges, set by dependency resolution. -/
  reverseDependencies : List Dependency := []
deriving DecidableEq, Inhabited

namespace Decl

/-- The expression that replaces references to this item: the reference expression, or the value
of a variable without one. -/
def aliasSource? (d : Decl) : Option NodeId :=
  match d.reference, d.kind with
  | some e, _ => some e
  | none, .var _ value => some value
  | none, _ => none

/-- Whether the item becomes a resource of the template. -/
def isResource (d : Decl) : Bool :=
  match d.kind with
  | .resource r => r.resourceType.isSome && r.value.isNone
  | .function _ | .nested _ => true
  | _ => false

/-- The condition of a whole resource or function. -/
def ifCondition? (d : Decl) : Option NodeId :=
  match d.kind with
  | .resource r => r.ifCondition
  | .function f => f.ifCondition
  | _ => none

/-- The items it is explicitly created after. -/
def dependsOn (d : Decl) : List String :=
  match d.kind with
  | .resource r => r.dependsOn
  | .nested n => n.dependsOn
  | _ => []

/-- The name it goes by: the full name, or the local one before binding. -/
def shownName (d : Decl) : String := d.fullName.getD d.localName

/-- One outgoing edge per target. -/
def uniqueDependencies (d : Decl) : List Dependency :=
  Dependency.uniqueByTarget d.dependencies

/-- All child slots: fields, the reference expression, held declarations. -/
def children (d : Decl) : List NodeId :=
  d.kind.fields ++ d.reference.toList ++ d.kind.items

/-- The declaration with other children, given in the order of `children` and as many. -/
def refill (d : Decl) (ids : List NodeId) : Decl :=
  let fieldCount := d.kind.fields.length
  let (reference, items) := takeSlot d.reference (ids.drop fieldCount)
  { d with kind := (d.kind.refillFields (ids.take fieldCount)).refillItems items, reference }

/-- The number of slots that an id can be written to. -/
def slotCount (d : Decl) : Nat :=
  d.kind.fieldCount + d.reference.toList.length + d.kind.items.length

/-- There is one slot for each child. -/
theorem slotCount_eq (d : Decl) : d.slotCount = d.children.length := by
  simp [slotCount, children, DeclKind.fieldCount_eq, Nat.add_assoc]

/-- Putting the children back changes nothing. -/
@[simp] theorem refill_children (d : Decl) : d.refill d.children = d := by
  simp [refill, children]

/-- The children are what was put into the slots. -/
theorem children_refill {d : Decl} {ids : List NodeId} (h : ids.length = d.children.length) :
    (d.refill ids).children = ids := by
  have hlength : ids.length =
      d.kind.fields.length + d.reference.toList.length + d.kind.items.length := by
    simpa [children, Nat.add_assoc] using h
  have hslot := toList_takeSlot d.reference (ids.drop d.kind.fields.length)
    (by rw [List.length_drop]; omega)
  have hitems : (takeSlot d.reference (ids.drop d.kind.fields.length)).2.length =
      d.kind.items.length := by
    have := congrArg List.length hslot
    rw [List.length_append, length_toList_takeSlot, List.length_drop] at this
    omega
  have hfields : (d.kind.refillFields (ids.take d.kind.fields.length)).fields =
      ids.take d.kind.fields.length :=
    DeclKind.fields_refillFields (by rw [List.length_take]; omega)
  have hheld : ((d.kind.refillFields (ids.take d.kind.fields.length)).refillItems
      (takeSlot d.reference (ids.drop d.kind.fields.length)).2).items =
      (takeSlot d.reference (ids.drop d.kind.fields.length)).2 :=
    DeclKind.items_refillItems (by simpa using hitems)
  simp only [children, refill, DeclKind.fields_refillItems, hfields, hheld, List.append_assoc,
    hslot, List.take_append_drop]

/-- What was in the slots before does not count. -/
theorem refill_refill {d : Decl} {old ids : List NodeId} (hold : old.length = d.children.length)
    (h : ids.length = d.children.length) : (d.refill old).refill ids = d.refill ids := by
  simp only [children, List.length_append] at hold h
  have hfields : (d.kind.refillFields (old.take d.kind.fields.length)).fields.length =
      d.kind.fields.length := by
    rw [DeclKind.fields_refillFields] <;> (rw [List.length_take]; omega)
  simp only [refill, DeclKind.fields_refillItems, hfields]
  rw [takeSlot_takeSlot _ (by rw [List.length_drop]; omega),
    DeclKind.refill_refill _ _ _ (by rw [List.length_take]; omega)]

end Decl

end StackTemplate
