import StackTemplate.Decl
import StackTemplate.Expr
import StackTemplate.Span

/-!
# Nodes

A tree has three families of nodes: the module at its root, declarations and expressions. All of
them present their children through one list of slots.
-/

namespace StackTemplate

/-- A module that this one builds on, with optional parameters. -/
structure Using where
  module : String
  parameters : Option NodeId
deriving DecidableEq, Inhabited

/-- The root of a tree: the module's header and its top-level items. -/
structure Module where
  name : String := ""
  version : Option String := none
  secrets : List String := []
  pragmas : List NodeId := []
  usings : List Using := []
  items : List NodeId := []
deriving DecidableEq, Inhabited

namespace Module

/-- All child slots: pragmas, parameters of the used modules, items. -/
def children (m : Module) : List NodeId :=
  m.pragmas ++ m.usings.filterMap Using.parameters ++ m.items

/-- Puts ids into the parameter slots of the used modules; the ids left over come second. -/
def refillUsings : List Using → List NodeId → List Using × List NodeId
  | [], ids => ([], ids)
  | u :: us, ids =>
    let (parameters, ids) := takeSlot u.parameters ids
    let (us, ids) := refillUsings us ids
    ({ u with parameters } :: us, ids)

/-- The module with other children, given in the order of `children` and as many. -/
def refill (m : Module) (ids : List NodeId) : Module :=
  let pragmaCount := m.pragmas.length
  let (usings, items) := refillUsings m.usings (ids.drop pragmaCount)
  { m with pragmas := ids.take pragmaCount, usings, items }

/-- The number of slots that an id can be written to. -/
def slotCount (m : Module) : Nat :=
  m.pragmas.length + m.usings.countP (·.parameters.isSome) + m.items.length

/-- There is one slot for each child. -/
theorem slotCount_eq (m : Module) : m.slotCount = m.children.length := by
  simp [slotCount, children, List.length_filterMap_eq_countP, Nat.add_assoc]

/-- Putting the parameters back changes nothing and uses them up. -/
@[simp] theorem refillUsings_parameters (us : List Using) (ids : List NodeId) :
    refillUsings us (us.filterMap Using.parameters ++ ids) = (us, ids) := by
  induction us with
  | nil => rfl
  | cons u us ih =>
    obtain ⟨name, parameters⟩ := u
    cases parameters <;> simp [refillUsings, takeSlot, ih]

/-- The parameter slots take from the ids just what they then hold. -/
theorem parameters_refillUsings (us : List Using) (ids : List NodeId)
    (h : (us.filterMap Using.parameters).length ≤ ids.length) :
    (refillUsings us ids).1.filterMap Using.parameters ++ (refillUsings us ids).2 = ids := by
  induction us generalizing ids with
  | nil => rfl
  | cons u us ih =>
    obtain ⟨name, parameters⟩ := u
    cases parameters with
    | none => simpa [refillUsings, takeSlot] using ih ids (by simpa using h)
    | some old =>
      cases ids with
      | nil => simp at h
      | cons id ids => simpa [refillUsings, takeSlot] using ih ids (by simpa using h)

/-- The children are what was put into the slots. -/
theorem children_refill {m : Module} {ids : List NodeId} (h : ids.length = m.children.length) :
    (m.refill ids).children = ids := by
  have hlength : ids.length = m.pragmas.length +
      (m.usings.filterMap Using.parameters).length + m.items.length := by
    simpa [children, Nat.add_assoc] using h
  have hrest := parameters_refillUsings m.usings (ids.drop m.pragmas.length)
    (by rw [List.length_drop]; omega)
  simp only [children, refill, List.append_assoc, hrest, List.take_append_drop]

/-- Putting the children back changes nothing. -/
@[simp] theorem refill_children (m : Module) : m.refill m.children = m := by
  simp [refill, children]

/-- What the parameter slots held before does not count. -/
theorem refillUsings_refillUsings (us : List Using) (old ids : List NodeId)
    (h : (us.filterMap Using.parameters).length ≤ ids.length) :
    refillUsings (refillUsings us old).1 ids = refillUsings us ids := by
  induction us generalizing old ids with
  | nil => rfl
  | cons u us ih =>
    obtain ⟨name, parameters⟩ := u
    cases parameters with
    | none =>
      simp only [refillUsings, takeSlot]
      rw [ih old ids (by simpa using h)]
    | some id =>
      cases ids with
      | nil => simp at h
      | cons id ids =>
        have hrest : (us.filterMap Using.parameters).length ≤ ids.length := by simpa using h
        cases old with
        | nil => simp only [refillUsings, takeSlot, ih _ ids hrest]
        | cons x old => simp only [refillUsings, takeSlot, ih _ ids hrest]

/-- What was in the slots before does not count. -/
theorem refill_refill {m : Module} {old ids : List NodeId} (hold : old.length = m.children.length)
    (h : ids.length = m.children.length) : (m.refill old).refill ids = m.refill ids := by
  simp only [children, List.length_append] at hold h
  have hpragmas : (old.take m.pragmas.length).length = m.pragmas.length := by
    rw [List.length_take]
    omega
  simp only [refill, hpragmas]
  rw [refillUsings_refillUsings _ _ _ (by rw [List.length_drop]; omega)]

end Module

/-- The content of a node. -/
inductive NodeKind where
  | module (m : Module)
  | decl (d : Decl)
  | expr (e : Expr)
deriving DecidableEq, Inhabited

namespace NodeKind

/-- The word that names the sort of the node. -/
def keyword : NodeKind → String
  | .module _ => "module"
  | .decl d => d.kind.keyword
  | .expr e => e.keyword

/-- The child slots in traversal order. -/
def children : NodeKind → List NodeId
  | .module m => m.children
  | .decl d => d.children
  | .expr e => e.children

/-- The node with other children, given in the order of `children` and as many. -/
def refill : NodeKind → List NodeId → NodeKind
  | .module m, ids => .module (m.refill ids)
  | .decl d, ids => .decl (d.refill ids)
  | .expr e, ids => .expr (e.refill ids)

/-- Putting the children back changes nothing. -/
@[simp] theorem refill_children (kind : NodeKind) : kind.refill kind.children = kind := by
  cases kind <;> simp [refill, children]

/-- The children are what was put into the slots. -/
theorem children_refill {kind : NodeKind} {ids : List NodeId}
    (h : ids.length = kind.children.length) : (kind.refill ids).children = ids := by
  cases kind with
  | module m => exact Module.children_refill h
  | decl d => exact Decl.children_refill h
  | expr e => exact Expr.children_refill h

/-- What was in the slots before does not count. -/
theorem refill_refill {kind : NodeKind} {old ids : List NodeId}
    (hold : old.length = kind.children.length) (h : ids.length = kind.children.length) :
    (kind.refill old).refill ids = kind.refill ids := by
  cases kind with
  | module m => exact congrArg NodeKind.module (Module.refill_refill hold h)
  | decl d => exact congrArg NodeKind.decl (Decl.refill_refill hold h)
  | expr e => exact congrArg NodeKind.expr (Expr.refill_refill old h)

/-! ### One slot -/

/-- The number of slots that an id can be written to. -/
def slotCount : NodeKind → Nat
  | .module m => m.slotCount
  | .decl d => d.slotCount
  | .expr e => e.slotCount

/-- There is one slot for each child. -/
theorem slotCount_eq (kind : NodeKind) : kind.slotCount = kind.children.length := by
  cases kind with
  | module m => exact m.slotCount_eq
  | decl d => exact d.slotCount_eq
  | expr e => exact e.slotCount_eq

/-- Writes an id to the slot with an index, which must exist. -/
def setSlot (kind : NodeKind) (slot : Nat) (id : NodeId) : Except Fault NodeKind :=
  if slot < kind.slotCount then .ok (kind.refill (kind.children.set slot id))
  else .error (.noSuchSlot kind.slotCount slot)

/-- The declaration, if the node is one. -/
def decl? : NodeKind → Option Decl
  | .decl d => some d
  | _ => none

/-- The expression, if the node is one. -/
def expr? : NodeKind → Option Expr
  | .expr e => some e
  | _ => none

end NodeKind

/-- A node: its content, its place in the source, and the node it hangs below. -/
structure Node where
  kind : NodeKind
  span : Span
  parent : Option NodeId := none
deriving DecidableEq, Inhabited

end StackTemplate
