import StackTemplate.Fold.Reduct
import StackTemplate.Proofs.Tree.Rewiring

/-!
# What names stand for

Folding looks three things up by name: the expression that an item is an alias of, the value of a
condition and the value of a mapping. Each is a field of the item's declaration (`IsField`), so it
is an expression within reach, and a pass that changes what slots hold changes it in the same way
(`declared?_rewired`).
-/

namespace StackTemplate

/-- The directory lists declarations within reach. -/
def Bound (t : Tree) (directory : Directory) : Prop :=
  ∀ name id, directory.get? name = some id → t.Reaches t.root id ∧ (t.decl? id).isSome

theorem Bound.ofEntries {t : Tree} {directory : Directory}
    (h : ∀ entry ∈ directory.entries,
      t.Reaches t.root entry.2 ∧ (t.decl? entry.2).isSome) : Bound t directory :=
  fun name id hid => h (name, id) (Table.get?_eq_some.mp hid)

/-- The value of a condition. -/
def Decl.conditionValue? (d : Decl) : Option NodeId :=
  match d.kind with
  | .condition value => some value
  | _ => none

/-- The value of a mapping. -/
def Decl.mappingValue? (d : Decl) : Option NodeId :=
  match d.kind with
  | .mapping value => some value
  | _ => none

/-- A choice of an expression field. -/
structure IsField (field : Decl → Option NodeId) : Prop where
  mem : ∀ d id, field d = some id → id ∈ d.kind.fields ++ d.reference.toList
  mapSlots : ∀ f d, field (d.mapSlots f) = (field d).map f

theorem isField_aliasSource? : IsField Decl.aliasSource? where
  mem d id h := by
    obtain ⟨localName, fullName, kind, reference, out, back⟩ := d
    cases reference with
    | some e =>
      obtain rfl : e = id := Option.some.inj h
      simp
    | none => cases kind <;> simp_all [Decl.aliasSource?, DeclKind.fields]
  mapSlots := Decl.aliasSource?_mapSlots

theorem isField_conditionValue? : IsField Decl.conditionValue? where
  mem d id h := by
    unfold Decl.conditionValue? at h
    split at h
    · next value hkind =>
      rw [hkind, Option.some.inj h]
      simp [DeclKind.fields]
    · cases h
  mapSlots f d := by
    obtain ⟨localName, fullName, kind, reference, out, back⟩ := d
    cases kind <;> rfl

theorem isField_mappingValue? : IsField Decl.mappingValue? where
  mem d id h := by
    unfold Decl.mappingValue? at h
    split at h
    · next value hkind =>
      rw [hkind, Option.some.inj h]
      simp [DeclKind.fields]
    · cases h
  mapSlots f d := by
    obtain ⟨localName, fullName, kind, reference, out, back⟩ := d
    cases kind <;> rfl

namespace Fold

open StackTemplate.Tree

variable {t t' : Tree} {directory : Directory} {field : Decl → Option NodeId} {name : String}
  {id : NodeId} {f : NodeId → NodeId}

/-- The field of the declaration of a name. -/
def declared? (t : Tree) (directory : Directory) (field : Decl → Option NodeId) (name : String) :
    Option NodeId :=
  ((directory.get? name).bind t.decl?).bind field

/-- A field of a declaration is an expression within reach. -/
theorem expr_of_declared? (hwf : t.WellFormed) (hbound : Bound t directory)
    (hfield : IsField field) (h : declared? t directory field name = some id) :
    t.Reaches t.root id ∧ (t.expr? id).isSome := by
  obtain ⟨d, hd, hid⟩ := Option.bind_eq_some_iff.mp h
  obtain ⟨owner, howner, hdecl⟩ := Option.bind_eq_some_iff.mp hd
  have hreach := (hbound name owner howner).1
  have hslot : id ∈ t.exprSlots owner := by
    rw [exprSlots, decl?_eq_some.mp hdecl]
    exact hfield.mem d id hid
  exact ⟨hreach.tail (mem_children.mpr (.inl hslot)), hwf.expr_slot owner id hreach hslot⟩

/-- Declarations stay where they are, so the directory stays right. -/
theorem bound_rewired (h : Bound t directory) (hrewired : Rewired t t' f) :
    Bound t' directory := by
  intro name id hid
  exact (hrewired.declares id).mpr (h name id hid)

/-- A pass changes what names stand for as it changes the slots that hold it. -/
theorem declared?_rewired (hbound : Bound t directory) (hfield : IsField field)
    (hrewired : Rewired t t' f) (name : String) :
    declared? t' directory field name = (declared? t directory field name).map f := by
  unfold declared?
  cases hid : directory.get? name with
  | none => rfl
  | some id =>
    obtain ⟨hreach, hdecl⟩ := hbound name id hid
    obtain ⟨d, hd⟩ := Option.isSome_iff_exists.mp hdecl
    rw [Option.bind_some, Option.bind_some, hrewired.decl?_host hreach (expr?_of_decl? hd), hd]
    exact hfield.mapSlots f d

/-! ### Look-ups of a fold -/

theorem substitutionSource?_eq (t : Tree) (directory : Directory) (name : String) :
    substitutionSource? t directory name =
      (declared? t directory Decl.aliasSource? name).bind fun source =>
        if t.expr? source = some (.ref name) then none else some source := by
  rw [substitutionSource?, declared?]
  cases ((directory.get? name).bind t.decl?).bind Decl.aliasSource? <;> rfl

theorem reduct?_conditionRef (t : Tree) (directory : Directory) (cyclic : List String)
    (name : String) :
    reduct? t directory cyclic (.conditionRef name) =
      (declared? t directory Decl.conditionValue? name).bind fun value =>
        (t.bool? value).map fun _ => .copied value := by
  rw [reduct?, declared?]
  cases (directory.get? name).bind t.decl? with
  | none => rfl
  | some d =>
    obtain ⟨localName, fullName, kind, reference, out, back⟩ := d
    cases kind <;> rfl

theorem findInMap?_eq (t : Tree) (directory : Directory) (mapName : String)
    (topKey secondKey : NodeId) :
    findInMap? t directory mapName topKey secondKey =
      (t.literal? topKey).bind fun top => (t.literal? secondKey).bind fun second =>
        (declared? t directory Decl.mappingValue? mapName).bind fun value =>
          (objectField? t value top.value.toText).bind fun level =>
            (objectField? t level second.value.toText).bind fun found =>
              if isLiteralTree t found then some found else none := by
  rw [findInMap?, declared?]
  cases t.literal? topKey with
  | none => rfl
  | some top =>
    cases t.literal? secondKey with
    | none => rfl
    | some second =>
      cases (directory.get? mapName).bind t.decl? with
      | none => rfl
      | some d =>
        obtain ⟨localName, fullName, kind, reference, out, back⟩ := d
        cases kind <;> rfl

end Fold

end StackTemplate
