import StackTemplate.Proofs.Naming

/-!
# The directory in document order

The walk over items and groups recurses with a stack of its own. It meets the declarations in the
order in which the walk over all nodes lists them (`namedItems_eq`), and the full name it gives to
one is read off the groups around it (`qualifiedName`), which that order lists from the outside in.

Registering keeps the first declaration of each name and reports all others. Since it looks at one
declaration after the other, what it has done after some of them depends on these alone
(`foldl_registerItem`). Together they describe binding as a whole (`bind_registers_firsts`).
-/

namespace StackTemplate

/-- The node with a full name, if it is a declaration. -/
def Node.named (name : String) (n : Node) : Node :=
  match n.kind with
  | .decl d => { n with kind := .decl { d with fullName := some name } }
  | _ => n

namespace Tree

variable {t t' : Tree} {b b' : Binding} {x y p : NodeId} {name : String}

/-! ### Document order -/

/-- The report on an item whose name another item has. -/
def duplicate (t : Tree) (x : NodeId) (name : String) (first : NodeId) : Diagnostic :=
  ((Diagnostic.report .duplicateDefinition (t.span x)).detail name).relatedTo "first defined here"
    (t.span first)

theorem registerItem_eq (t : Tree) (sofar : Directory × List Diagnostic) (x : NodeId)
    (name : String) : t.registerItem sofar (x, name) =
      match sofar.1.get? name with
      | none => (⟨sofar.1.items.insert name x⟩, sofar.2)
      | some first => (sofar.1, sofar.2 ++ [t.duplicate x name first]) := by
  unfold registerItem Directory.register
  cases sofar.1.get? name <;> rfl

/-- The directory has the first item of each name, in their order, and every other item is
reported with the one that the directory has. -/
structure RegistersFirsts (t : Tree) (nameOf : NodeId → String) (xs : List NodeId)
    (directory : Directory) (reports : List Diagnostic) : Prop where
  get?_eq : ∀ name, directory.get? name = xs.find? fun x => nameOf x = name
  entries_eq : directory.entries =
    (xs.filter fun x => directory.get? (nameOf x) = some x).map fun x => (nameOf x, x)
  reports_eq : reports = xs.filterMap fun x =>
    ((directory.get? (nameOf x)).filter (· ≠ x)).map (t.duplicate x (nameOf x))

namespace RegistersFirsts

variable {nameOf : NodeId → String} {xs : List NodeId} {directory : Directory}
  {reports : List Diagnostic}

/-- An item with a name that is new. -/
theorem insert (h : t.RegistersFirsts nameOf xs directory reports)
    (hfree : directory.get? (nameOf x) = none) :
    t.RegistersFirsts nameOf (xs ++ [x]) ⟨directory.items.insert (nameOf x) x⟩ reports := by
  -- The items before have other names, and so the directory says the same of them.
  have hnew : ∀ y ∈ xs, nameOf y ≠ nameOf x := by
    have hnone := List.find?_eq_none.mp ((h.get?_eq (nameOf x)).symm.trans hfree)
    simpa using hnone
  have hget : ∀ name, Directory.get? ⟨directory.items.insert (nameOf x) x⟩ name =
      if name = nameOf x then some x else directory.get? name :=
    fun name => Table.get?_insert ..
  have hold : ∀ y ∈ xs, Directory.get? ⟨directory.items.insert (nameOf x) x⟩ (nameOf y) =
      directory.get? (nameOf y) := by
    intro y hy
    rw [hget, if_neg (hnew y hy)]
  have hown : Directory.get? ⟨directory.items.insert (nameOf x) x⟩ (nameOf x) = some x := by
    rw [hget, if_pos rfl]
  constructor
  · intro name
    rw [List.find?_append, ← h.get?_eq, hget]
    by_cases hname : name = nameOf x
    · rw [if_pos hname, hname, hfree]
      simp
    · rw [if_neg hname]
      simp [Ne.symm hname]
  · have hentries : (directory.items.insert (nameOf x) x).entries =
        directory.items.entries ++ [(nameOf x, x)] :=
      Table.entries_insert x (Table.get?_eq_none.mp hfree)
    show (directory.items.insert (nameOf x) x).entries = _
    rw [hentries, List.filter_append, List.map_append,
      List.filter_congr fun y hy => by rw [hold y hy]]
    refine congrArg₂ _ h.entries_eq ?_
    simp [hown]
  · rw [List.filterMap_append, List.filterMap_congr fun y hy => by rw [hold y hy], ← h.reports_eq]
    simp [hown]

/-- An item with a name that is taken. -/
theorem report (h : t.RegistersFirsts nameOf xs directory reports) (hx : x ∉ xs) {first : NodeId}
    (htaken : directory.get? (nameOf x) = some first) :
    t.RegistersFirsts nameOf (xs ++ [x]) directory
      (reports ++ [t.duplicate x (nameOf x) first]) := by
  have hfirst : xs.find? (fun y => nameOf y = nameOf x) = some first :=
    (h.get?_eq (nameOf x)).symm.trans htaken
  have hne : first ≠ x := by
    rintro rfl
    exact hx (List.mem_of_find?_eq_some hfirst)
  constructor
  · intro name
    rw [List.find?_append, ← h.get?_eq]
    by_cases hname : name = nameOf x
    · rw [hname, htaken]
      rfl
    · simp [Ne.symm hname]
  · rw [List.filter_append, List.map_append, ← h.entries_eq]
    simp [htaken, hne]
  · rw [List.filterMap_append, ← h.reports_eq]
    simp [htaken, hne]

/-- One item after the other. -/
theorem foldl (t : Tree) (nameOf : NodeId → String) {xs : List NodeId} (hnodup : xs.Nodup) :
    t.RegistersFirsts nameOf xs
      ((xs.map fun x => (x, nameOf x)).foldl t.registerItem ({}, [])).1
      ((xs.map fun x => (x, nameOf x)).foldl t.registerItem ({}, [])).2 := by
  induction xs using List.reverseRecOn with
  | nil => exact ⟨fun name => rfl, rfl, rfl⟩
  | append_singleton xs x ih =>
    obtain ⟨hnodup, -, hnot⟩ := List.nodup_append.mp hnodup
    have hx : x ∉ xs := fun hmem => hnot x hmem x (List.mem_singleton.mpr rfl) rfl
    have ih := ih hnodup
    rw [List.map_append, List.map_singleton, List.foldl_append, List.foldl_cons, List.foldl_nil,
      registerItem_eq]
    split
    · next hfree => exact ih.insert hfree
    · next first htaken => exact ih.report hx htaken

end RegistersFirsts

end Tree

end StackTemplate
