import StackTemplate.Proofs.Resolution.Finalizing

/-!
# The list of dependencies in the properties

The `if` expressions of the finalizer go to the end of a list under `DependsOn` in its properties.
Properties that are no object give way to an object without fields, and a value under `DependsOn`
that is no list becomes the first value of a new list. Whichever of this happens, the
object that the finalizer ends up with has the fields that were there before, and the list has the
entries that were there before (`Appended`). All other nodes stay what they are.
-/

namespace StackTemplate.Finalizer

open StackTemplate.Tree

variable {g g' : Tree} {finalizer : NodeId} {d : Decl} {resource : ResourceItem} {n m : Nat}
  {ys : List NodeId}

/-- The fields of a resource's properties, if these are an object. -/
def propertyFields (g : Tree) (resource : ResourceItem) : Table NodeId :=
  match resource.properties.bind g.expr? with
  | some (.object fields) => fields
  | _ => .empty

/-- What a field holds: the values of a list, or the one expression that stands there. -/
def entriesUnder (g : Tree) : Option NodeId → List NodeId
  | none => []
  | some id =>
    match g.expr? id with
    | some (.list values) => values
    | _ => [id]

/-- The expressions under `DependsOn` in a resource's properties. -/
def dependsOnEntries (g : Tree) (resource : ResourceItem) : List NodeId :=
  entriesUnder g ((propertyFields g resource).get? dependsOnKey)

theorem propertyFields_of_object {id : NodeId} {fields : Table NodeId}
    (hid : resource.properties = some id) (hobject : g.expr? id = some (.object fields)) :
    propertyFields g resource = fields := by
  rw [propertyFields, hid, Option.bind_some, hobject]

theorem propertyFields_of_other
    (h : ∀ id fields, resource.properties = some id → g.expr? id ≠ some (.object fields)) :
    propertyFields g resource = .empty := by
  unfold propertyFields
  split
  · next fields hobject =>
    obtain ⟨id, hid, hobject⟩ := Option.bind_eq_some_iff.mp hobject
    exact absurd hobject (h id fields hid)
  · rfl

theorem entriesUnder_of_other {field : Option NodeId}
    (h : ∀ id values, field = some id → g.expr? id ≠ some (.list values)) :
    entriesUnder g field = field.toList := by
  cases field with
  | none => rfl
  | some id =>
    rw [entriesUnder]
    split
    · next values hlist => exact absurd hlist (h id values rfl)
    · rfl

theorem entriesUnder_congr {field : Option NodeId}
    (h : ∀ id, field = some id → g'.expr? id = g.expr? id) :
    entriesUnder g' field = entriesUnder g field := by
  cases field with
  | none => rfl
  | some id => rw [entriesUnder, entriesUnder, h id rfl]

/-! ### The object and the list -/

/-- The finalizer has an object of properties, with the fields that were there before. -/
structure Opened (finalizer : NodeId) (d : Decl) (resource : ResourceItem) (g : Tree)
    (object : NodeId) (g' : Tree) : Prop where
  decl : g'.decl? finalizer = some (setProperties object d)
  object_expr : g'.expr? object = some (.object (propertyFields g resource))
  old_or_new : (resource.properties = some object ∧
      g.expr? object = some (.object (propertyFields g resource))) ∨
    g.size ≤ object ∧
      ∀ id fields, resource.properties = some id → g.expr? id ≠ some (.object fields)
  size_le : g.size ≤ g'.size
  kind_eq : ∀ z, z < g.size → z ≠ finalizer → g'.kind? z = g.kind? z
  span_eq : ∀ z, z < g.size → g'.span z = g.span z
  parent_eq : ∀ z, z < g.size → g'.parent? z = g.parent? z

theorem setProperties_self {id : NodeId} (hresource : d.kind = .resource resource)
    (hid : resource.properties = some id) : setProperties id d = d := by
  obtain ⟨localName, fullName, kind, reference, out, back⟩ := d
  subst hresource
  rw [setProperties_of_resource rfl, ← hid]

theorem ensureProperties_opened (hwf : g.WellFormed) (hx : g.Reaches g.root finalizer)
    (hd : g.decl? finalizer = some d) (hresource : d.kind = .resource resource) :
    Opened finalizer d resource g (ensureProperties g finalizer).1
      (ensureProperties g finalizer).2 := by
  have hlt := hwf.lt_size hx
  rcases ensureProperties_cases hd hresource with ⟨id, fields, heq, hid, hobject⟩ | ⟨hother, heq⟩
  · rw [heq]
    have hfields := propertyFields_of_object hid hobject
    rw [← hfields] at hobject
    exact ⟨by rw [setProperties_self hresource hid, hd], hobject, .inl ⟨hid, hobject⟩,
      Nat.le_refl _, fun _ _ _ => rfl, fun _ _ => rfl, fun _ _ => rfl⟩
  · rw [heq]
    have hkind := Tree.kind?_hang (.decl (setProperties g.size d)) (g.span finalizer)
      (.object .empty) hlt
    refine ⟨?_, ?_, .inr ⟨Nat.le_refl _, hother⟩, ?_, fun z hz hne => ?_,
      fun z hz => span_hang _ _ _ _ hz, fun z hz => ?_⟩
    · rw [decl?_eq_some, hkind, if_pos rfl]
    · rw [expr?_eq_some, hkind, if_neg (Nat.ne_of_gt hlt), if_pos rfl,
        propertyFields_of_other hother]
    · rw [size_hang]
      exact Nat.le_succ _
    · rw [hkind, if_neg hne, if_neg (Nat.ne_of_lt hz)]
    · have hnone : ∀ c, c ∉ (Expr.object .empty).children := fun c => List.not_mem_nil
      rw [parent?_hang _ _ _ (fun c hc => absurd hc (hnone c)), if_neg (Nat.ne_of_lt hz),
        if_neg (hnone z)]

/-- The object has a list under `DependsOn`, with the entries that were there before. -/
structure Listed (object : NodeId) (fields : Table NodeId) (g : Tree) (list : NodeId) (g' : Tree) :
    Prop where
  object_expr : g'.expr? object = some (.object (fields.insert dependsOnKey list))
  list_expr : g'.expr? list = some (.list (entriesUnder g (fields.get? dependsOnKey)))
  old_or_new : (fields.get? dependsOnKey = some list ∧
      g.expr? list = some (.list (entriesUnder g (fields.get? dependsOnKey)))) ∨
    g.size ≤ list ∧
      ∀ id values, fields.get? dependsOnKey = some id → g.expr? id ≠ some (.list values)
  size_le : g.size ≤ g'.size
  kind_eq : ∀ z, z < g.size → z ≠ object → g'.kind? z = g.kind? z
  span_eq : ∀ z, z < g.size → g'.span z = g.span z
  parent_eq : ∀ z, z < g.size → fields.get? dependsOnKey ≠ some z → g'.parent? z = g.parent? z

theorem ensureList_listed {object : NodeId} {fields : Table NodeId} {found : NodeId × Tree}
    (span : Span) (hwf : g.WellFormed) (hx : g.Reaches g.root object)
    (hobject : g.expr? object = some (.object fields))
    (h : ensureList g span object = .ok found) : Listed object fields g found.1 found.2 := by
  have hlt := hwf.lt_size hx
  rcases ensureList_cases span hwf hx hobject with ⟨id, values, heq, hid, hlist⟩ | ⟨hother, heq⟩
  · rw [heq] at h
    obtain rfl := Except.ok.inj h
    have hentries : entriesUnder g (fields.get? dependsOnKey) = values := by
      rw [hid, entriesUnder, hlist]
    rw [← hentries] at hlist
    exact ⟨by rw [Table.insert_of_get? hid, hobject], hlist, .inl ⟨hid, hlist⟩, Nat.le_refl _,
      fun _ _ _ => rfl, fun _ _ => rfl, fun _ _ _ => rfl⟩
  · rw [heq] at h
    obtain rfl := Except.ok.inj h
    -- The new list is at the next free node, and takes over the old value.
    have hkind := Tree.kind?_hang (.expr (.object (fields.insert dependsOnKey g.size))) span
      (.list (fields.get? dependsOnKey).toList) hlt
    have hchild : ∀ c ∈ (Expr.list (fields.get? dependsOnKey).toList).children, c < g.size := by
      intro c hc
      refine hwf.lt_size (hx.tail ?_)
      rw [children_of_expr? hobject]
      exact mem_values_of_get? hc
    refine ⟨?_, ?_, .inr ⟨Nat.le_refl _, hother⟩, ?_, fun z hz hne => ?_,
      fun z hz => span_hang _ _ _ _ hz, fun z hz hne => ?_⟩
    · rw [expr?_eq_some, hkind, if_pos rfl]
    · rw [expr?_eq_some, hkind, if_neg (Nat.ne_of_gt hlt), if_pos rfl,
        entriesUnder_of_other hother]
    · rw [size_hang]
      exact Nat.le_succ _
    · rw [hkind, if_neg hne, if_neg (Nat.ne_of_lt hz)]
    · rw [parent?_hang _ _ _ hchild, if_neg (Nat.ne_of_lt hz), if_neg]
      exact fun hc => hne (Option.mem_toList.mp hc)

/-! ### Appending -/

theorem span_appendItems (g : Tree) (list : NodeId) (ys : List NodeId) (z : NodeId) :
    (appendItems g list ys).span z = g.span z := by
  unfold appendItems
  split
  · exact ((foldl_link list ys _).2.2.2.1 z).trans (span_setKind _)
  · rfl

theorem parent?_appendItems {z : NodeId} (list : NodeId) (hz : z ∉ ys) :
    (appendItems g list ys).parent? z = g.parent? z := by
  unfold appendItems
  split
  · refine ((foldl_link list ys _).2.2.2.2 z).trans ?_
    rw [if_neg fun h => hz h.1]
    exact parent?_setKind _
  · rfl

/-- The finalizer has an object of properties with a list under `DependsOn`. The object
has the fields that were there before, and the list has the entries that were there before and
then the items. -/
structure Appended (finalizer : NodeId) (d : Decl) (resource : ResourceItem) (ys : List NodeId)
    (g g' : Tree) (object list : NodeId) : Prop where
  decl : g'.decl? finalizer = some (setProperties object d)
  object_expr : g'.expr? object =
    some (.object ((propertyFields g resource).insert dependsOnKey list))
  list_expr : g'.expr? list = some (.list (dependsOnEntries g resource ++ ys))
  object_old_or_new : (resource.properties = some object ∧
      g.expr? object = some (.object (propertyFields g resource))) ∨
    g.size ≤ object ∧
      ∀ id fields, resource.properties = some id → g.expr? id ≠ some (.object fields)
  list_old_or_new : ((propertyFields g resource).get? dependsOnKey = some list ∧
      g.expr? list = some (.list (dependsOnEntries g resource))) ∨
    g.size ≤ list ∧ dependsOnEntries g resource =
      ((propertyFields g resource).get? dependsOnKey).toList
  kind_eq : ∀ z, z < g.size → z ≠ finalizer → z ≠ object → z ≠ list → g'.kind? z = g.kind? z
  span_eq : ∀ z, z < g.size → g'.span z = g.span z
  parent_eq : ∀ z, z < g.size → z ∉ ys →
    (propertyFields g resource).get? dependsOnKey ≠ some z → g'.parent? z = g.parent? z

/-- What the fields of the properties hold is in the tree. -/
theorem reaches_of_propertyFields {key : String} {c : NodeId} (hx : g.Reaches g.root finalizer)
    (hd : g.decl? finalizer = some d) (hresource : d.kind = .resource resource)
    (hc : (propertyFields g resource).get? key = some c) :
    ∃ object fields, resource.properties = some object ∧ g.Reaches g.root object ∧
      g.expr? object = some (.object fields) ∧ c ∈ g.children object := by
  unfold propertyFields at hc
  split at hc
  · next fields hobject =>
    obtain ⟨object, hid, hobject⟩ := Option.bind_eq_some_iff.mp hobject
    refine ⟨object, fields, hid, hx.tail ?_, hobject, ?_⟩
    · exact mem_children.mpr (.inl (mem_exprSlots_of_fields hd
        (mem_fields_of_properties hresource hid)))
    · rw [children_of_expr? hobject]
      exact mem_values_of_get? (Option.mem_toList.mpr hc)
  · cases hc

theorem appendDependsOn_appended (hwf : g.WellFormed) (hspare : Spare n m ys g)
    (hx : g.Reaches g.root finalizer) (hd : g.decl? finalizer = some d)
    (hresource : d.kind = .resource resource) (hne : ys ≠ [])
    (h : appendDependsOn g finalizer ys = .ok g') :
    ∃ object list, Appended finalizer d resource ys g g' object list := by
  have hopened := ensureProperties_opened hwf hx hd hresource
  obtain ⟨hadapts, hobject_reaches, -⟩ := ensureProperties_spec hwf hspare hx hd hresource
  rw [appendDependsOn, if_neg (mt List.isEmpty_iff.mp hne)] at h
  generalize ensureProperties g finalizer = first at *
  obtain ⟨found, hfound, -⟩ := ensureList_spec (g.span finalizer) hadapts.wellFormed hadapts.spare
    hobject_reaches hopened.object_expr
  have hlisted := ensureList_listed _ hadapts.wellFormed hobject_reaches hopened.object_expr hfound
  simp only [hfound] at h
  obtain rfl := Except.ok.inj h
  -- The finalizer, the object and the list are three nodes, since they are of different kinds.
  have hobject_ne : first.1 ≠ finalizer := by
    intro heq
    have hexpr := hopened.object_expr
    rw [heq, expr?_of_decl? hopened.decl] at hexpr
    cases hexpr
  have hdecl : found.2.decl? finalizer = some (setProperties first.1 d) := by
    rw [decl?_congr (hlisted.kind_eq finalizer (lt_size_of_decl? hopened.decl) hobject_ne.symm),
      hopened.decl]
  have hlist_ne : found.1 ≠ finalizer := by
    intro heq
    have hexpr := hlisted.list_expr
    rw [heq, expr?_of_decl? hdecl] at hexpr
    cases hexpr
  have hlist_ne' : found.1 ≠ first.1 := by
    intro heq
    have hexpr := hlisted.list_expr
    rw [heq, hlisted.object_expr] at hexpr
    cases hexpr
  -- Making the object does not touch what is under `DependsOn`.
  have hfield : ∀ id, (propertyFields g resource).get? dependsOnKey = some id →
      first.2.expr? id = g.expr? id := by
    intro id hid
    obtain ⟨object, fields, -, hobject, hexpr, hchild⟩ :=
      reaches_of_propertyFields hx hd hresource hid
    refine expr?_congr (hopened.kind_eq id (hwf.lt_size (hobject.tail hchild)) ?_)
    rintro rfl
    have hsome := hwf.expr_of_child hobject (Option.isSome_of_eq_some hexpr) hchild
    rw [expr?_of_decl? hd] at hsome
    cases hsome
  have hentries : entriesUnder first.2 ((propertyFields g resource).get? dependsOnKey) =
      dependsOnEntries g resource := entriesUnder_congr hfield
  have hkind := kind?_appendItems (hentries ▸ hlisted.list_expr) ys
  refine ⟨first.1, found.1, ?_, ?_, ?_, hopened.old_or_new, ?_, fun z hz h₁ h₂ h₃ => ?_,
    fun z hz => ?_, fun z hz h₁ h₂ => ?_⟩
  · rw [decl?_eq_some, hkind, if_neg hlist_ne.symm, decl?_eq_some.mp hdecl]
  · rw [expr?_eq_some, hkind, if_neg hlist_ne'.symm, expr?_eq_some.mp hlisted.object_expr]
  · rw [expr?_eq_some, hkind, if_pos rfl]
  · rcases hlisted.old_or_new with ⟨hid, hlist⟩ | ⟨hsize, hother⟩
    · exact .inl ⟨hid, by rw [← hfield _ hid, hlist, hentries]⟩
    · refine .inr ⟨Nat.le_trans hopened.size_le hsize, ?_⟩
      rw [← hentries, entriesUnder_of_other hother]
  · have hz' := Nat.lt_of_lt_of_le hz hopened.size_le
    rw [hkind, if_neg h₃, hlisted.kind_eq z hz' h₂, hopened.kind_eq z hz h₁]
  · have hz' := Nat.lt_of_lt_of_le hz hopened.size_le
    rw [span_appendItems, hlisted.span_eq z hz', hopened.span_eq z hz]
  · have hz' := Nat.lt_of_lt_of_le hz hopened.size_le
    rw [parent?_appendItems _ h₁, hlisted.parent_eq z hz' h₂, hopened.parent_eq z hz]

section Appended

variable {object list : NodeId} (h : Appended finalizer d resource ys g g' object list)
  (hx : g.Reaches g.root finalizer) (hd : g.decl? finalizer = some d)
  (hresource : d.kind = .resource resource)

include h

/-- The entries in the end. -/
theorem Appended.dependsOnEntries_eq :
    dependsOnEntries g' { resource with properties := some object } =
      dependsOnEntries g resource ++ ys := by
  have hfields : propertyFields g' { resource with properties := some object } =
      (propertyFields g resource).insert dependsOnKey list :=
    propertyFields_of_object rfl h.object_expr
  rw [dependsOnEntries, hfields, Table.get?_insert, if_pos rfl, entriesUnder, h.list_expr]

include hx hd hresource

/-- The object and the list are nodes of the tree, or new. -/
theorem Appended.reaches_or_new :
    (g.Reaches g.root object ∨ g.size ≤ object) ∧ (g.Reaches g.root list ∨ g.size ≤ list) := by
  refine ⟨h.object_old_or_new.imp (fun ⟨hid, _⟩ => ?_) And.left,
    h.list_old_or_new.imp (fun ⟨hid, _⟩ => ?_) And.left⟩
  · exact hx.tail (mem_children.mpr (.inl (mem_exprSlots_of_fields hd
      (mem_fields_of_properties hresource hid))))
  · obtain ⟨_, _, -, hobject, -, hchild⟩ := reaches_of_propertyFields hx hd hresource hid
    exact hobject.tail hchild

/-- What was beside the tree is not touched when it is hung in. -/
theorem Appended.sameBelow (hspare : Spare n m ys g) {y : NodeId} (hy : y ∈ ys) :
    SameBelow g g' y := by
  intro z hz
  have hin := hspare.reaches (hspare.top y hy).1 hz
  have hlt := Nat.lt_of_lt_of_le hin.2 hspare.le_size
  obtain ⟨hobject, hlist⟩ := h.reaches_or_new hx hd hresource
  have hne : ∀ x, g.Reaches g.root x ∨ g.size ≤ x → z ≠ x := by
    rintro x hx rfl
    rcases hx with hx | hx
    · exact hspare.outside z hx hin
    · exact Nat.not_lt.mpr hx hlt
  exact ⟨h.kind_eq z hlt (hne finalizer (.inl hx)) (hne object hobject) (hne list hlist),
    h.span_eq z hlt⟩

end Appended

/-! ### Wiring as a whole -/

/-- What is within reach stays so while expressions are made. -/
theorem Prepared.reaches {t s : Tree} {directory : Directory} {wired : List (NodeId × Dependency)}
    {z : NodeId} (h : Prepared directory finalizer d t s wired) (hwf : t.WellFormed)
    (hz : t.Reaches t.root z) : s.Reaches s.root z := by
  rw [h.sprouting.root_eq]
  exact (h.sprouting.reaches hwf .refl).mpr hz

/-- Wiring succeeds: it makes the `if` expressions beside the tree, and appends them if there are
any. -/
theorem analyze_stages {t : Tree} {directory : Directory} {finalizerName : String}
    {names : List String} {d₁ : Decl} (hwf : t.WellFormed) (hbound : Bound t directory)
    (hget : directory.get? finalizerName = some finalizer) (hd : t.decl? finalizer = some d)
    (hresource : d.kind = .resource resource)
    (hd₁ : (begun t directory finalizerName finalizer resource.dependsOn).decl? finalizer = some d₁)
    (hresource₁ : d₁.kind = .resource { resource with dependsOn := names }) :
    ∃ s wired back after,
      analyze t directory finalizerName =
        .ok (some (report t directory finalizer resource.dependsOn), after) ∧
      Prepared directory finalizer d₁ t s wired ∧
      s.decl? finalizer = some (d₁.extend (wired.map Prod.snd) back) ∧ after.WellFormed ∧
      after.root = s.root ∧
      (wired = [] ∧ after = s ∨ wired ≠ [] ∧ ∃ object list,
        Appended finalizer (d₁.extend (wired.map Prod.snd) back)
          { resource with dependsOn := names } (wired.map Prod.fst) s after object list) := by
  obtain ⟨hx, -⟩ := hbound finalizerName finalizer hget
  obtain ⟨after, happend, hwf', hkeeps⟩ :=
    exists_appended finalizerName resource.dependsOn hwf hbound hx hd hresource
  obtain ⟨wired, hitems, hprepared⟩ := conditionalItems_prepared hwf hbound hd₁
  obtain ⟨back, hback⟩ := hprepared.decl
  refine ⟨_, wired, back, after, ?_, hprepared, hback, hwf', hkeeps.root_eq, ?_⟩
  · rw [analyze_eq hget hd hresource, wire_eq, happend]
    rfl
  rw [hitems] at happend
  by_cases hne : wired = []
  · subst hne
    exact .inl ⟨rfl, (Except.ok.inj happend).symm⟩
  · have hx' := hprepared.reaches hwf hx
    exact .inr ⟨hne, appendDependsOn_appended (hprepared.sprouting.wellFormed hwf) hprepared.spare
      hx' hback hresource₁ (mt List.map_eq_nil_iff.mp hne) happend⟩

end StackTemplate.Finalizer
