import StackTemplate.Proofs.Resolution.Recording
import StackTemplate.Resolution.Finalizer

/-!
# Wiring the finalizer keeps the tree well formed

The new `if` expressions are made of copies, so they share nothing with the tree. Then they are hung
below the finalizer's properties in up to three changes of single nodes, each of which
is a graft: a new object of properties, a new list of dependencies, and new items in that list.
-/

namespace StackTemplate

theorem Decl.mem_fields_of_ifCondition? {d : Decl} {c : NodeId} (h : d.ifCondition? = some c) :
    c ∈ d.kind.fields := by
  unfold ifCondition? at h
  split at h
  · next r hkind =>
    rw [hkind, DeclKind.fields, h]
    simp
  · next f hkind =>
    rw [hkind, DeclKind.fields, h]
    simp
  · cases h

namespace Finalizer

open StackTemplate.Tree

variable {t s g g' g'' : Tree} {directory : Directory} {r : ConditionalResource}
  {finalizer : NodeId}

/-! ### The new expressions -/

/-- The resource is in the tree, and so is its condition. -/
structure Copyable (t : Tree) (r : ConditionalResource) : Prop where
  reaches : t.Reaches t.root r.id
  decl : (t.decl? r.id).isSome
  condition_reaches : t.Reaches t.root r.condition
  condition_expr : (t.expr? r.condition).isSome

theorem mem_conditionalResources :
    r ∈ conditionalResources t (otherResources t directory finalizer) ↔
      directory.get? r.name = some r.id ∧ r.id ≠ finalizer ∧
        ∃ d, t.decl? r.id = some d ∧ d.isResource = true ∧ d.ifCondition? = some r.condition ∧
          t.bool? r.condition = none := by
  obtain ⟨name, id, condition⟩ := r
  simp only [conditionalResources, otherResources, List.mem_filterMap, Directory.entries,
    Prod.exists]
  constructor
  · rintro ⟨name', id', d, ⟨name'', id'', hentry, hother⟩, hr⟩
    split at hother
    · cases hother
    next hne =>
    obtain ⟨d', hd', hother⟩ := Option.bind_eq_some_iff.mp hother
    split at hother
    rotate_left
    · cases hother
    next hresource =>
    obtain ⟨rfl, rfl, rfl⟩ : name'' = name' ∧ id'' = id' ∧ d' = d := by simpa using hother
    obtain ⟨condition', hcondition, hr⟩ := Option.bind_eq_some_iff.mp hr
    split at hr
    rotate_left
    · cases hr
    next hundecided =>
    obtain ⟨rfl, rfl, rfl⟩ : name'' = name ∧ id'' = id ∧ condition' = condition := by
      simpa using hr
    exact ⟨Table.get?_eq_some.mpr hentry, hne, d', hd', hresource, hcondition,
      Option.isNone_iff_eq_none.mp hundecided⟩
  · rintro ⟨hget, hne, d, hd, hresource, hcondition, hundecided⟩
    refine ⟨name, id, d, ⟨name, id, Table.get?_eq_some.mp hget, ?_⟩, ?_⟩
    · simp [hne, hd, hresource]
    · simp [hcondition, hundecided]

theorem copyable_of_mem (hwf : t.WellFormed) (hbound : Bound t directory)
    (hr : r ∈ conditionalResources t (otherResources t directory finalizer)) : Copyable t r := by
  obtain ⟨hget, -, d, hd, -, hcondition, -⟩ := mem_conditionalResources.mp hr
  obtain ⟨hreach, hdecl⟩ := hbound r.name r.id hget
  have hslot : r.condition ∈ t.exprSlots r.id := by
    rw [exprSlots, decl?_eq_some.mp hd]
    exact List.mem_append_left _ (Decl.mem_fields_of_ifCondition? hcondition)
  exact ⟨hreach, hdecl, hreach.tail (mem_children.mpr (.inl hslot)),
    hwf.expr_slot r.id r.condition hreach hslot⟩

theorem Copyable.sprout (hr : Copyable t r) (hwf : t.WellFormed) (h : Sprouting t s) :
    Copyable s r := by
  obtain ⟨d, hd⟩ := Option.isSome_iff_exists.mp hr.decl
  obtain ⟨d', hd', -⟩ := h.decl hd
  refine ⟨?_, Option.isSome_of_eq_some hd', ?_, ?_⟩
  · rw [h.root_eq, h.reaches hwf .refl]
    exact hr.reaches
  · rw [h.root_eq, h.reaches hwf .refl]
    exact hr.condition_reaches
  · rw [h.expr?_eq (hwf.lt_size hr.condition_reaches)]
    exact hr.condition_expr

theorem addReference_spec (hwf : t.WellFormed) (h : Sprouting t s) (hr : Copyable t r) :
    Grows s (addReference s r).2 (fun _ => False) ∧
      Sprout s (addReference s r).2 (addReference s r).1 ∧ AddsExprs s (addReference s r).2 := by
  unfold addReference
  split
  · next e he =>
    obtain ⟨d', hd', hreference⟩ := Option.bind_eq_some_iff.mp he
    obtain ⟨d, hd⟩ := Option.isSome_iff_exists.mp hr.decl
    obtain ⟨d'', hd'', hlabels⟩ := h.decl hd
    rw [hd'] at hd''
    obtain rfl := Option.some.inj hd''
    have hslot : e ∈ t.exprSlots r.id := by
      rw [exprSlots, decl?_eq_some.mp hd]
      refine List.mem_append_right _ ?_
      rw [← hlabels.reference_eq, hreference]
      exact List.mem_singleton.mpr rfl
    exact h.copy hwf (hr.reaches.tail (mem_children.mpr (.inl hslot)))
      (hwf.expr_slot r.id e hr.reaches hslot)
  · obtain ⟨hgrows, hsprout⟩ := Grows.leaf s (e := .ref r.name) (s.span r.id) rfl
    exact ⟨hgrows, hsprout, .add _ _ _⟩

/-- What a resource is referenced by: a copy of its reference expression, or a reference to its
name. -/
def References (s s' : Tree) (r : ConditionalResource) (reference : NodeId) : Prop :=
  (∃ e, (s.decl? r.id).bind Decl.reference = some e ∧ Mirrors s s' e reference) ∨
    (s.decl? r.id).bind Decl.reference = none ∧ s'.expr? reference = some (.ref r.name)

theorem References.keep {s₁ s₂ : Tree} {reference : NodeId} (h : References s s₁ r reference)
    (hkeeps : Keeps s₁ s₂) : References s s₂ r reference := by
  rcases h with ⟨e, he, hmirrors⟩ | ⟨hnone, href⟩
  · exact .inl ⟨e, he, hmirrors.keep hkeeps⟩
  · exact .inr ⟨hnone, hkeeps.expr?_eq href⟩

theorem addReference_references {s₁ : Tree} (hwf : s.WellFormed) (hr : Copyable s r)
    (hkeeps : Keeps s s₁) :
    References s (addReference s₁ r).2 r (addReference s₁ r).1 := by
  obtain ⟨d, hd⟩ := Option.isSome_iff_exists.mp hr.decl
  have heq : s₁.decl? r.id = s.decl? r.id :=
    decl?_congr (hkeeps.kind_eq r.id (lt_size_of_decl? hd))
  unfold addReference
  rw [heq]
  cases hreference : (s.decl? r.id).bind Decl.reference with
  | none => exact .inr ⟨hreference, expr?_addExpr ..⟩
  | some e =>
    have hslot : e ∈ s.exprSlots r.id := by
      rw [hd, Option.bind_some] at hreference
      rw [exprSlots, decl?_eq_some.mp hd]
      exact List.mem_append_right _ (Option.mem_toList.mpr hreference)
    have hgrounded := hwf.grounded_of_reaches (hr.reaches.tail (mem_children.mpr (.inl hslot)))
    exact .inl ⟨e, hreference, (copy_spec hgrounded hkeeps).2.2⟩

/-- The `if` expression for a resource: its condition, what it is referenced by, and no value. -/
def IsConditional (s s' : Tree) (r : ConditionalResource) (item : NodeId) : Prop :=
  ∃ condition reference noValue, s'.expr? item = some (.ifElse condition reference noValue) ∧
    Mirrors s s' r.condition condition ∧ References s s' r reference ∧
    s'.expr? noValue = some (.ref noValueName)

/-- What making new expressions over a tree gives: their tops hang below nothing, and nothing that
was there is touched. -/
structure Tops (t s s' : Tree) (ys : List NodeId) : Prop where
  sprouting : Sprouting t s'
  size_le : s.size ≤ s'.size
  parent_eq : ∀ z, z < s.size → s'.parent? z = s.parent? z
  nodup : ys.Nodup
  top : ∀ y ∈ ys, Sprout s s' y

/-- An `if` expression over operands made one after the other. -/
theorem Tops.ifElse {condition reference noValue : NodeId} {s₁ s₂ s₃ : Tree} (h : Sprouting t s)
    (hgrows₁ : Grows s s₁ fun _ => False) (hsprout₁ : Sprout s s₁ condition)
    (hadds₁ : AddsExprs s s₁) (hgrows₂ : Grows s₁ s₂ fun _ => False)
    (hsprout₂ : Sprout s₁ s₂ reference) (hadds₂ : AddsExprs s₁ s₂)
    (hgrows₃ : Grows s₂ s₃ fun _ => False) (hsprout₃ : Sprout s₂ s₃ noValue)
    (hadds₃ : AddsExprs s₂ s₃) (span : Span) :
    Tops t s (s₃.addExpr (.ifElse condition reference noValue) span).2
      [(s₃.addExpr (.ifElse condition reference noValue) span).1] := by
  have hlt₁ : condition < reference := Nat.lt_of_lt_of_le hsprout₁.lt_size hsprout₂.size_le
  have hlt₂ : reference < noValue := Nat.lt_of_lt_of_le hsprout₂.lt_size hsprout₃.size_le
  have hnodup : [condition, reference, noValue].Nodup := by
    have hne₁ := Nat.ne_of_lt hlt₁
    have hne₂ := Nat.ne_of_lt hlt₂
    have hne₃ := Nat.ne_of_lt (Nat.lt_trans hlt₁ hlt₂)
    simp [hne₁, hne₂, hne₃]
  have hchild : ∀ c ∈ [condition, reference, noValue], Sprout s s₃ c ∨ c < s.size ∧ False := by
    intro c hc
    left
    rcases List.mem_cons.mp hc with rfl | hc
    · exact (hsprout₁.keep hgrows₂).keep hgrows₃
    rcases List.mem_cons.mp hc with rfl | hc
    · exact (hsprout₂.later hgrows₁.size_le).keep hgrows₃
    · rw [List.mem_singleton.mp hc]
      exact hsprout₃.later (hgrows₁.comp hgrows₂).size_le
  obtain ⟨hgrows, hsprout⟩ := ((hgrows₁.comp hgrows₂).comp hgrows₃).cap
    (.expr (.ifElse condition reference noValue)) span hnodup hchild fun _ hc => hc.elim
  have hadds := ((hadds₁.trans hadds₂ hgrows₂.toKeeps).trans hadds₃ hgrows₃.toKeeps).trans
    (.add s₃ (.ifElse condition reference noValue) span) (.add _ _ _)
  refine ⟨h.grow hgrows hadds, hgrows.size_le, fun z hz => hgrows.parent_eq z hz id,
    List.nodup_singleton _, fun y hy => ?_⟩
  rw [List.mem_singleton.mp hy]
  exact hsprout

theorem Tops.relabel {s' s'' : Tree} {ys : List NodeId} (h : Tops t s s' ys)
    (hlabels : Relabelled s' s'') : Tops t s s'' ys where
  sprouting := h.sprouting.relabel hlabels
  size_le := Nat.le_trans h.size_le (Nat.le_of_eq hlabels.size_eq.symm)
  parent_eq z hz := (hlabels.parent_eq z).trans (h.parent_eq z hz)
  nodup := h.nodup
  top y hy := by
    obtain ⟨hle, hlt, hparent⟩ := h.top y hy
    exact ⟨hle, hlabels.size_eq ▸ hlt, (hlabels.parent_eq y).trans hparent⟩

/-- The edge to a resource, under the condition of the `if` expression for it. -/
def IsConditionalEdge (s : Tree) (r : ConditionalResource) (item : NodeId) (edge : Dependency) :
    Prop :=
  ∃ condition reference noValue, s.expr? item = some (.ifElse condition reference noValue) ∧
    edge = { target := r.name, guards := [s.guardFor condition], origin := reference }

theorem IsConditionalEdge.target_eq {item : NodeId} {edge : Dependency}
    (h : IsConditionalEdge s r item edge) : edge.target = r.name := by
  obtain ⟨_, _, _, -, rfl⟩ := h
  rfl

/-- The `if` expression over given operands comes with an edge. -/
theorem addConditional_eq (finalizer : NodeId) (finalizerName : String)
    {condition reference noValue item : NodeId × Tree} (hcondition : s.copy r.condition = condition)
    (hreference : addReference condition.2 r = reference)
    (hnoValue : reference.2.addExpr (.ref noValueName) (s.span r.id) = noValue)
    (hitem : noValue.2.addExpr (.ifElse condition.1 reference.1 noValue.1) (s.span r.id) = item) :
    ∃ edge, IsConditionalEdge item.2 r item.1 edge ∧ addConditional finalizer finalizerName r s =
      (item.1, item.2.recordEdge finalizer finalizerName r.id edge) := by
  subst hcondition hreference hnoValue hitem
  exact ⟨_, ⟨_, _, _, expr?_addExpr .., rfl⟩, rfl⟩

/-- The `if` expression for a resource is made beside the tree; then the edge is recorded. -/
theorem addConditional_grows (finalizer : NodeId) (finalizerName : String) (hwf : t.WellFormed)
    (h : Sprouting t s) (hr : Copyable t r) :
    ∃ (item : NodeId × Tree) (edge : Dependency), IsConditionalEdge item.2 r item.1 edge ∧
      addConditional finalizer finalizerName r s =
        (item.1, item.2.recordEdge finalizer finalizerName r.id edge) ∧
      Keeps s item.2 ∧ Tops t s item.2 [item.1] ∧ IsConditional s item.2 r item.1 := by
  have hwf' := h.wellFormed hwf
  have hr' := hr.sprout hwf h
  obtain ⟨hgrows₁, hsprout₁, hadds₁⟩ := h.copy hwf hr.condition_reaches hr.condition_expr
  have hmirrors := (copy_spec (hwf'.grounded_of_reaches hr'.condition_reaches) (.refl s)).2.2
  obtain ⟨hgrows₂, hsprout₂, hadds₂⟩ := addReference_spec hwf (h.grow hgrows₁ hadds₁) hr
  have hreferences := addReference_references hwf' hr' hgrows₁.toKeeps
  generalize hcondition : s.copy r.condition = condition at *
  generalize hreference : addReference condition.2 r = reference at *
  obtain ⟨hgrows₃, hsprout₃⟩ := Grows.leaf reference.2 (e := .ref noValueName) (s.span r.id) rfl
  have hadds₃ := AddsExprs.add reference.2 (.ref noValueName) (s.span r.id)
  have hnone := expr?_addExpr reference.2 (.ref noValueName) (s.span r.id)
  have hitem := Tops.ifElse h hgrows₁ hsprout₁ hadds₁ hgrows₂ hsprout₂ hadds₂ hgrows₃ hsprout₃
    hadds₃ (s.span r.id)
  obtain ⟨edge, hedge, heq⟩ :=
    addConditional_eq finalizer finalizerName hcondition hreference rfl rfl
  have hkeeps₄ : Keeps _ ((reference.2.add (.expr (.ref noValueName)) (s.span r.id)).2.add
    (.expr (.ifElse condition.1 reference.1 reference.2.size)) (s.span r.id)).2 := .add _ _ _
  refine ⟨_, edge, hedge, heq, ?_, hitem, condition.1, reference.1, reference.2.size, ?_, ?_, ?_,
    ?_⟩
  · exact ((hgrows₁.comp hgrows₂).comp hgrows₃).toKeeps.trans hkeeps₄
  · exact expr?_addExpr ..
  · exact hmirrors.keep ((hgrows₂.comp hgrows₃).toKeeps.trans hkeeps₄)
  · exact hreferences.keep (hgrows₃.toKeeps.trans hkeeps₄)
  · exact hkeeps₄.expr?_eq hnone

/-- The `if` expression for a resource. -/
theorem addConditional_spec (finalizer : NodeId) (finalizerName : String) (hwf : t.WellFormed)
    (h : Sprouting t s) (hr : Copyable t r) :
    Tops t s (addConditional finalizer finalizerName r s).2
      [(addConditional finalizer finalizerName r s).1] := by
  obtain ⟨item, edge, -, heq, -, htops, -⟩ := addConditional_grows finalizer finalizerName hwf h hr
  rw [heq]
  exact htops.relabel (recordEdge_relabelled item.2 finalizer finalizerName r.id edge)

/-- The `if` expressions for several resources. -/
theorem addEach_conditional (finalizer : NodeId) (finalizerName : String) (hwf : t.WellFormed)
    (rs : List ConditionalResource) (hrs : ∀ r ∈ rs, Copyable t r) (h : Sprouting t s) :
    Tops t s (addEach (addConditional finalizer finalizerName) rs s).2
      (addEach (addConditional finalizer finalizerName) rs s).1 := by
  induction rs generalizing s with
  | nil =>
    exact ⟨h, Nat.le_refl _, fun _ _ => rfl, List.nodup_nil, fun y hy => absurd hy List.not_mem_nil⟩
  | cons r rs ih =>
    have hfirst := addConditional_spec finalizer finalizerName hwf h (hrs r (List.mem_cons_self ..))
    have hrest := ih (fun r hr => hrs r (List.mem_cons_of_mem _ hr)) hfirst.sprouting
    have htop := hfirst.top _ (List.mem_singleton.mpr rfl)
    rw [addEach_cons]
    refine ⟨hrest.sprouting, Nat.le_trans hfirst.size_le hrest.size_le, fun z hz => ?_, ?_,
      fun y hy => ?_⟩
    · exact (hrest.parent_eq z (Nat.lt_of_lt_of_le hz hfirst.size_le)).trans
        (hfirst.parent_eq z hz)
    · refine List.nodup_cons.mpr ⟨fun hmem => ?_, hrest.nodup⟩
      exact Nat.not_le.mpr htop.lt_size (hrest.top _ hmem).size_le
    · rcases List.mem_cons.mp hy with rfl | hy
      · exact ⟨htop.size_le, Nat.lt_of_lt_of_le htop.lt_size hrest.size_le,
          (hrest.parent_eq _ htop.lt_size).trans htop.parent_eq⟩
      · exact (hrest.top y hy).later hfirst.size_le

/-! ### Changing the finalizer beside them -/

/-- The nodes from `n` up to `m` are expressions beside the tree, and nothing holds those
in `ys`. -/
structure Spare (n m : Nat) (ys : List NodeId) (g : Tree) : Prop where
  le_size : m ≤ g.size
  outside : ∀ z, g.Reaches g.root z → ¬ (n ≤ z ∧ z < m)
  expr : ∀ z, n ≤ z ∧ z < m → (g.expr? z).isSome
  nodup : ∀ z, n ≤ z ∧ z < m → (g.children z).Nodup
  child : ∀ z c, n ≤ z ∧ z < m → c ∈ g.children z → (n ≤ c ∧ c < m) ∧ g.parent? c = some z
  tops_nodup : ys.Nodup
  top : ∀ y ∈ ys, (n ≤ y ∧ y < m) ∧ g.parent? y = none

theorem Tops.spare {s' : Tree} {ys : List NodeId} (h : Tops t s s' ys) (hwf : t.WellFormed)
    (hle : t.size ≤ s.size) : Spare t.size s'.size ys s' where
  le_size := Nat.le_refl _
  outside z hz hin := by
    rw [h.sprouting.root_eq, h.sprouting.reaches hwf .refl] at hz
    exact Nat.not_lt.mpr hin.1 (hwf.lt_size hz)
  expr z hin := h.sprouting.expr z hin.1 hin.2
  nodup z hin := h.sprouting.nodup z hin.1
  child z c hin hc := by
    obtain ⟨hle, hlt, hparent⟩ := h.sprouting.child z c hin.1 hc
    exact ⟨⟨hle, Nat.lt_trans hlt hin.2⟩, hparent⟩
  tops_nodup := h.nodup
  top y hy := by
    obtain ⟨hle', hlt, hparent⟩ := h.top y hy
    exact ⟨⟨Nat.le_trans hle hle', hlt⟩, hparent⟩

variable {n m : Nat} {ys : List NodeId} {x : NodeId}

/-- A change of the tree that keeps it well formed and leaves alone what is beside it. -/
structure Adapts (n m : Nat) (ys : List NodeId) (g g' : Tree) : Prop where
  wellFormed : g'.WellFormed
  spare : Spare n m ys g'
  keepsItems : KeepsItems g g'

theorem Adapts.refl (hwf : g.WellFormed) (hspare : Spare n m ys g) : Adapts n m ys g g :=
  ⟨hwf, hspare, .refl g⟩

theorem Adapts.trans (h : Adapts n m ys g g') (h' : Adapts n m ys g' g'') : Adapts n m ys g g'' :=
  ⟨h'.wellFormed, h'.spare, h.keepsItems.trans h'.keepsItems⟩

/-- Hanging a new expression below a node of the tree. -/
theorem Adapts.hang {kind : NodeKind} {e : Expr} {span : Span} (hwf : g.WellFormed)
    (hspare : Spare n m ys g) (hx : g.Reaches g.root x) (hroot : x ≠ g.root)
    (hchild : ∀ c ∈ e.children, g.Reaches g.root c)
    (hgrafts : Grafts g (g.hang x kind e span) x (· = g.size)) :
    Adapts n m ys g (g.hang x kind e span) := by
  have hchild_lt : ∀ c ∈ e.children, c < g.size := fun c hc => hwf.lt_size (hchild c hc)
  have hne : ∀ z, n ≤ z ∧ z < m → z ≠ g.size := fun z hin =>
    Nat.ne_of_lt (Nat.lt_of_lt_of_le hin.2 hspare.le_size)
  -- The new expression takes over nodes within reach, and none of those that are spare.
  have hkind : ∀ z, n ≤ z ∧ z < m → (g.hang x kind e span).kind? z = g.kind? z := by
    intro z hin
    rw [kind?_hang kind span e (hwf.lt_size hx), if_neg, if_neg (hne z hin)]
    rintro rfl
    exact hspare.outside z hx hin
  have hparent : ∀ z, n ≤ z ∧ z < m → (g.hang x kind e span).parent? z = g.parent? z := by
    intro z hin
    rw [parent?_hang kind span x hchild_lt, if_neg (hne z hin), if_neg]
    exact fun hc => hspare.outside z (hchild z hc) hin
  refine ⟨hgrafts.wellFormed hwf hx hroot, ?_, hgrafts.keepsItems hwf hx hroot⟩
  refine
    { le_size := ?_, outside := fun z hz hin => ?_, expr := fun z hin => ?_,
      nodup := fun z hin => ?_, child := fun z c hin hc => ?_, tops_nodup := hspare.tops_nodup,
      top := fun y hy => ?_ }
  · rw [size_hang]
    exact Nat.le_succ_of_le hspare.le_size
  · rcases hgrafts.reaches_or hx hz with hz | hz
    · exact hspare.outside z hz hin
    · exact hne z hin hz
  · rw [expr?_congr (hkind z hin)]
    exact hspare.expr z hin
  · rw [children_congr (hkind z hin)]
    exact hspare.nodup z hin
  · rw [children_congr (hkind z hin)] at hc
    obtain ⟨hin', hparent'⟩ := hspare.child z c hin hc
    exact ⟨hin', (hparent c hin').trans hparent'⟩
  · obtain ⟨hin, hparent'⟩ := hspare.top y hy
    exact ⟨hin, (hparent y hin).trans hparent'⟩

/-- A changed tree, and a node of it with an expression of the form `P`. -/
structure Provides (n m : Nat) (ys : List NodeId) (g : Tree) (P : Expr → Prop)
    (found : NodeId × Tree) : Prop where
  adapts : Adapts n m ys g found.2
  reaches : found.2.Reaches found.2.root found.1
  expr : ∃ e, found.2.expr? found.1 = some e ∧ P e

theorem Provides.hang {kind : NodeKind} {e : Expr} {span : Span} {P : Expr → Prop}
    (hwf : g.WellFormed) (hspare : Spare n m ys g) (hx : g.Reaches g.root x) (hroot : x ≠ g.root)
    (hchild : ∀ c ∈ e.children, g.Reaches g.root c)
    (hgrafts : Grafts g (g.hang x kind e span) x (· = g.size)) (hmem : g.size ∈ kind.children)
    (he : P e) : Provides n m ys g P (g.size, g.hang x kind e span) where
  adapts := .hang hwf hspare hx hroot hchild hgrafts
  reaches := by
    have hkind : (g.hang x kind e span).kind? x = some kind := by
      rw [kind?_hang kind span e (hwf.lt_size hx), if_pos rfl]
    refine (hgrafts.reaches_node hwf hx).tail ?_
    rwa [children_of_kind? hkind]
  expr := by
    refine ⟨e, expr?_eq_some.mpr ?_, he⟩
    have hne := Nat.ne_of_gt (hwf.lt_size hx)
    rw [kind?_hang kind span e (hwf.lt_size hx), if_neg hne, if_pos rfl]

theorem children_of_resource {d : Decl} {resource : ResourceItem}
    (hresource : d.kind = .resource resource) :
    (NodeKind.decl d).exprSlots = resource.ifCondition.toList ++ resource.properties.toList ++
      resource.value.toList ++ d.reference.toList ∧ (NodeKind.decl d).itemSlots = [] := by
  rw [NodeKind.exprSlots, NodeKind.itemSlots, hresource]
  exact ⟨rfl, rfl⟩

theorem children_resource {x : NodeId} {d : Decl} {resource : ResourceItem}
    (hd : g.decl? x = some d) (hresource : d.kind = .resource resource) :
    g.children x = resource.ifCondition.toList ++ resource.properties.toList ++
      resource.value.toList ++ d.reference.toList := by
  obtain ⟨hslots, hitems⟩ := children_of_resource hresource
  rw [children_of_kind? (decl?_eq_some.mp hd), NodeKind.children_eq_append, hslots, hitems,
    List.append_nil]

theorem setProperties_of_resource {d : Decl} {resource : ResourceItem}
    (hresource : d.kind = .resource resource) (id : NodeId) :
    setProperties id d = { d with kind := .resource { resource with properties := some id } } := by
  rw [setProperties, hresource]

/-- An object without fields in place of the finalizer's properties. -/
theorem grafts_newProperties {d : Decl} {resource : ResourceItem} (span : Span)
    (hwf : g.WellFormed) (hx : g.Reaches g.root finalizer) (hd : g.decl? finalizer = some d)
    (hresource : d.kind = .resource resource) :
    Grafts g (g.hang finalizer (.decl (setProperties g.size d)) (.object .empty) span) finalizer
      (· = g.size) := by
  have hset := setProperties_of_resource hresource g.size
  obtain ⟨hslots, hitems⟩ := children_of_resource hresource
  have hkind : (setProperties g.size d).kind =
      .resource { resource with properties := some g.size } := by rw [hset]
  obtain ⟨hslots', hitems'⟩ := children_of_resource hkind
  have hreference : (setProperties g.size d).reference = d.reference := by rw [hset]
  rw [hreference] at hslots'
  have hchildren := children_resource hd hresource
  have hnodup := hwf.nodup hx
  have hlt : ∀ c ∈ g.children finalizer, c ≠ g.size := fun c hc =>
    Nat.ne_of_lt (hwf.lt_size (hx.tail hc))
  rw [hchildren] at hnodup hlt
  refine .hang span hwf hx (decl?_eq_some.mp hd) ?_ ?_ (hitems'.trans hitems.symm) ?_ ?_ ?_
    List.nodup_nil
  · exact Iff.rfl
  · intro d' hd'
    obtain rfl := NodeKind.decl.inj hd'
    exact ⟨_, rfl, by rw [hset], by rw [hset]⟩
  · rw [NodeKind.children_eq_append, hslots', hitems', List.append_nil]
    grind
  · intro c hc
    rw [hslots'] at hc
    rw [hslots]
    have hnil : c ∉ (Expr.object .empty).children := List.not_mem_nil
    grind
  · exact fun c hc => absurd hc List.not_mem_nil

/-- The finalizer's properties are an object already, or they are replaced by a new one. -/
theorem ensureProperties_cases {d : Decl} {resource : ResourceItem}
    (hd : g.decl? finalizer = some d) (hresource : d.kind = .resource resource) :
    (∃ id fields, ensureProperties g finalizer = (id, g) ∧ resource.properties = some id ∧
        g.expr? id = some (.object fields)) ∨
      (∀ id fields, resource.properties = some id → g.expr? id ≠ some (.object fields)) ∧
      ensureProperties g finalizer = (g.size,
        g.hang finalizer (.decl (setProperties g.size d)) (.object .empty) (g.span finalizer)) := by
  have hmake : ((g.addExpr (.object .empty) (g.span finalizer)).2.modifyDecl finalizer
      (setProperties g.size)).link finalizer g.size =
        g.hang finalizer (.decl (setProperties g.size d)) (.object .empty) (g.span finalizer) := by
    have hd' : (g.addExpr (.object .empty) (g.span finalizer)).2.decl? finalizer = some d := by
      rw [addExpr, decl?_congr (kind?_add_of_lt (lt_size_of_decl? hd)), hd]
    rw [modifyDecl, hd', Tree.hang]
  have hproperties : (g.decl? finalizer).bind properties? = resource.properties := by
    rw [hd, Option.bind_some, properties?, hresource]
  rw [← hmake, ensureProperties, hproperties]
  cases resource.properties with
  | none => exact .inr ⟨fun id _ hid => absurd hid.symm (Option.some_ne_none id), rfl⟩
  | some id =>
    dsimp only
    split
    · next fields hobject => exact .inl ⟨id, fields, rfl, rfl, hobject⟩
    · next hother =>
      refine .inr ⟨fun id' fields hid => ?_, rfl⟩
      obtain rfl := Option.some.inj hid
      exact hother fields

theorem ensureProperties_spec {d : Decl} {resource : ResourceItem} (hwf : g.WellFormed)
    (hspare : Spare n m ys g) (hx : g.Reaches g.root finalizer) (hd : g.decl? finalizer = some d)
    (hresource : d.kind = .resource resource) :
    Provides n m ys g (∃ fields, · = .object fields) (ensureProperties g finalizer) := by
  rcases ensureProperties_cases hd hresource with ⟨id, fields, heq, hid, hobject⟩ | ⟨-, heq⟩
  · rw [heq]
    refine ⟨.refl hwf hspare, hx.tail ?_, _, hobject, _, rfl⟩
    rw [children_of_decl? hd, Decl.children, hresource, DeclKind.fields, hid]
    simp
  · rw [heq]
    refine .hang hwf hspare hx (hwf.ne_root_of_decl? hd) ?_
      (grafts_newProperties _ hwf hx hd hresource) ?_ ⟨_, rfl⟩
    · exact fun c hc => absurd hc List.not_mem_nil
    · rw [NodeKind.children_eq_append, setProperties_of_resource hresource,
        (children_of_resource rfl).1]
      simp

theorem mem_values_of_get? {fields : Table NodeId} {key : String} {c : NodeId}
    (hc : c ∈ (fields.get? key).toList) : c ∈ fields.values :=
  List.mem_map.mpr ⟨(key, c), Table.get?_eq_some.mp (Option.mem_toList.mp hc), rfl⟩

/-- A list in place of the `DependsOn` property, which it holds. -/
theorem grafts_newList {object : NodeId} {fields : Table NodeId} (span : Span)
    (hwf : g.WellFormed) (hx : g.Reaches g.root object)
    (hobject : g.expr? object = some (.object fields)) :
    Grafts g (g.hang object (.expr (.object (fields.insert dependsOnKey g.size)))
      (.list (fields.get? dependsOnKey).toList) span) object (· = g.size) := by
  have hchildren : g.children object = fields.values := children_of_expr? hobject
  have hnodup := hwf.nodup hx
  have hlt : ∀ c ∈ g.children object, c ≠ g.size := fun c hc =>
    Nat.ne_of_lt (hwf.lt_size (hx.tail hc))
  rw [hchildren] at hnodup hlt
  refine .hang span hwf hx (expr?_eq_some.mp hobject) Iff.rfl ?_ rfl ?_ ?_
    (fun c hc => mem_values_of_get? hc) ?_
  · rintro d ⟨⟩
  · exact Table.nodup_values_insert hnodup fun hmem => hlt _ hmem rfl
  · intro c hc
    refine (Table.mem_values_insert hnodup hc).imp_right fun ⟨hmem, hget⟩ => ⟨hmem, fun hc => ?_⟩
    exact hget (Option.mem_toList.mp hc)
  · show (fields.get? dependsOnKey).toList.Nodup
    cases fields.get? dependsOnKey <;> simp

/-- The `DependsOn` property is a list already, or a new list takes its place. -/
theorem ensureList_cases {object : NodeId} {fields : Table NodeId} (span : Span)
    (hwf : g.WellFormed) (hx : g.Reaches g.root object)
    (hobject : g.expr? object = some (.object fields)) :
    (∃ id values, ensureList g span object = .ok (id, g) ∧ fields.get? dependsOnKey = some id ∧
        g.expr? id = some (.list values)) ∨
      (∀ id values, fields.get? dependsOnKey = some id → g.expr? id ≠ some (.list values)) ∧
      ensureList g span object = .ok (g.size,
        g.hang object (.expr (.object (fields.insert dependsOnKey g.size)))
          (.list (fields.get? dependsOnKey).toList) span) := by
  rw [ensureList, hobject]
  simp only
  cases hexisting : fields.get? dependsOnKey with
  | none => exact .inr ⟨fun id _ hid => absurd hid.symm (Option.some_ne_none id), rfl⟩
  | some id =>
    have hmem : id ∈ g.children object := by
      rw [children_of_expr? hobject]
      exact mem_values_of_get? (Option.mem_toList.mpr hexisting)
    have hexpr : (g.expr? id).isSome :=
      hwf.expr_of_child hx (Option.isSome_of_eq_some hobject) hmem
    obtain ⟨e, he⟩ := Option.isSome_iff_exists.mp hexpr
    simp only [expr_of_expr? he]
    by_cases hlist : ∃ values, e = .list values
    · obtain ⟨values, rfl⟩ := hlist
      exact .inl ⟨id, values, rfl, rfl, he⟩
    · refine .inr ⟨fun id' values hid hvalues => hlist ⟨values, ?_⟩, ?_⟩
      · obtain rfl := Option.some.inj hid
        exact Option.some.inj (he.symm.trans hvalues)
      · cases e with
        | list values => exact absurd ⟨values, rfl⟩ hlist
        | _ => rfl

theorem ensureList_spec {object : NodeId} {fields : Table NodeId} (span : Span)
    (hwf : g.WellFormed) (hspare : Spare n m ys g) (hx : g.Reaches g.root object)
    (hobject : g.expr? object = some (.object fields)) :
    ∃ found, ensureList g span object = .ok found ∧
      Provides n m ys g (∃ values, · = .list values) found := by
  have hchildren : g.children object = fields.values := children_of_expr? hobject
  rcases ensureList_cases span hwf hx hobject with ⟨id, values, heq, hid, hlist⟩ | ⟨-, heq⟩
  · refine ⟨_, heq, .refl hwf hspare, hx.tail ?_, _, hlist, values, rfl⟩
    rw [hchildren]
    exact mem_values_of_get? (Option.mem_toList.mpr hid)
  · refine ⟨_, heq, .hang hwf hspare hx (hwf.ne_root_of_expr? hobject) ?_
      (grafts_newList span hwf hx hobject) ?_ ⟨_, rfl⟩⟩
    · intro c hc
      refine hx.tail ?_
      rw [hchildren]
      exact mem_values_of_get? hc
    · exact List.mem_map.mpr ⟨_, Table.mem_insert fields dependsOnKey g.size, rfl⟩

theorem kind?_appendItems {list : NodeId} {values : List NodeId}
    (hlist : g.expr? list = some (.list values)) (ys : List NodeId) (z : NodeId) :
    (appendItems g list ys).kind? z =
      if z = list then some (.expr (.list (values ++ ys))) else g.kind? z := by
  rw [appendItems, hlist]
  refine ((foldl_link list ys _).2.2.1 z).trans ?_
  by_cases hz : z = list
  · rw [if_pos hz, hz, setExpr, kind?_setKind_self (lt_size_of_expr? hlist)]
  · rw [if_neg hz, setExpr, kind?_setKind_ne (Ne.symm hz)]

/-- What is beside the tree goes into a list of the tree. -/
theorem grafts_appendItems {list : NodeId} {values : List NodeId} (hwf : g.WellFormed)
    (hspare : Spare n m ys g) (hx : g.Reaches g.root list)
    (hlist : g.expr? list = some (.list values)) :
    Grafts g (appendItems g list ys) list fun z => n ≤ z ∧ z < m := by
  have heq : appendItems g list ys =
      ys.foldl (fun t item => t.link list item) (g.setExpr list (.list (values ++ ys))) := by
    rw [appendItems, hlist]
  obtain ⟨-, hroot, -, -, hparent⟩ := foldl_link list ys (g.setExpr list (.list (values ++ ys)))
  rw [← heq, setExpr] at hroot hparent
  -- Of all nodes only the list has another content, and only what it takes in moves.
  have hself : (appendItems g list ys).expr? list = some (.list (values ++ ys)) := by
    rw [expr?_eq_some, kind?_appendItems hlist, if_pos rfl]
  have hother : ∀ z, z ≠ list → (appendItems g list ys).kind? z = g.kind? z := by
    intro z hz
    rw [kind?_appendItems hlist, if_neg hz]
  have hstays : ∀ z, z ∉ ys → (appendItems g list ys).parent? z = g.parent? z := by
    intro z hz
    rw [hparent, if_neg fun h => hz h.1, parent?_setKind]
  have hbeside : ∀ z, g.Reaches g.root z → z ∉ ys := fun z hz hmem =>
    hspare.outside z hz (hspare.top z hmem).1
  have hmoves : ∀ y ∈ ys, (appendItems g list ys).parent? y = some list := by
    intro y hy
    have hlt : y < g.size := Nat.lt_of_lt_of_le (hspare.top y hy).1.2 hspare.le_size
    rw [hparent, if_pos ⟨hy, (size_setKind _).symm ▸ hlt⟩]
  have hne : ∀ z, n ≤ z ∧ z < m → z ≠ list := by
    rintro z hin rfl
    exact hspare.outside z hx hin
  have hchildren : g.children list = values := children_of_expr? hlist
  refine
    { root_eq := hroot, root_parent := ?_, kind_eq := fun z _ => hother z, expr_iff := ?_,
      decl := fun d hd => ?_, items_eq := ?_, slot := fun c hc => ?_, nodup := ?_,
      parent_slot := fun c hc => ?_, parent_eq := fun p c hp _ hc => ?_,
      new_expr := fun z hin => ?_, new_nodup := fun z hin => ?_,
      new_child := fun z c hin hc => ?_ }
  · rw [hroot, root_setKind, hstays _ (hbeside _ .refl), hwf.root_parent]
  · rw [hself, hlist]
    exact Iff.rfl
  · rw [expr?_of_decl? hd] at hlist
    cases hlist
  · rw [itemSlots_of_expr? hself, itemSlots_of_expr? hlist]
  · rw [exprSlots_of_expr? hself] at hc
    rw [exprSlots_of_expr? hlist]
    rcases List.mem_append.mp hc with hc | hc
    · exact .inr hc
    · exact .inl (hspare.top c hc).1
  · rw [children_of_expr? hself]
    refine List.nodup_append.mpr ⟨?_, hspare.tops_nodup, fun c hc y hy hcy => ?_⟩
    · rw [← hchildren]
      exact hwf.nodup hx
    · subst hcy
      rw [← hchildren] at hc
      exact hbeside c (hx.tail hc) hy
  · rw [children_of_expr? hself] at hc
    rcases List.mem_append.mp hc with hc | hc
    · rw [← hchildren] at hc
      rw [hstays c (hbeside c (hx.tail hc)), hwf.parent_eq list c hx hc]
    · exact hmoves c hc
  · rw [hstays c (hbeside c (hp.tail hc)), hwf.parent_eq p c hp hc]
  · rw [expr?_congr (hother z (hne z hin))]
    exact hspare.expr z hin
  · rw [children_congr (hother z (hne z hin))]
    exact hspare.nodup z hin
  · rw [children_congr (hother z (hne z hin))] at hc
    obtain ⟨hin', hparent'⟩ := hspare.child z c hin hc
    refine ⟨?_, .inl hin'⟩
    rw [hstays c fun hmem => ?_, hparent']
    rw [(hspare.top c hmem).2] at hparent'
    cases hparent'

theorem appendDependsOn_spec {d : Decl} {resource : ResourceItem} (hwf : g.WellFormed)
    (hspare : Spare n m ys g) (hx : g.Reaches g.root finalizer) (hd : g.decl? finalizer = some d)
    (hresource : d.kind = .resource resource) :
    ∃ g', appendDependsOn g finalizer ys = .ok g' ∧ g'.WellFormed ∧ KeepsItems g g' := by
  by_cases hempty : ys.isEmpty
  · refine ⟨g, ?_, hwf, .refl g⟩
    rw [appendDependsOn, if_pos hempty]
    rfl
  obtain ⟨hadapts, hobject_reaches, _, hobject, fields, rfl⟩ :=
    ensureProperties_spec hwf hspare hx hd hresource
  obtain ⟨found, hfound, hadapts', hlist_reaches, _, hlist, values, rfl⟩ :=
    ensureList_spec (g.span finalizer) hadapts.wellFormed hadapts.spare hobject_reaches hobject
  have hgrafts := grafts_appendItems hadapts'.wellFormed hadapts'.spare hlist_reaches hlist
  have hroot := hadapts'.wellFormed.ne_root_of_expr? hlist
  refine ⟨appendItems found.2 found.1 ys, ?_,
    hgrafts.wellFormed hadapts'.wellFormed hlist_reaches hroot,
    (hadapts.trans hadapts').keepsItems.trans
      (hgrafts.keepsItems hadapts'.wellFormed hlist_reaches hroot)⟩
  rw [appendDependsOn, if_neg hempty]
  simp only [hfound]
  rfl

/-! ### The finalizer as a whole -/

theorem setDependsOn_relabels (names : List String) (d : Decl) :
    d.Relabels (setDependsOn names d) := by
  unfold setDependsOn
  split
  · next r hr =>
    refine ⟨rfl, fun _ h => h, ?_, ?_, rfl, fun r' hr' => ⟨names, ?_⟩⟩
    · rw [hr]
      rfl
    · rw [hr]
      rfl
    · rw [hr] at hr'
      rw [DeclKind.resource.inj hr']
  · exact .refl d

/-- The tree when the finalizer has its unconditional dependencies. -/
def begun (t : Tree) (directory : Directory) (finalizerName : String) (finalizer : NodeId)
    (dependsOn : List String) : Tree :=
  let names := unconditionalNames t (otherResources t directory finalizer)
  recordUnconditional
    (t.modifyDecl finalizer (setDependsOn (Text.sortedDistinct (dependsOn ++ names)))) directory
    finalizer finalizerName names

theorem begun_relabelled (t : Tree) (directory : Directory) (finalizerName : String)
    (finalizer : NodeId) (dependsOn : List String) :
    Relabelled t (begun t directory finalizerName finalizer dependsOn) :=
  (Relabelled.modifyDecl fun d _ => setDependsOn_relabels _ d).trans (recordEdges_relabelled ..)

/-- The other resources with undecided conditions. -/
def conditionals (t : Tree) (directory : Directory) (finalizer : NodeId) :
    List ConditionalResource :=
  conditionalResources t (otherResources t directory finalizer)

/-- The `if` expressions for them, beside the tree. -/
def conditionalItems (t : Tree) (directory : Directory) (finalizerName : String)
    (finalizer : NodeId) (dependsOn : List String) : List NodeId × Tree :=
  addEach (addConditional finalizer finalizerName) (conditionals t directory finalizer)
    (begun t directory finalizerName finalizer dependsOn)

/-- What the finalizer is made to depend on. -/
def report (t : Tree) (directory : Directory) (finalizer : NodeId) (dependsOn : List String) :
    FinalizerDependencies where
  unconditional := Text.sortedDistinct
    (dependsOn ++ unconditionalNames t (otherResources t directory finalizer))
  conditional := (conditionals t directory finalizer).map (·.name)

/-- Wiring is labelling, making the `if` expressions and hanging them below the finalizer. -/
theorem wire_eq (t : Tree) (directory : Directory) (finalizerName : String) (finalizer : NodeId)
    (dependsOn : List String) :
    wire t directory finalizerName finalizer dependsOn =
      (appendDependsOn (conditionalItems t directory finalizerName finalizer dependsOn).2 finalizer
        (conditionalItems t directory finalizerName finalizer dependsOn).1).map
          (report t directory finalizer dependsOn, ·) := by
  unfold wire
  show (appendDependsOn (conditionalItems t directory finalizerName finalizer dependsOn).2 finalizer
    (conditionalItems t directory finalizerName finalizer dependsOn).1 >>=
      fun tree => pure (_, tree)) = _
  cases appendDependsOn (conditionalItems t directory finalizerName finalizer dependsOn).2 finalizer
    (conditionalItems t directory finalizerName finalizer dependsOn).1 <;> rfl

theorem conditionalItems_tops (finalizerName : String) (finalizer : NodeId)
    (dependsOn : List String) (hwf : t.WellFormed) (hbound : Bound t directory) :
    Tops t (begun t directory finalizerName finalizer dependsOn)
      (conditionalItems t directory finalizerName finalizer dependsOn).2
      (conditionalItems t directory finalizerName finalizer dependsOn).1 :=
  addEach_conditional finalizer finalizerName hwf (conditionals t directory finalizer)
    (fun _ hr => copyable_of_mem hwf hbound hr) ((Sprouting.refl t).relabel (begun_relabelled ..))

/-- The `if` expressions for them can be hung below the finalizer. -/
theorem exists_appended {d : Decl} {resource : ResourceItem} (finalizerName : String)
    (dependsOn : List String) (hwf : t.WellFormed) (hbound : Bound t directory)
    (hx : t.Reaches t.root finalizer) (hd : t.decl? finalizer = some d)
    (hresource : d.kind = .resource resource) :
    let items := conditionalItems t directory finalizerName finalizer dependsOn
    ∃ g', appendDependsOn items.2 finalizer items.1 = .ok g' ∧ g'.WellFormed ∧
      KeepsItems items.2 g' := by
  have htops := conditionalItems_tops finalizerName finalizer dependsOn hwf hbound
  have hle := (begun_relabelled t directory finalizerName finalizer dependsOn).size_eq.ge
  obtain ⟨d', hd', hlabels'⟩ := htops.sprouting.decl hd
  obtain ⟨names', hresource'⟩ := hlabels'.resource resource hresource
  have hkeeps := htops.sprouting.keepsItems hwf
  exact appendDependsOn_spec (htops.sprouting.wellFormed hwf) (htops.spare hwf hle)
    (hkeeps.host finalizer hx (expr?_of_decl? hd)).1 hd' hresource'

/-- Wiring a resource as the finalizer succeeds and keeps the items. -/
theorem wire_spec {d : Decl} {resource : ResourceItem} (finalizerName : String)
    (dependsOn : List String) (hwf : t.WellFormed) (hbound : Bound t directory)
    (hx : t.Reaches t.root finalizer) (hd : t.decl? finalizer = some d)
    (hresource : d.kind = .resource resource) :
    ∃ found, wire t directory finalizerName finalizer dependsOn = .ok found ∧
      found.2.WellFormed ∧ KeepsItems t found.2 := by
  have htops := conditionalItems_tops finalizerName finalizer dependsOn hwf hbound
  obtain ⟨g', hg', hwf', hkeeps⟩ :=
    exists_appended finalizerName dependsOn hwf hbound hx hd hresource
  refine ⟨(report t directory finalizer dependsOn, g'), ?_, hwf',
    (htops.sprouting.keepsItems hwf).trans hkeeps⟩
  rw [wire_eq, hg']
  rfl

/-- A tree with a wired finalizer has the `if` expressions below it. -/
theorem appended_of_wire {d : Decl} {resource : ResourceItem} {finalizerName : String}
    {dependsOn : List String} {found : FinalizerDependencies × Tree} (hwf : t.WellFormed)
    (hbound : Bound t directory) (hx : t.Reaches t.root finalizer)
    (hd : t.decl? finalizer = some d) (hresource : d.kind = .resource resource)
    (h : wire t directory finalizerName finalizer dependsOn = .ok found) :
    let items := conditionalItems t directory finalizerName finalizer dependsOn
    appendDependsOn items.2 finalizer items.1 = .ok found.2 ∧ found.2.WellFormed ∧
      KeepsItems items.2 found.2 := by
  obtain ⟨g', hg', hwf', hkeeps⟩ :=
    exists_appended finalizerName dependsOn hwf hbound hx hd hresource
  rw [wire_eq, hg'] at h
  obtain rfl := Except.ok.inj h
  exact ⟨hg', hwf', hkeeps⟩

/-- A finalizer that is a resource is wired. -/
theorem analyze_eq {d : Decl} {resource : ResourceItem} {finalizerName : String}
    (hget : directory.get? finalizerName = some finalizer) (hd : t.decl? finalizer = some d)
    (hresource : d.kind = .resource resource) :
    analyze t directory finalizerName =
      (wire t directory finalizerName finalizer resource.dependsOn).map
        fun found => (some found.1, found.2) := by
  obtain ⟨localName, fullName, kind, reference, out, back⟩ := d
  subst hresource
  rw [analyze, hget]
  simp only [hd]
  cases wire t directory finalizerName finalizer resource.dependsOn <;> rfl

/-- A finalizer that is found and is a resource is wired; otherwise nothing is done. -/
theorem analyze_cases {finalizerName : String} {found : Option FinalizerDependencies × Tree}
    (h : analyze t directory finalizerName = .ok found) :
    (found.2 = t ∧ ∀ finalizer d resource, directory.get? finalizerName = some finalizer →
        t.decl? finalizer = some d → d.kind ≠ .resource resource) ∨
      ∃ finalizer d resource report,
        directory.get? finalizerName = some finalizer ∧ t.decl? finalizer = some d ∧
        d.kind = .resource resource ∧
        wire t directory finalizerName finalizer resource.dependsOn = .ok (report, found.2) := by
  unfold analyze at h
  split at h
  · next hget =>
    refine .inl ⟨(congrArg Prod.snd (Except.ok.inj h)).symm, fun _ _ _ hget' => ?_⟩
    rw [hget] at hget'
    cases hget'
  · next finalizer hget =>
    split at h
    · next localName fullName resource reference out back hd =>
      cases hwire : wire t directory finalizerName finalizer resource.dependsOn with
      | error fault =>
        rw [hwire] at h
        cases h
      | ok wired =>
        rw [hwire] at h
        obtain rfl := Except.ok.inj h
        exact .inr ⟨finalizer, _, resource, wired.1, hget, hd, rfl, hwire⟩
    · next hother =>
      refine .inl ⟨(congrArg Prod.snd (Except.ok.inj h)).symm, ?_⟩
      rintro finalizer' ⟨localName, fullName, kind, reference, out, back⟩ resource hget' hd rfl
      obtain rfl := Option.some.inj (hget.symm.trans hget')
      exact hother localName fullName resource reference out back hd

/-- Looking for the finalizer and wiring it succeeds and keeps the items. -/
theorem analyze_spec (finalizerName : String) (hwf : t.WellFormed) (hbound : Bound t directory) :
    ∃ found, analyze t directory finalizerName = .ok found ∧
      found.2.WellFormed ∧ KeepsItems t found.2 := by
  unfold analyze
  split
  · exact ⟨_, rfl, hwf, .refl t⟩
  · next finalizer hfinalizer =>
    obtain ⟨hx, -⟩ := hbound finalizerName finalizer hfinalizer
    split
    · next localName fullName resource reference out back hd =>
      obtain ⟨found, hfound, hwf', hkeeps⟩ :=
        wire_spec finalizerName resource.dependsOn hwf hbound hx hd rfl
      refine ⟨(some found.1, found.2), ?_, hwf', hkeeps⟩
      rw [hfound]
      rfl
    · exact ⟨_, rfl, hwf, .refl t⟩

end Finalizer

end StackTemplate
