import StackTemplate.Proofs.Tree.Copying
import StackTemplate.Proofs.Tree.WellFormed

/-!
# Changes that leave the slots alone

Naming a declaration, recording its dependencies and setting what it is created after change no
slot of the tree (`Relabelled`). Neither does making new expressions beside it, such as copies
(`Sprouting`). Such changes keep everything within reach where it is.
-/

namespace StackTemplate

/-- The second declaration is the first with other labels. A full name may come in, but none is
changed. -/
structure Decl.Relabels (d d' : Decl) : Prop where
  localName_eq : d'.localName = d.localName
  fullName : ∀ name, d.fullName = some name → d'.fullName = some name
  fields_eq : d'.kind.fields = d.kind.fields
  items_eq : d'.kind.items = d.kind.items
  reference_eq : d'.reference = d.reference
  resource : ∀ r, d.kind = .resource r →
    ∃ names, d'.kind = .resource { r with dependsOn := names }

theorem Decl.Relabels.ofKind {d d' : Decl} (localName_eq : d'.localName = d.localName)
    (fullName : ∀ name, d.fullName = some name → d'.fullName = some name)
    (kind_eq : d'.kind = d.kind) (reference_eq : d'.reference = d.reference) : d.Relabels d' where
  localName_eq := localName_eq
  fullName := fullName
  fields_eq := by rw [kind_eq]
  items_eq := by rw [kind_eq]
  reference_eq := reference_eq
  resource r hr := ⟨r.dependsOn, kind_eq.trans hr⟩

theorem Decl.Relabels.refl (d : Decl) : d.Relabels d := .ofKind rfl (fun _ h => h) rfl rfl

theorem Decl.Relabels.trans {d d' d'' : Decl} (h : d.Relabels d') (h' : d'.Relabels d'') :
    d.Relabels d'' where
  localName_eq := h'.localName_eq.trans h.localName_eq
  fullName name hname := h'.fullName name (h.fullName name hname)
  fields_eq := h'.fields_eq.trans h.fields_eq
  items_eq := h'.items_eq.trans h.items_eq
  reference_eq := h'.reference_eq.trans h.reference_eq
  resource r hr := by
    obtain ⟨names, hnames⟩ := h.resource r hr
    obtain ⟨names', hnames'⟩ := h'.resource _ hnames
    exact ⟨names', hnames'⟩

namespace Tree

variable {t t' t'' s s' : Tree} {x y c : NodeId}

/-- The second tree is the first with other labels on declarations. -/
structure Relabelled (t t' : Tree) : Prop where
  root_eq : t'.root = t.root
  size_eq : t'.size = t.size
  parent_eq : ∀ x, t'.parent? x = t.parent? x
  kind : ∀ x, t'.kind? x = t.kind? x ∨
    ∃ d d', t.kind? x = some (.decl d) ∧ t'.kind? x = some (.decl d') ∧ d.Relabels d'

namespace Relabelled

theorem refl (t : Tree) : Relabelled t t := ⟨rfl, rfl, fun _ => rfl, fun _ => .inl rfl⟩

theorem trans (h : Relabelled t t') (h' : Relabelled t' t'') : Relabelled t t'' where
  root_eq := h'.root_eq.trans h.root_eq
  size_eq := h'.size_eq.trans h.size_eq
  parent_eq x := (h'.parent_eq x).trans (h.parent_eq x)
  kind x := by
    rcases h'.kind x with heq' | ⟨d', d'', hd', hd'', hlabels'⟩
    · rw [heq']
      exact h.kind x
    · rcases h.kind x with heq | ⟨d, e, hd, he, hlabels⟩
      · rw [heq] at hd'
        exact .inr ⟨d', d'', hd', hd'', hlabels'⟩
      · rw [hd'] at he
        obtain rfl : d' = e := NodeKind.decl.inj (Option.some.inj he)
        exact .inr ⟨d, d'', hd, hd'', hlabels.trans hlabels'⟩

/-- Changing the labels of one declaration. -/
theorem modifyDecl {f : Decl → Decl} (hf : ∀ d, t.decl? x = some d → d.Relabels (f d)) :
    Relabelled t (t.modifyDecl x f) := by
  unfold Tree.modifyDecl
  cases hd : t.decl? x with
  | none => exact refl t
  | some d =>
    refine ⟨rfl, size_setKind _, fun y => parent?_setKind _, fun y => ?_⟩
    by_cases hy : x = y
    · subst hy
      have hlt := lt_size_of_decl? hd
      exact .inr ⟨d, f d, decl?_eq_some.mp hd, kind?_setKind_self hlt, hf d hd⟩
    · exact .inl (kind?_setKind_ne hy)

variable (h : Relabelled t t')

include h

theorem expr?_eq (x : NodeId) : t'.expr? x = t.expr? x := by
  rcases h.kind x with heq | ⟨d, d', hd, hd', -⟩
  · exact expr?_congr heq
  · rw [expr?_of_decl? (decl?_eq_some.mpr hd), expr?_of_decl? (decl?_eq_some.mpr hd')]

theorem decl (x : NodeId) {d : Decl} (hd : t.decl? x = some d) :
    ∃ d', t'.decl? x = some d' ∧ d.Relabels d' := by
  rcases h.kind x with heq | ⟨e, d', he, hd', hlabels⟩
  · rw [← decl?_congr heq] at hd
    exact ⟨d, hd, .refl d⟩
  · rw [decl?_eq_some.mp hd] at he
    obtain rfl : d = e := NodeKind.decl.inj (Option.some.inj he)
    exact ⟨d', decl?_eq_some.mpr hd', hlabels⟩

/-- No declaration comes in. -/
theorem old_decl (x : NodeId) {d' : Decl} (hd' : t'.decl? x = some d') :
    ∃ d, t.decl? x = some d ∧ d.Relabels d' := by
  rcases h.kind x with heq | ⟨d, e, hd, he, hlabels⟩
  · rw [decl?_congr heq] at hd'
    exact ⟨d', hd', .refl d'⟩
  · rw [decl?_eq_some.mp hd'] at he
    obtain rfl : d' = e := NodeKind.decl.inj (Option.some.inj he)
    exact ⟨d, decl?_eq_some.mpr hd, hlabels⟩

theorem exprSlots_eq (x : NodeId) : t'.exprSlots x = t.exprSlots x := by
  rcases h.kind x with heq | ⟨d, d', hd, hd', hlabels⟩
  · exact exprSlots_congr heq
  · rw [exprSlots, exprSlots, hd, hd']
    show d'.kind.fields ++ d'.reference.toList = d.kind.fields ++ d.reference.toList
    rw [hlabels.fields_eq, hlabels.reference_eq]

theorem itemSlots_eq (x : NodeId) : t'.itemSlots x = t.itemSlots x := by
  rcases h.kind x with heq | ⟨d, d', hd, hd', hlabels⟩
  · exact itemSlots_congr heq
  · rw [itemSlots, itemSlots, hd, hd']
    exact hlabels.items_eq

theorem children_eq : t'.children = t.children := by
  funext x
  rw [children_eq_append, children_eq_append, h.exprSlots_eq, h.itemSlots_eq]

theorem reaches : t'.Reaches x y ↔ t.Reaches x y := by
  rw [Reaches, Reaches, h.children_eq]

/-- What is listed below a node does not depend on labels. -/
theorem descendants_eq (hx : t.Grounded x) : t'.descendants x = t.descendants x := by
  have hgrounded : ∀ y, t.Grounded y → t'.Grounded y := by
    intro y hy
    unfold Tree.Grounded
    rwa [h.children_eq, h.size_eq]
  refine hx.induct (P := fun y => t'.descendants y = t.descendants y) fun y hy ih => ?_
  rw [Tree.descendants_eq (hgrounded y hy), Tree.descendants_eq hy, h.children_eq,
    List.flatMap_congr ih]

end Relabelled

/-! ### New expressions beside the tree -/

/-- The second tree is the first with other labels and with new expressions, which hold new
expressions only. -/
structure Sprouting (t s : Tree) : Prop where
  root_eq : s.root = t.root
  size_le : t.size ≤ s.size
  kind : ∀ x, x < t.size → s.kind? x = t.kind? x ∨
    ∃ d d', t.kind? x = some (.decl d) ∧ s.kind? x = some (.decl d') ∧ d.Relabels d'
  parent_eq : ∀ x, x < t.size → s.parent? x = t.parent? x
  expr : AddsExprs t s
  nodup : ∀ z, t.size ≤ z → (s.children z).Nodup
  child : ∀ z c, t.size ≤ z → c ∈ s.children z → t.size ≤ c ∧ c < z ∧ s.parent? c = some z

namespace Sprouting

theorem refl (t : Tree) : Sprouting t t where
  root_eq := rfl
  size_le := Nat.le_refl _
  kind _ _ := .inl rfl
  parent_eq _ _ := rfl
  expr := .refl t
  nodup z hz := by
    rw [children_of_size_le hz]
    exact List.nodup_nil
  child z c hz hc := by
    rw [children_of_size_le hz] at hc
    cases hc

theorem grow (h : Sprouting t s) (hgrows : Grows s s' fun _ => False) (hadds : AddsExprs s s') :
    Sprouting t s' where
  root_eq := hgrows.root_eq.trans h.root_eq
  size_le := Nat.le_trans h.size_le hgrows.size_le
  kind x hx := by
    rw [hgrows.kind_eq x (Nat.lt_of_lt_of_le hx h.size_le)]
    exact h.kind x hx
  parent_eq x hx := by
    rw [hgrows.parent_eq x (Nat.lt_of_lt_of_le hx h.size_le) id]
    exact h.parent_eq x hx
  expr := h.expr.trans hadds hgrows.toKeeps
  nodup z hz := by
    by_cases hzs : z < s.size
    · rw [children_congr (hgrows.kind_eq z hzs)]
      exact h.nodup z hz
    · exact hgrows.nodup z (Nat.le_of_not_lt hzs)
  child z c hz hc := by
    by_cases hzs : z < s.size
    · rw [children_congr (hgrows.kind_eq z hzs)] at hc
      obtain ⟨hle, hlt, hparent⟩ := h.child z c hz hc
      exact ⟨hle, hlt, (hgrows.parent_eq c (Nat.lt_trans hlt hzs) id).trans hparent⟩
    · obtain ⟨hlt, hparent, hnew⟩ := hgrows.child z c (Nat.le_of_not_lt hzs) hc
      exact ⟨Nat.le_trans h.size_le (Nat.le_of_not_lt hnew), hlt, hparent⟩

theorem relabel (h : Sprouting t s) (hlabels : Relabelled s s') : Sprouting t s' where
  root_eq := hlabels.root_eq.trans h.root_eq
  size_le := Nat.le_trans h.size_le (Nat.le_of_eq hlabels.size_eq.symm)
  kind x hx := by
    rcases hlabels.kind x with heq | ⟨d, d', hd, hd', hrelabels⟩
    · rw [heq]
      exact h.kind x hx
    · rcases h.kind x hx with heq | ⟨d₀, e, hd₀, he, hrelabels₀⟩
      · exact .inr ⟨d, d', heq ▸ hd, hd', hrelabels⟩
      · rw [hd] at he
        obtain rfl : d = e := NodeKind.decl.inj (Option.some.inj he)
        exact .inr ⟨d₀, d', hd₀, hd', hrelabels₀.trans hrelabels⟩
  parent_eq x hx := (hlabels.parent_eq x).trans (h.parent_eq x hx)
  expr z hz hlt := by
    rw [hlabels.size_eq] at hlt
    rw [hlabels.expr?_eq]
    exact h.expr z hz hlt
  nodup z hz := by
    rw [hlabels.children_eq]
    exact h.nodup z hz
  child z c hz hc := by
    rw [hlabels.children_eq] at hc
    rw [hlabels.parent_eq]
    exact h.child z c hz hc

variable (h : Sprouting t s)

include h

theorem expr?_eq (hx : x < t.size) : s.expr? x = t.expr? x := by
  rcases h.kind x hx with heq | ⟨d, d', hd, hd', -⟩
  · exact expr?_congr heq
  · rw [expr?_of_decl? (decl?_eq_some.mpr hd), expr?_of_decl? (decl?_eq_some.mpr hd')]

theorem decl {d : Decl} (hd : t.decl? x = some d) :
    ∃ d', s.decl? x = some d' ∧ d.Relabels d' := by
  rcases h.kind x (lt_size_of_decl? hd) with heq | ⟨e, d', he, hd', hlabels⟩
  · rw [← decl?_congr heq] at hd
    exact ⟨d, hd, .refl d⟩
  · rw [decl?_eq_some.mp hd] at he
    obtain rfl : d = e := NodeKind.decl.inj (Option.some.inj he)
    exact ⟨d', decl?_eq_some.mpr hd', hlabels⟩

theorem slots_eq (hx : x < t.size) :
    s.exprSlots x = t.exprSlots x ∧ s.itemSlots x = t.itemSlots x := by
  rcases h.kind x hx with heq | ⟨d, d', hd, hd', hlabels⟩
  · exact ⟨exprSlots_congr heq, itemSlots_congr heq⟩
  · constructor
    · rw [exprSlots, exprSlots, hd, hd']
      show d'.kind.fields ++ d'.reference.toList = d.kind.fields ++ d.reference.toList
      rw [hlabels.fields_eq, hlabels.reference_eq]
    · rw [itemSlots, itemSlots, hd, hd']
      exact hlabels.items_eq

theorem children_eq (hx : x < t.size) : s.children x = t.children x := by
  rw [children_eq_append, children_eq_append, (h.slots_eq hx).1, (h.slots_eq hx).2]

/-- The new expressions are out of reach. -/
theorem reaches (hwf : t.WellFormed) (hx : t.Reaches t.root x) : s.Reaches x y ↔ t.Reaches x y := by
  constructor
  · intro hy
    induction hy with
    | refl => exact .refl
    | @tail z y hz hy ih =>
      rw [h.children_eq (hwf.lt_size (hx.trans ih))] at hy
      exact ih.tail hy
  · intro hy
    induction hy with
    | refl => exact .refl
    | @tail z y hz hy ih =>
      rw [← h.children_eq (hwf.lt_size (hx.trans hz))] at hy
      exact ih.tail hy

theorem wellFormed (hwf : t.WellFormed) : s.WellFormed := by
  have hreach : ∀ p, s.Reaches s.root p → t.Reaches t.root p := by
    intro p hp
    rwa [h.root_eq, h.reaches hwf .refl] at hp
  have hlt : ∀ p, t.Reaches t.root p → p < t.size := fun p hp => hwf.lt_size hp
  obtain ⟨m, hm⟩ := hwf.root_module
  refine .ofLinks ⟨m, ?_⟩ ?_ (fun p hp => ?_) (fun p c hp hc => ?_) (fun p c hp hc => ?_)
    fun p c hp hc => ?_
  · rw [h.root_eq]
    rcases h.kind t.root (hlt _ .refl) with heq | ⟨d, d', hd, -⟩
    · rw [heq, hm]
    · rw [hm] at hd
      cases hd
  · rw [h.root_eq, h.parent_eq _ (hlt _ .refl), hwf.root_parent]
  all_goals have hp := hreach p hp
  · rw [h.children_eq (hlt p hp)]
    exact hwf.nodup hp
  · rw [h.children_eq (hlt p hp)] at hc
    rw [h.parent_eq c (hlt c (hp.tail hc))]
    exact hwf.parent_eq p c hp hc
  · rw [(h.slots_eq (hlt p hp)).1] at hc
    rw [h.expr?_eq (hlt c (hp.tail (mem_children.mpr (.inl hc))))]
    exact hwf.expr_slot p c hp hc
  · rw [(h.slots_eq (hlt p hp)).2] at hc
    obtain ⟨d, hd⟩ := Option.isSome_iff_exists.mp (hwf.item_slot p c hp hc)
    obtain ⟨d', hd', -⟩ := h.decl hd
    exact Option.isSome_of_eq_some hd'

/-- An expression of the tree can be copied beside it. -/
theorem copy (hwf : t.WellFormed) (hx : t.Reaches t.root x) (he : (t.expr? x).isSome) :
    Grows s (s.copy x).2 (fun _ => False) ∧ Sprout s (s.copy x).2 (s.copy x).1 ∧
      AddsExprs s (s.copy x).2 := by
  have hbelow : ∀ z, t.Reaches x z → s.expr? z = t.expr? z ∧ (t.expr? z).isSome := fun z hz =>
    ⟨h.expr?_eq (hwf.lt_size (hx.trans hz)), hwf.expr_of_reaches hx he hz⟩
  have hgrounded : s.Grounded x := by
    refine (hwf.grounded_of_reaches hx).congr fun z hz => ?_
    obtain ⟨heq, he⟩ := hbelow z hz
    obtain ⟨e, he⟩ := Option.isSome_iff_exists.mp he
    rw [expr?_eq_some.mp (heq.trans he), expr?_eq_some.mp he]
  obtain ⟨hgrows, hsprout, -⟩ := copy_spec hgrounded (.refl s)
  refine ⟨hgrows, hsprout, (addsExprs_copyWithin (within_of_grounded hgrounded) ?_ (.refl s)).1⟩
  intro z hz
  rw [h.reaches hwf hx] at hz
  obtain ⟨heq, he⟩ := hbelow z hz
  rw [heq]
  exact he

end Sprouting

/-- Other labels leave a tree well formed. -/
theorem Relabelled.wellFormed (h : Relabelled t t') (hwf : t.WellFormed) : t'.WellFormed :=
  ((Sprouting.refl t).relabel h).wellFormed hwf

end Tree

end StackTemplate
