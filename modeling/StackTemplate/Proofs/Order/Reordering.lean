import StackTemplate.Proofs.Order.Matching

/-!
# Trees with their items in another order

Two trees that differ in the order of the module's items only are changed by passes side by side.
All along, the declarations of both are what they were but for their expression slots, and slots
that started with one content hold the same term (`Parallel`). A batch of replacements that match
keeps this and changes as many slots on both sides (`Parallel.apply`): the order of the items only
permutes the summands.
-/

namespace StackTemplate.Order

open StackTemplate.Tree Fold

variable {base base' t t' g g' : Tree} {f f' : NodeId → NodeId} {staged staged' : Replacements}
  {owner owner' : NodeId → NodeId} {x y c : NodeId}

/-- The second tree is the first with the items of the module in another order. -/
structure Reordered (t t' : Tree) : Prop where
  root_eq : t'.root = t.root
  parent_eq : ∀ x, t'.parent? x = t.parent? x
  kind_eq : ∀ x, x ≠ t.root → t'.kind? x = t.kind? x
  module : ∃ m items, t.kind? t.root = some (.module m) ∧
    t'.kind? t.root = some (.module { m with items }) ∧ items.Perm m.items

namespace Reordered

variable (h : Reordered t t')

include h

theorem expr?_eq (x : NodeId) : t'.expr? x = t.expr? x := by
  by_cases hx : x = t.root
  · obtain ⟨m, items, hm, hm', -⟩ := h.module
    rw [hx, expr?, expr?, hm, hm']
    rfl
  · exact expr?_congr (h.kind_eq x hx)

theorem decl?_eq (x : NodeId) : t'.decl? x = t.decl? x := by
  by_cases hx : x = t.root
  · obtain ⟨m, items, hm, hm', -⟩ := h.module
    rw [hx, decl?, decl?, hm, hm']
    rfl
  · exact decl?_congr (h.kind_eq x hx)

theorem exprSlots_eq (x : NodeId) : t'.exprSlots x = t.exprSlots x := by
  by_cases hx : x = t.root
  · obtain ⟨m, items, hm, hm', -⟩ := h.module
    rw [hx, exprSlots, exprSlots, hm, hm']
    rfl
  · exact exprSlots_congr (h.kind_eq x hx)

theorem itemSlots_perm (x : NodeId) : (t'.itemSlots x).Perm (t.itemSlots x) := by
  by_cases hx : x = t.root
  · obtain ⟨m, items, hm, hm', hperm⟩ := h.module
    rw [hx, itemSlots, itemSlots, hm, hm']
    exact hperm
  · rw [itemSlots_congr (h.kind_eq x hx)]

theorem children_perm (x : NodeId) : (t'.children x).Perm (t.children x) := by
  rw [children_eq_append, children_eq_append, h.exprSlots_eq]
  exact (h.itemSlots_perm x).append_left _

theorem reaches : t'.Reaches x y ↔ t.Reaches x y := by
  have hchildren : (fun p c => c ∈ t'.children p) = fun p c => c ∈ t.children p :=
    funext fun p => funext fun c => propext (h.children_perm p).mem_iff
  rw [Reaches, Descends, hchildren]
  rfl

theorem wellFormed (hwf : t.WellFormed) : t'.WellFormed := by
  have hroot : ∀ {p}, t'.Reaches t'.root p → t.Reaches t.root p := fun hp => by
    rwa [h.root_eq, h.reaches] at hp
  refine .ofLinks ?_ ?_ (fun p hp => ?_) (fun p c hp hc => ?_) (fun p c hp hc => ?_)
    (fun p c hp hc => ?_)
  · obtain ⟨m, items, -, hm', -⟩ := h.module
    rw [h.root_eq]
    exact ⟨_, hm'⟩
  · rw [h.root_eq, h.parent_eq, hwf.root_parent]
  · exact (h.children_perm p).nodup_iff.mpr (hwf.nodup (hroot hp))
  · rw [h.parent_eq]
    exact hwf.parent_eq p c (hroot hp) ((h.children_perm p).mem_iff.mp hc)
  · rw [h.expr?_eq]
    exact hwf.expr_slot p c (hroot hp) (h.exprSlots_eq p ▸ hc)
  · rw [h.decl?_eq]
    exact hwf.item_slot p c (hroot hp) ((h.itemSlots_perm p).mem_iff.mp hc)

/-- Expressions hold no items, so they are the same terms. -/
theorem term_eq (hwf : t.WellFormed) (hx : t.Reaches t.root x) (he : (t.expr? x).isSome) :
    t'.term x = t.term x := by
  have hgrounded := hwf.grounded_of_reaches hx
  -- The induction is on the first tree. That the second is grounded too is known beforehand.
  have hgrounded' := (h.wellFormed hwf).grounded_of_reaches (x := x) (by
    rwa [h.root_eq, h.reaches])
  induction hgrounded with
  | @intro x lt below ih =>
    obtain ⟨e, he'⟩ := Option.isSome_iff_exists.mp he
    rw [Tree.term_eq (.intro lt below) he', Tree.term_eq hgrounded' ((h.expr?_eq x).trans he')]
    refine congrArg (Term.node _) (List.map_congr_left fun c hc => ?_)
    rw [← children_of_expr? he'] at hc
    exact ih c hc (hx.tail hc) (hwf.expr_of_child hx he hc)
      (hgrounded'.child ((h.children_perm x).mem_iff.mpr hc))

end Reordered

/-- Two trees that came from others with the same declarations, with the same terms in their
expression slots. -/
structure Parallel (base base' t t' : Tree) (f f' : NodeId → NodeId) : Prop where
  left : Rewired base t f
  right : Rewired base' t' f'
  term_eq : ∀ x c, base.Reaches base.root x → base.expr? x = none → c ∈ base.exprSlots x →
    t'.term (f' c) = t.term (f c)

theorem Parallel.start (h : Reordered base base') (hwf : base.WellFormed) :
    Parallel base base' base base' id id where
  left := .refl hwf
  right := .refl (h.wellFormed hwf)
  term_eq x c hx _ hc :=
    h.term_eq hwf (hx.tail (mem_children.mpr (.inl hc))) (hwf.expr_slot x c hx hc)

section Apply

variable (hbase : Reordered base base') (hwf : base.WellFormed)
  (hparallel : Parallel base base' t t' f f') (hs : Staged t staged g owner)
  (hs' : Staged t' staged' g' owner') (hagree : Agree t g t' g' staged staged')

include hbase hwf hparallel hs hs' hagree

/-- Expression slots of one declaration lead to the same terms and make as many changes. -/
theorem Parallel.slot (hx : base.Reaches base.root x) (he : base.expr? x = none)
    (hc : c ∈ base.exprSlots x) :
    (g'.apply staged').2.term (g'.follow (fun id => staged'.lookup id) (f' c)) =
        (g.apply staged).2.term (g.follow (fun id => staged.lookup id) (f c)) ∧
      g'.slotWork (fun id => staged'.lookup id) (f' c) =
        g.slotWork (fun id => staged.lookup id) (f c) := by
  have hwft := hparallel.left.wellFormed
  have hwft' := hparallel.right.wellFormed
  have hx' : base'.Reaches base'.root x := by rwa [hbase.root_eq, hbase.reaches]
  have he' : base'.expr? x = none := (hbase.expr?_eq x).trans he
  have hreach := (hparallel.left.host x hx he).1
  have hreach' := (hparallel.right.host x hx' he').1
  -- The slot holds what was in it at first, led on by the passes so far.
  have hslot : f c ∈ t.exprSlots x := by
    rw [(hparallel.left.slots hwf hx he).1]
    exact List.mem_map_of_mem hc
  have hslot' : f' c ∈ t'.exprSlots x := by
    rw [(hparallel.right.slots (hbase.wellFormed hwf) hx' he').1, hbase.exprSlots_eq]
    exact List.mem_map_of_mem hc
  have hchild := mem_children.mpr (.inl hslot)
  have hchild' := mem_children.mpr (.inl hslot')
  obtain ⟨hterm, hwork, hself⟩ := matches_follow hs hwft hs' hwft' hagree
    (hs.settles hwft (hreach.tail hchild))
    (.old (hwft.mem_exprs.mpr ⟨hreach.tail hchild, hwft.expr_slot x _ hreach hslot⟩)
      (hwft'.mem_exprs.mpr ⟨hreach'.tail hchild', hwft'.expr_slot x _ hreach' hslot'⟩)
      (hparallel.term_eq x c hx he hc))
    ((hs.reaches_host hwft hreach (hparallel.left.expr_host hx he)).tail
      (mem_slotsAfter.mpr ⟨f c, hs.children_old hwft hreach ▸ hchild, rfl⟩))
    ((hs'.reaches_host hwft' hreach' (hparallel.right.expr_host hx' he')).tail
      (mem_slotsAfter.mpr ⟨f' c, hs'.children_old hwft' hreach' ▸ hchild', rfl⟩))
  exact ⟨hterm, slotWork_congr hwork hself⟩

/-- The changes at and below the module or a declaration are as many on both sides. -/
theorem Parallel.work_eq (hx : base.Reaches base.root x) (he : base.expr? x = none) :
    g'.work (fun id => staged'.lookup id) x = g.work (fun id => staged.lookup id) x := by
  have hwft := hparallel.left.wellFormed
  have hwft' := hparallel.right.wellFormed
  have hgrounded := hwf.grounded_of_reaches hx
  induction hgrounded with
  | @intro x lt below ih =>
    have hx' : base'.Reaches base'.root x := by rwa [hbase.root_eq, hbase.reaches]
    have he' : base'.expr? x = none := (hbase.expr?_eq x).trans he
    have hreach := (hparallel.left.host x hx he).1
    have hreach' := (hparallel.right.host x hx' he').1
    obtain ⟨hexprs, hitems⟩ := hparallel.left.slots hwf hx he
    obtain ⟨hexprs', hitems'⟩ := hparallel.right.slots (hbase.wellFormed hwf) hx' he'
    rw [Tree.work_eq (hs.settles hwft hreach), Tree.work_eq (hs'.settles hwft' hreach'),
      hs.children_old hwft hreach, hs'.children_old hwft' hreach', children_eq_append,
      children_eq_append, hexprs, hexprs', hitems, hitems', hbase.exprSlots_eq]
    simp only [totalOf_eq_sum, List.map_append, List.sum_append, List.map_map]
    congr 1
    · refine congrArg List.sum (List.map_congr_left fun c hc => ?_)
      exact (hparallel.slot hbase hwf hs hs' hagree hx he hc).2
    · rw [((hbase.itemSlots_perm x).map _).sum_eq]
      refine congrArg List.sum (List.map_congr_left fun c hc => ?_)
      -- Items stay where they are, so only what is below them changes.
      obtain ⟨d, hd⟩ := Option.isSome_iff_exists.mp (hwf.item_slot x c hx hc)
      have hchild := mem_children.mpr (.inr hc)
      have hc' : base'.Reaches base'.root c := by
        rw [hbase.root_eq, hbase.reaches]
        exact hx.tail hchild
      have hexpr : base.expr? c = none := expr?_of_decl? hd
      have hexpr' : base'.expr? c = none := expr?_of_decl? ((hbase.decl?_eq c).trans hd)
      rw [hs.slotWork_host hwft (hparallel.left.host c (hx.tail hchild) hexpr).1
          (hparallel.left.expr_host (hx.tail hchild) hexpr),
        hs'.slotWork_host hwft' (hparallel.right.host c hc' hexpr').1
          (hparallel.right.expr_host hc' hexpr'), ih c hchild (hx.tail hchild) hexpr]

/-- Applying what is staged keeps the trees parallel and counts as many changes on both sides. -/
theorem Parallel.apply :
    Parallel base base' (g.apply staged).2 (g'.apply staged').2
        ((g.follow fun id => staged.lookup id) ∘ f) ((g'.follow fun id => staged'.lookup id) ∘ f') ∧
      (g'.apply staged').1 = (g.apply staged).1 := by
  have hwft := hparallel.left.wellFormed
  have hwft' := hparallel.right.wellFormed
  refine ⟨⟨hparallel.left.trans (hs.rewired hwft), hparallel.right.trans (hs'.rewired hwft'),
    fun x c hx he hc => (hparallel.slot hbase hwf hs hs' hagree hx he hc).1⟩, ?_⟩
  rw [hs.count_apply hwft, hs'.count_apply hwft', hparallel.left.root_eq, hparallel.right.root_eq,
    hbase.root_eq]
  exact hparallel.work_eq hbase hwf hs hs' hagree .refl hwf.expr?_root

end Apply

end StackTemplate.Order
