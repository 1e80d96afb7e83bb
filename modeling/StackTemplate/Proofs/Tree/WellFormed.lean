import Mathlib.Data.List.Nodup
import StackTemplate.Proofs.Tree.Listing
import StackTemplate.Proofs.Tree.Slots

/-!
# Well-formed trees

A tree is well formed if everything within reach of the root hangs in exactly one slot, below the
node that its parent link names, and every slot holds what belongs there. Nothing is said about
nodes out of reach.

Parent links are functions, so a node that hangs where its link says cannot hang anywhere else:
`WellFormed.ofLinks` gets uniqueness from the links. It also follows that no way down runs in a
circle (`WellFormed.grounded`): going up by the links from any node within reach leads to the root.
-/

namespace StackTemplate

namespace Tree

variable {t : Tree} {p c x : NodeId}

/-- The children of a node that must be expressions. -/
def exprSlots (t : Tree) (id : NodeId) : List NodeId :=
  ((t.kind? id).map NodeKind.exprSlots).getD []

/-- The children of a node that must be declarations. -/
def itemSlots (t : Tree) (id : NodeId) : List NodeId :=
  ((t.kind? id).map NodeKind.itemSlots).getD []

/-- A tree in which every node within reach has one place, and one that fits it. -/
structure WellFormed (t : Tree) : Prop where
  /-- The root is a module. -/
  root_module : ∃ m, t.kind? t.root = some (.module m)
  /-- The root hangs below nothing. -/
  root_parent : t.parent? t.root = none
  /-- Every other node within reach is in exactly one slot of exactly one node within reach. -/
  slot_unique : ∀ x, t.Reaches t.root x → x ≠ t.root →
    ∃! slot : NodeId × Nat, t.Reaches t.root slot.1 ∧ (t.children slot.1)[slot.2]? = some x
  /-- It hangs below the node of that slot. -/
  parent_eq : ∀ p c, t.Reaches t.root p → c ∈ t.children p → t.parent? c = some p
  /-- Slots for expressions hold expressions. -/
  expr_slot : ∀ p c, t.Reaches t.root p → c ∈ t.exprSlots p → (t.expr? c).isSome
  /-- Slots for items hold declarations. -/
  item_slot : ∀ p c, t.Reaches t.root p → c ∈ t.itemSlots p → (t.decl? c).isSome

theorem children_eq_append (t : Tree) (x : NodeId) :
    t.children x = t.exprSlots x ++ t.itemSlots x := by
  rw [children, exprSlots, itemSlots]
  cases t.kind? x with
  | none => rfl
  | some kind => exact kind.children_eq_append

theorem mem_children : c ∈ t.children p ↔ c ∈ t.exprSlots p ∨ c ∈ t.itemSlots p := by
  rw [children_eq_append, List.mem_append]

/-- The content of a node decides its slots for expressions. -/
theorem exprSlots_congr {t' : Tree} {y : NodeId} (h : t'.kind? y = t.kind? x) :
    t'.exprSlots y = t.exprSlots x := by
  rw [exprSlots, exprSlots, h]

/-- The content of a node decides its slots for items. -/
theorem itemSlots_congr {t' : Tree} {y : NodeId} (h : t'.kind? y = t.kind? x) :
    t'.itemSlots y = t.itemSlots x := by
  rw [itemSlots, itemSlots, h]

theorem exprSlots_of_expr? {e : Expr} (h : t.expr? x = some e) : t.exprSlots x = e.children := by
  rw [exprSlots, expr?_eq_some.mp h]
  rfl

theorem itemSlots_of_expr? {e : Expr} (h : t.expr? x = some e) : t.itemSlots x = [] := by
  rw [itemSlots, expr?_eq_some.mp h]
  rfl

/-- Below a node, nodes that hang where their parent links say, in different slots, have one slot
each. -/
theorem existsUnique_slot {y : NodeId} (nodup : ∀ p, t.Reaches x p → (t.children p).Nodup)
    (parent_eq : ∀ p c, t.Reaches x p → c ∈ t.children p → t.parent? c = some p)
    (hy : t.Reaches x y) (hne : y ≠ x) :
    ∃! slot : NodeId × Nat, t.Reaches x slot.1 ∧ (t.children slot.1)[slot.2]? = some y := by
  rcases Relation.ReflTransGen.cases_tail hy with heq | ⟨p, hp, hyp⟩
  · exact absurd heq hne
  obtain ⟨i, hi⟩ := List.mem_iff_getElem?.mp hyp
  refine ⟨(p, i), ⟨hp, hi⟩, ?_⟩
  rintro ⟨q, j⟩ ⟨hq, hj⟩
  -- Both slots are slots of the node that the parent link names.
  have hpq : q = p := by
    have hqy := parent_eq q y hq (List.mem_of_getElem? hj)
    have hpy := parent_eq p y hp hyp
    rw [hpy] at hqy
    exact (Option.some.inj hqy).symm
  subst hpq
  have hlt : j < (t.children q).length := (List.getElem?_eq_some_iff.mp hj).1
  have hij : j = i := (List.getElem?_inj hlt (nodup q hq)).mp (hj.trans hi.symm)
  rw [hij]

/-- Nodes that hang where their parent links say, in different slots, make a tree. -/
theorem WellFormed.ofLinks (root_module : ∃ m, t.kind? t.root = some (.module m))
    (root_parent : t.parent? t.root = none)
    (nodup : ∀ p, t.Reaches t.root p → (t.children p).Nodup)
    (parent_eq : ∀ p c, t.Reaches t.root p → c ∈ t.children p → t.parent? c = some p)
    (expr_slot : ∀ p c, t.Reaches t.root p → c ∈ t.exprSlots p → (t.expr? c).isSome)
    (item_slot : ∀ p c, t.Reaches t.root p → c ∈ t.itemSlots p → (t.decl? c).isSome) :
    t.WellFormed where
  root_module := root_module
  root_parent := root_parent
  parent_eq := parent_eq
  expr_slot := expr_slot
  item_slot := item_slot
  slot_unique _ hx hne := existsUnique_slot nodup parent_eq hx hne

/-- It is enough to look at all nodes, within reach or not. -/
theorem WellFormed.ofAll {m : Module} (root_module : t.kind? t.root = some (.module m))
    (root_parent : t.parent? t.root = none)
    (all : ∀ p < t.size, (t.children p).Nodup ∧ (∀ c ∈ t.children p, t.parent? c = some p) ∧
      (∀ c ∈ t.exprSlots p, (t.expr? c).isSome) ∧ ∀ c ∈ t.itemSlots p, (t.decl? c).isSome) :
    t.WellFormed := by
  have hlt : ∀ p, t.Reaches t.root p → p < t.size := by
    intro p hp
    rcases Relation.ReflTransGen.cases_tail hp with heq | ⟨q, -, hpq⟩
    · rw [heq]
      exact lt_size_of_kind? root_module
    · obtain ⟨-, -, hexpr, hitem⟩ := all q (lt_size_of_mem_children hpq)
      rcases mem_children.mp hpq with hslot | hslot
      · obtain ⟨e, he⟩ := Option.isSome_iff_exists.mp (hexpr p hslot)
        exact lt_size_of_expr? he
      · obtain ⟨d, hd⟩ := Option.isSome_iff_exists.mp (hitem p hslot)
        exact lt_size_of_decl? hd
  exact .ofLinks ⟨m, root_module⟩ root_parent (fun p hp => (all p (hlt p hp)).1)
    (fun p c hp => (all p (hlt p hp)).2.1 c) (fun p c hp => (all p (hlt p hp)).2.2.1 c)
    (fun p c hp => (all p (hlt p hp)).2.2.2 c)

namespace WellFormed

/-- No node within reach holds the same child twice. -/
theorem nodup (h : t.WellFormed) (hp : t.Reaches t.root p) : (t.children p).Nodup := by
  rw [List.nodup_iff_injective_get]
  intro i j hij
  have hx : t.Reaches t.root ((t.children p).get i) := hp.tail (List.get_mem _ i)
  have hparent := h.parent_eq p _ hp (List.get_mem _ i)
  have hne : (t.children p).get i ≠ t.root := by
    intro heq
    rw [heq, h.root_parent] at hparent
    exact absurd hparent (by simp)
  obtain ⟨slot, -, huniq⟩ := h.slot_unique _ hx hne
  have hi := huniq (p, i) ⟨hp, by simp⟩
  have hj := huniq (p, j) ⟨hp, by rw [hij]; simp⟩
  have := hi.trans hj.symm
  exact Fin.ext (Prod.mk.inj this).2

/-- A node is the child of one node within reach only. -/
theorem eq_of_mem_children (h : t.WellFormed) {q : NodeId} (hp : t.Reaches t.root p)
    (hq : t.Reaches t.root q) (hcp : c ∈ t.children p) (hcq : c ∈ t.children q) : p = q := by
  have hparent := h.parent_eq p c hp hcp
  rw [h.parent_eq q c hq hcq] at hparent
  exact (Option.some.inj hparent).symm

/-- A child of a node within reach is an expression or a declaration. -/
theorem expr_or_decl (h : t.WellFormed) (hp : t.Reaches t.root p) (hc : c ∈ t.children p) :
    (t.expr? c).isSome ∨ (t.decl? c).isSome := by
  rcases mem_children.mp hc with hc | hc
  · exact .inl (h.expr_slot p c hp hc)
  · exact .inr (h.item_slot p c hp hc)

theorem lt_size (h : t.WellFormed) (hx : t.Reaches t.root x) : x < t.size := by
  rcases Relation.ReflTransGen.cases_tail hx with heq | ⟨p, hp, hxp⟩
  · obtain ⟨m, hm⟩ := h.root_module
    rw [heq]
    exact lt_size_of_kind? hm
  · rcases h.expr_or_decl hp hxp with he | hd
    · obtain ⟨e, he⟩ := Option.isSome_iff_exists.mp he
      exact lt_size_of_expr? he
    · obtain ⟨d, hd⟩ := Option.isSome_iff_exists.mp hd
      exact lt_size_of_decl? hd

theorem expr?_root (h : t.WellFormed) : t.expr? t.root = none := by
  obtain ⟨m, hm⟩ := h.root_module
  rw [expr?, hm]
  rfl

theorem decl?_root (h : t.WellFormed) : t.decl? t.root = none := by
  obtain ⟨m, hm⟩ := h.root_module
  rw [decl?, hm]
  rfl

theorem ne_root_of_decl? {d : Decl} (h : t.WellFormed) (hd : t.decl? x = some d) : x ≠ t.root := by
  rintro rfl
  rw [h.decl?_root] at hd
  cases hd

theorem ne_root_of_expr? {e : Expr} (h : t.WellFormed) (he : t.expr? x = some e) : x ≠ t.root := by
  rintro rfl
  rw [h.expr?_root] at he
  cases he

/-- Going up from a node within reach never comes back to it. -/
theorem acyclic (h : t.WellFormed) (hx : t.Reaches t.root x) :
    ¬ Relation.TransGen (fun p c => c ∈ t.children p) x x := by
  induction hx with
  | refl =>
    intro hcycle
    obtain ⟨q, hq, hback⟩ := Relation.TransGen.tail'_iff.mp hcycle
    have := h.parent_eq q t.root hq hback
    rw [h.root_parent] at this
    cases this
  | @tail p x hp hxp ih =>
    intro hcycle
    obtain ⟨q, hq, hback⟩ := Relation.TransGen.tail'_iff.mp hcycle
    -- The node before `x` on the circle is the parent of `x`, which would lie on it too.
    have hreach : t.Reaches t.root q := (Reaches.tail hp hxp).trans hq
    have hpq : p = q := h.eq_of_mem_children hp hreach hxp hback
    exact ih (.head' hxp (hpq ▸ hq))

/-- Every way down in a well-formed tree ends. -/
theorem grounded (h : t.WellFormed) : t.Grounded t.root :=
  grounded_of_acyclic (fun _ hy => h.lt_size hy) (fun _ hy => h.acyclic hy)

theorem grounded_of_reaches (h : t.WellFormed) (hx : t.Reaches t.root x) : t.Grounded x :=
  h.grounded.descend hx

theorem mem_exprs (h : t.WellFormed) :
    x ∈ t.exprs ↔ t.Reaches t.root x ∧ (t.expr? x).isSome :=
  Tree.mem_exprs h.grounded

theorem mem_decls (h : t.WellFormed) :
    x ∈ t.decls ↔ t.Reaches t.root x ∧ (t.decl? x).isSome :=
  Tree.mem_decls h.grounded

/-! ### No node is listed twice -/

/-- Of two nodes above a third, one is above the other. -/
theorem reaches_or_reaches (h : t.WellFormed) {a b : NodeId} (ha : t.Reaches t.root a)
    (hb : t.Reaches t.root b) (hax : t.Reaches a x) (hbx : t.Reaches b x) :
    t.Reaches a b ∨ t.Reaches b a := by
  induction hax with
  | refl => exact .inr hbx
  | @tail y x hay hyx ih =>
    rcases Relation.ReflTransGen.cases_tail hbx with rfl | ⟨z, hbz, hzx⟩
    · exact .inl (hay.tail hyx)
    · have hyz : y = z := h.eq_of_mem_children (ha.trans hay) (hb.trans hbz) hyx hzx
      exact ih (hyz ▸ hbz)

/-- What is below one child is not below another. -/
theorem not_reaches_sibling (h : t.WellFormed) {a b : NodeId} (hp : t.Reaches t.root p)
    (ha : a ∈ t.children p) (hb : b ∈ t.children p) (hne : a ≠ b) : ¬ t.Reaches a b := by
  intro hab
  rcases Relation.ReflTransGen.cases_tail hab with heq | ⟨y, hay, hyb⟩
  · exact hne heq.symm
  · have hpy : p = y := h.eq_of_mem_children hp ((hp.tail ha).trans hay) hb hyb
    exact h.acyclic hp (.head' ha (hpy ▸ hay))

theorem nodup_descendants (h : t.WellFormed) (hp : t.Reaches t.root p) :
    (t.descendants p).Nodup := by
  have hgrounded := h.grounded_of_reaches hp
  induction hgrounded with
  | @intro p lt below ih =>
    rw [descendants_eq (.intro lt below), List.nodup_cons, List.nodup_flatMap]
    refine ⟨fun hmem => ?_, fun c hc => ih c hc (hp.tail hc), ?_⟩
    · obtain ⟨c, hc, hpc⟩ := List.mem_flatMap.mp hmem
      exact h.acyclic hp (.head' hc ((mem_descendants (below c hc)).mp hpc))
    · refine (h.nodup hp).imp_of_mem fun {a b} ha hb hne => ?_
      intro z hza hzb
      have hra := (mem_descendants (below a ha)).mp hza
      have hrb := (mem_descendants (below b hb)).mp hzb
      rcases h.reaches_or_reaches (hp.tail ha) (hp.tail hb) hra hrb with hab | hba
      · exact h.not_reaches_sibling hp ha hb hne hab
      · exact h.not_reaches_sibling hp hb ha hne.symm hba

theorem nodup_reachable (h : t.WellFormed) : t.reachable.Nodup :=
  h.nodup_descendants .refl

theorem nodup_exprs (h : t.WellFormed) : t.exprs.Nodup :=
  h.nodup_reachable.filter _

theorem nodup_decls (h : t.WellFormed) : t.decls.Nodup :=
  h.nodup_reachable.filter _

/-! ### Expressions hold expressions -/

theorem expr_of_child (h : t.WellFormed) (hp : t.Reaches t.root p) (he : (t.expr? p).isSome)
    (hc : c ∈ t.children p) : (t.expr? c).isSome := by
  obtain ⟨e, he⟩ := Option.isSome_iff_exists.mp he
  apply h.expr_slot p c hp
  rwa [exprSlots_of_expr? he, ← children_of_expr? he]

theorem mem_exprs_of_child (h : t.WellFormed) (hp : p ∈ t.exprs) (hc : c ∈ t.children p) :
    c ∈ t.exprs := by
  obtain ⟨hreach, hexpr⟩ := h.mem_exprs.mp hp
  exact h.mem_exprs.mpr ⟨hreach.tail hc, h.expr_of_child hreach hexpr hc⟩

/-- Below an expression there are only expressions. -/
theorem expr_of_reaches (h : t.WellFormed) (hp : t.Reaches t.root p) (he : (t.expr? p).isSome)
    (hx : t.Reaches p x) : (t.expr? x).isSome := by
  induction hx with
  | refl => exact he
  | tail hpy hyx ih => exact h.expr_of_child (hp.trans hpy) ih hyx

theorem expr_none_of_child (h : t.WellFormed) (hp : t.Reaches t.root p) (hc : c ∈ t.children p)
    (he : t.expr? c = none) : t.expr? p = none := by
  rw [← Option.not_isSome_iff_eq_none]
  intro hpe
  have := h.expr_of_child hp hpe hc
  rw [he] at this
  cases this

/-- Every expression within reach is below a slot of the module or a declaration. -/
theorem exists_slot (h : t.WellFormed) (hx : t.Reaches t.root x) (he : (t.expr? x).isSome) :
    ∃ p c, t.Reaches t.root p ∧ t.expr? p = none ∧ c ∈ t.exprSlots p ∧ t.Reaches c x := by
  induction hx with
  | refl =>
    rw [h.expr?_root] at he
    cases he
  | @tail p x hp hxp ih =>
    cases hpe : t.expr? p with
    | none =>
      refine ⟨p, x, hp, hpe, ?_, .refl⟩
      rcases mem_children.mp hxp with hslot | hslot
      · exact hslot
      · obtain ⟨d, hd⟩ := Option.isSome_iff_exists.mp (h.item_slot p x hp hslot)
        rw [expr?, decl?_eq_some.mp hd] at he
        cases he
    | some e =>
      obtain ⟨q, c, hq, hqe, hc, hcp⟩ := ih (by rw [hpe]; rfl)
      exact ⟨q, c, hq, hqe, hc, hcp.tail hxp⟩

/-- An expression is below the slots of one node only, the module or a declaration. -/
theorem eq_of_slots (h : t.WellFormed) {p' c' z : NodeId} (hp : t.Reaches t.root p)
    (hp' : t.Reaches t.root p') (hpe : t.expr? p = none) (hpe' : t.expr? p' = none)
    (hc : c ∈ t.exprSlots p) (hc' : c' ∈ t.exprSlots p') (hz : t.Reaches c z)
    (hz' : t.Reaches c' z) : p = p' ∧ c = c' := by
  -- By symmetry it is enough that the one slot is above the other.
  have habove : ∀ {p p' c c'}, t.Reaches t.root p → t.Reaches t.root p' → t.expr? p' = none →
      c ∈ t.exprSlots p → c' ∈ t.exprSlots p' → t.Reaches c c' → p = p' ∧ c = c' := by
    intro p p' c c' hp hp' hpe' hc hc' hcc
    have hslot := mem_children.mpr (.inl hc : c ∈ t.exprSlots p ∨ _)
    have hslot' := mem_children.mpr (.inl hc' : c' ∈ t.exprSlots p' ∨ _)
    have hparent' := h.parent_eq p' c' hp' hslot'
    rcases Relation.ReflTransGen.cases_tail hcc with rfl | ⟨q, hcq, hqc⟩
    · exact ⟨Option.some.inj ((h.parent_eq p c' hp hslot).symm.trans hparent'), rfl⟩
    · have hq : t.Reaches t.root q := (hp.tail hslot).trans hcq
      obtain rfl := Option.some.inj ((h.parent_eq q c' hq hqc).symm.trans hparent')
      have hexpr := h.expr_of_reaches (hp.tail hslot) (h.expr_slot p c hp hc) hcq
      rw [hpe'] at hexpr
      cases hexpr
  have hreach := hp.tail (mem_children.mpr (.inl hc))
  have hreach' := hp'.tail (mem_children.mpr (.inl hc'))
  rcases h.reaches_or_reaches hreach hreach' hz hz' with hcc | hcc
  · exact habove hp hp' hpe' hc hc' hcc
  · obtain ⟨hpp, hcc⟩ := habove hp' hp hpe hc' hc hcc
    exact ⟨hpp.symm, hcc.symm⟩

end WellFormed

end Tree

end StackTemplate
