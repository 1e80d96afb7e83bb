import StackTemplate.Proofs.Tree.Relabelling
import StackTemplate.Proofs.Tree.Rewiring

/-!
# Keeping items, and changing one node

`KeepsItems` is what all passes have in common: whatever they do to expressions, the module and its
declarations stay in their slots and keep their names.

`Grafts` is a change of the expressions that a single node holds, who may get new ones. It keeps a
tree well formed.
-/

namespace StackTemplate

namespace Tree

variable {t t' t'' g g' : Tree} {x z : NodeId}

/-- The second tree has the items of the first, in the same slots and under the same names. -/
structure KeepsItems (t t' : Tree) : Prop where
  root_eq : t'.root = t.root
  host : ∀ p, t.Reaches t.root p → t.expr? p = none →
    t'.Reaches t'.root p ∧ t'.expr? p = none ∧ t'.itemSlots p = t.itemSlots p
  decl : ∀ p d, t.Reaches t.root p → t.decl? p = some d → ∃ d', t'.decl? p = some d' ∧
    d'.localName = d.localName ∧ ∀ name, d.fullName = some name → d'.fullName = some name
  /-- No item comes in. -/
  old_host : ∀ p, t'.Reaches t'.root p → t'.expr? p = none →
    t.Reaches t.root p ∧ t.expr? p = none

theorem KeepsItems.refl (t : Tree) : KeepsItems t t :=
  ⟨rfl, fun _ hp he => ⟨hp, he, rfl⟩, fun _ d _ hd => ⟨d, hd, rfl, fun _ h => h⟩,
    fun _ hp he => ⟨hp, he⟩⟩

theorem KeepsItems.trans (h : KeepsItems t t') (h' : KeepsItems t' t'') : KeepsItems t t'' where
  root_eq := h'.root_eq.trans h.root_eq
  host p hp he := by
    obtain ⟨hp', he', hslots⟩ := h.host p hp he
    obtain ⟨hp'', he'', hslots'⟩ := h'.host p hp' he'
    exact ⟨hp'', he'', hslots'.trans hslots⟩
  decl p d hp hd := by
    obtain ⟨d', hd', hlocal, hfull⟩ := h.decl p d hp hd
    obtain ⟨d'', hd'', hlocal', hfull'⟩ :=
      h'.decl p d' (h.host p hp (expr?_of_decl? hd)).1 hd'
    exact ⟨d'', hd'', hlocal'.trans hlocal, fun name hname => hfull' name (hfull name hname)⟩
  old_host p hp he := by
    obtain ⟨hp', he'⟩ := h'.old_host p hp he
    exact h.old_host p hp' he'

/-- Items that stay in their slots stay within reach. -/
theorem KeepsItems.ofSlots (hwf : t.WellFormed) (hwf' : t'.WellFormed) (root_eq : t'.root = t.root)
    (host : ∀ p, t.Reaches t.root p → t.expr? p = none →
      t'.expr? p = none ∧ t'.itemSlots p = t.itemSlots p)
    (decl : ∀ p d, t.Reaches t.root p → t.decl? p = some d → ∃ d', t'.decl? p = some d' ∧
      d'.localName = d.localName ∧ ∀ name, d.fullName = some name → d'.fullName = some name) :
    KeepsItems t t' where
  root_eq := root_eq
  decl := decl
  host p hp he := by
    refine ⟨?_, host p hp he⟩
    rw [root_eq]
    induction hp with
    | refl => exact .refl
    | @tail q p hq hqp ih =>
      -- What holds an item is no expression either, so it is within reach by the hypothesis.
      have hqe : t.expr? q = none := hwf.expr_none_of_child hq hqp he
      refine (ih hqe).tail (mem_children.mpr (.inr ?_))
      rw [(host q hq hqe).2]
      rcases mem_children.mp hqp with hslot | hslot
      · have := hwf.expr_slot q p hq hslot
        rw [he] at this
        cases this
      · exact hslot
  old_host p hp he := by
    rw [root_eq] at hp
    induction hp with
    | refl => exact ⟨.refl, hwf.expr?_root⟩
    | @tail q p hq hqp ih =>
      have hq' : t'.Reaches t'.root q := by rwa [root_eq]
      -- The item is in a slot that was there before.
      obtain ⟨hqt, hqe⟩ := ih (hwf'.expr_none_of_child hq' hqp he)
      rcases mem_children.mp hqp with hslot | hslot
      · have := hwf'.expr_slot q p hq' hslot
        rw [he] at this
        cases this
      · rw [(host q hqt hqe).2] at hslot
        obtain ⟨d, hd⟩ := Option.isSome_iff_exists.mp (hwf.item_slot q p hqt hslot)
        exact ⟨hqt.tail (mem_children.mpr (.inr hslot)), expr?_of_decl? hd⟩

theorem Sprouting.keepsItems {s : Tree} (h : Sprouting t s) (hwf : t.WellFormed) : KeepsItems t s := by
  refine .ofSlots hwf (h.wellFormed hwf) h.root_eq (fun p hp he => ?_) fun p d hp hd => ?_
  · have hlt := hwf.lt_size hp
    exact ⟨(h.expr?_eq hlt).trans he, (h.slots_eq hlt).2⟩
  · obtain ⟨d', hd', hlabels⟩ := h.decl hd
    exact ⟨d', hd', hlabels.localName_eq, hlabels.fullName⟩

theorem Relabelled.keepsItems (h : Relabelled t t') (hwf : t.WellFormed) : KeepsItems t t' :=
  ((Sprouting.refl t).relabel h).keepsItems hwf

theorem Rewired.keepsItems {f : NodeId → NodeId} (h : Rewired t t' f) (hwf : t.WellFormed) :
    KeepsItems t t' := by
  refine .ofSlots hwf h.wellFormed h.root_eq (fun p hp he => ?_) fun p d hp hd => ?_
  · exact ⟨h.expr_host hp he, (h.slots hwf hp he).2⟩
  · have hd' := h.decl?_host hp (expr?_of_decl? hd)
    rw [hd, Option.map_some] at hd'
    exact ⟨d.mapSlots f, hd', rfl, fun _ hname => hname⟩

/-! ### Changing one node -/

/-- The second tree is the first but for the expressions that `x` holds and for the new nodes `N`,
which are expressions. Old ones may hang below a new one. -/
structure Grafts (g g' : Tree) (x : NodeId) (N : NodeId → Prop) : Prop where
  root_eq : g'.root = g.root
  root_parent : g'.parent? g'.root = none
  kind_eq : ∀ z, g.Reaches g.root z → z ≠ x → g'.kind? z = g.kind? z
  expr_iff : (g'.expr? x).isSome ↔ (g.expr? x).isSome
  decl : ∀ d, g.decl? x = some d → ∃ d', g'.decl? x = some d' ∧ d'.localName = d.localName ∧
    d'.fullName = d.fullName
  items_eq : g'.itemSlots x = g.itemSlots x
  slot : ∀ c ∈ g'.exprSlots x, N c ∨ c ∈ g.exprSlots x
  nodup : (g'.children x).Nodup
  parent_slot : ∀ c ∈ g'.children x, g'.parent? c = some x
  parent_eq : ∀ p c, g.Reaches g.root p → p ≠ x → c ∈ g.children p → g'.parent? c = some p
  new_expr : ∀ z, N z → (g'.expr? z).isSome
  new_nodup : ∀ z, N z → (g'.children z).Nodup
  new_child : ∀ z c, N z → c ∈ g'.children z →
    g'.parent? c = some z ∧ (N c ∨ g.Reaches g.root c ∧ (g.expr? c).isSome)

namespace Grafts

variable {N : NodeId → Prop} (h : Grafts g g' x N) (hwf : g.WellFormed)
  (hx : g.Reaches g.root x) (hroot : x ≠ g.root)

include h hwf hx

omit hwf in
/-- What is within reach afterwards was so before, or is new. -/
theorem reaches_or (hz : g'.Reaches g'.root z) : g.Reaches g.root z ∨ N z := by
  rw [h.root_eq] at hz
  induction hz with
  | refl => exact .inl .refl
  | @tail p c hp hc ih =>
    rcases ih with hreach | hnew
    · by_cases hpx : p = x
      · subst hpx
        rcases mem_children.mp hc with hslot | hslot
        · rcases h.slot c hslot with hnew | hold
          · exact .inr hnew
          · exact .inl (hx.tail (mem_children.mpr (.inl hold)))
        · rw [h.items_eq] at hslot
          exact .inl (hx.tail (mem_children.mpr (.inr hslot)))
      · rw [children_congr (h.kind_eq p hreach hpx)] at hc
        exact .inl (hreach.tail hc)
    · rcases (h.new_child p c hnew hc).2 with hnew | hold
      · exact .inr hnew
      · exact .inl hold.1

omit hwf hx in
theorem expr_of_old (hz : g.Reaches g.root z) (he : (g.expr? z).isSome) :
    (g'.expr? z).isSome := by
  by_cases hzx : z = x
  · subst hzx
    exact h.expr_iff.mpr he
  · rwa [expr?_congr (h.kind_eq z hz hzx)]

omit hwf hx in
theorem decl_of_old {d : Decl} (hz : g.Reaches g.root z) (hd : g.decl? z = some d) :
    ∃ d', g'.decl? z = some d' ∧ d'.localName = d.localName ∧ d'.fullName = d.fullName := by
  by_cases hzx : z = x
  · subst hzx
    exact h.decl d hd
  · rw [← decl?_congr (h.kind_eq z hz hzx)] at hd
    exact ⟨d, hd, rfl, rfl⟩

/-- The changed node stays within reach, for nothing above it changes. -/
theorem reaches_node : g'.Reaches g'.root x := by
  have habove : ∀ z, g.Reaches g.root z → z = x ∨ ¬ g.Reaches x z → g'.Reaches g.root z := by
    intro z hz
    induction hz with
    | refl => exact fun _ => .refl
    | @tail p z hp hz ih =>
      intro hbelow
      have hpx : ¬ g.Reaches x p := by
        intro hxp
        rcases hbelow with rfl | hbelow
        · exact hwf.acyclic hx (Relation.TransGen.tail' hxp hz)
        · exact hbelow (hxp.tail hz)
      have hne : p ≠ x := fun heq => hpx (heq ▸ .refl)
      rw [← children_congr (h.kind_eq p hp hne)] at hz
      exact (ih (.inr hpx)).tail hz
  rw [h.root_eq]
  exact habove x hx (.inl rfl)

include hroot

/-- A graft keeps a tree well formed. -/
theorem wellFormed : g'.WellFormed := by
  obtain ⟨m, hm⟩ := hwf.root_module
  refine .ofLinks ⟨m, ?_⟩ h.root_parent (fun p hp => ?_) (fun p c hp hc => ?_)
    (fun p c hp hc => ?_) fun p c hp hc => ?_
  · rw [h.root_eq, h.kind_eq g.root .refl hroot.symm, hm]
  -- Each link is that of a new node, or of an old one, which has its old slots unless it is `x`.
  all_goals
    rcases h.reaches_or hx hp with hreach | hnew
    rotate_left
  · exact h.new_nodup p hnew
  · by_cases hpx : p = x
    · rw [hpx]
      exact h.nodup
    · rw [children_congr (h.kind_eq p hreach hpx)]
      exact hwf.nodup hreach
  · exact (h.new_child p c hnew hc).1
  · by_cases hpx : p = x
    · subst hpx
      exact h.parent_slot c hc
    · rw [children_congr (h.kind_eq p hreach hpx)] at hc
      exact h.parent_eq p c hreach hpx hc
  · rcases (h.new_child p c hnew (mem_children.mpr (.inl hc))).2 with hnew | hold
    · exact h.new_expr c hnew
    · exact h.expr_of_old hold.1 hold.2
  · have hslot : N c ∨ c ∈ g.exprSlots p := by
      by_cases hpx : p = x
      · subst hpx
        exact h.slot c hc
      · rw [exprSlots_congr (h.kind_eq p hreach hpx)] at hc
        exact .inr hc
    rcases hslot with hnew | hslot
    · exact h.new_expr c hnew
    · exact h.expr_of_old (hreach.tail (mem_children.mpr (.inl hslot)))
        (hwf.expr_slot p c hreach hslot)
  · obtain ⟨e, he⟩ := Option.isSome_iff_exists.mp (h.new_expr p hnew)
    rw [itemSlots_of_expr? he] at hc
    cases hc
  · have hslot : c ∈ g.itemSlots p := by
      by_cases hpx : p = x
      · subst hpx
        rwa [← h.items_eq]
      · rwa [← itemSlots_congr (h.kind_eq p hreach hpx)]
    obtain ⟨d, hd⟩ := Option.isSome_iff_exists.mp (hwf.item_slot p c hreach hslot)
    obtain ⟨d', hd', -⟩ := h.decl_of_old (hreach.tail (mem_children.mpr (.inr hslot))) hd
    exact Option.isSome_of_eq_some hd'

theorem keepsItems : KeepsItems g g' := by
  refine .ofSlots hwf (h.wellFormed hwf hx hroot) h.root_eq (fun p hp he => ?_) fun p d hp hd => ?_
  · by_cases hpx : p = x
    · subst hpx
      refine ⟨?_, h.items_eq⟩
      rw [← Option.not_isSome_iff_eq_none] at he ⊢
      rwa [h.expr_iff]
    · have hkind := h.kind_eq p hp hpx
      exact ⟨(expr?_congr hkind).trans he, itemSlots_congr hkind⟩
  · obtain ⟨d', hd', hlocal, hfull⟩ := h.decl_of_old hp hd
    exact ⟨d', hd', hlocal, fun name hname => hfull.trans hname⟩

end Grafts

/-! ### Hanging a new expression below a node -/

/-- Adds an expression, gives the node `x` another content, and hangs the expression below it. -/
def hang (g : Tree) (x : NodeId) (kind : NodeKind) (e : Expr) (span : Span) : Tree :=
  ((g.addExpr e span).2.setKind x kind).link x g.size

variable (kind : NodeKind) {e : Expr} (span : Span)

theorem kind?_hang (e : Expr) (hx : x < g.size) (z : NodeId) :
    (g.hang x kind e span).kind? z =
      if z = x then some kind else if z = g.size then some (.expr e) else g.kind? z := by
  rw [hang, kind?_link, kind?_setKind, addExpr, size_add]
  by_cases hz : z = x
  · rw [if_pos ⟨hz.symm, hz ▸ Nat.lt_succ_of_lt hx⟩, if_pos hz]
  · rw [if_neg fun h => hz h.1.symm, if_neg hz, kind?_add]

theorem parent?_hang (x : NodeId) (hchild : ∀ c ∈ e.children, c < g.size) (z : NodeId) :
    (g.hang x kind e span).parent? z =
      if z = g.size then some x else if z ∈ e.children then some g.size else g.parent? z := by
  have hadd := parent?_add g (.expr e) span z
  rw [hang, parent?_link, parent?_setKind, size_setKind, addExpr, size_add, hadd]
  by_cases hz : z = g.size
  · rw [if_pos ⟨hz.symm, hz ▸ Nat.lt_succ_self _⟩, if_pos hz]
  · rw [if_neg fun h => hz h.1.symm, if_neg hz]
    by_cases hc : z ∈ e.children
    · rw [if_pos ⟨hc, Nat.lt_succ_of_lt (hchild z hc)⟩, if_pos hc]
    · rw [if_neg fun h => hc h.1, if_neg hc]

theorem size_hang (x : NodeId) (e : Expr) : (g.hang x kind e span).size = g.size + 1 := by
  rw [hang, size_link, size_setKind, addExpr, size_add]

theorem span_hang (x : NodeId) (e : Expr) (hz : z < g.size) :
    (g.hang x kind e span).span z = g.span z := by
  rw [hang, span_link, span_setKind, addExpr, span_add_of_lt hz]

/-- A new expression in a slot of `x` may take other slots of `x` with it. -/
theorem Grafts.hang {kind old : NodeKind} (span : Span) (hwf : g.WellFormed)
    (hx : g.Reaches g.root x) (hold : g.kind? x = some old)
    (hsort : kind.expr?.isSome ↔ old.expr?.isSome)
    (hdecl : ∀ d, old = .decl d → ∃ d', kind = .decl d' ∧ d'.localName = d.localName ∧
      d'.fullName = d.fullName)
    (hitems : kind.itemSlots = old.itemSlots) (hnodup : kind.children.Nodup)
    (hslot : ∀ c ∈ kind.exprSlots, c = g.size ∨ c ∈ old.exprSlots ∧ c ∉ e.children)
    (hadopt : ∀ c ∈ e.children, c ∈ old.exprSlots) (hadopt_nodup : e.children.Nodup) :
    Grafts g (g.hang x kind e span) x (· = g.size) := by
  have hlt := hwf.lt_size hx
  have hexprSlots : g.exprSlots x = old.exprSlots := by
    rw [exprSlots, hold]
    rfl
  have hitemSlots : g.itemSlots x = old.itemSlots := by
    rw [itemSlots, hold]
    rfl
  have hslot_child : ∀ c ∈ old.exprSlots, c ∈ g.children x :=
    fun c hc => mem_children.mpr (.inl (hexprSlots ▸ hc))
  have hchild : ∀ c ∈ e.children, c < g.size :=
    fun c hc => hwf.lt_size (hx.tail (hslot_child c (hadopt c hc)))
  have hkind := kind?_hang kind span e hlt
  have hparent := parent?_hang kind span x hchild
  have hself : (g.hang x kind e span).kind? x = some kind := by rw [hkind, if_pos rfl]
  have hnew : (g.hang x kind e span).kind? g.size = some (.expr e) := by
    rw [hkind, if_neg (Nat.ne_of_gt hlt), if_pos rfl]
  have hroot : (g.hang x kind e span).root = g.root := by
    rw [Tree.hang, root_link, root_setKind, addExpr, root_add]
  -- Whatever hangs below an old node, but for what `e` takes, stays there.
  have hstays : ∀ p c, g.Reaches g.root p → c ∈ g.children p → c ∉ e.children →
      (g.hang x kind e span).parent? c = some p := by
    intro p c hp hc hnot
    have hc' := hwf.lt_size (hp.tail hc)
    rw [hparent, if_neg (Nat.ne_of_lt hc'), if_neg hnot, hwf.parent_eq p c hp hc]
  refine
    { root_eq := ?_, root_parent := ?_, kind_eq := ?_, expr_iff := ?_, decl := ?_, items_eq := ?_,
      slot := ?_, nodup := ?_, parent_slot := ?_, parent_eq := ?_, new_expr := ?_, new_nodup := ?_,
      new_child := ?_ }
  · exact hroot
  · rw [hroot, hparent, if_neg (Nat.ne_of_lt (hwf.lt_size .refl)), if_neg, hwf.root_parent]
    intro hmem
    have hroot_parent := hwf.parent_eq x g.root hx (hslot_child g.root (hadopt g.root hmem))
    rw [hwf.root_parent] at hroot_parent
    cases hroot_parent
  · intro z hz hne
    rw [hkind, if_neg hne, if_neg (Nat.ne_of_lt (hwf.lt_size hz))]
  · rw [expr?, expr?, hself, hold]
    exact hsort
  · intro d hd
    rw [decl?_eq_some.mp hd] at hold
    obtain ⟨d', hd', hnames⟩ := hdecl d (Option.some.inj hold).symm
    exact ⟨d', decl?_eq_some.mpr (hself.trans (congrArg some hd')), hnames⟩
  · rw [hitemSlots, itemSlots, hself]
    exact hitems
  · intro c hc
    rw [exprSlots, hself] at hc
    rw [hexprSlots]
    exact (hslot c hc).imp_right And.left
  · rw [children_of_kind? hself]
    exact hnodup
  · intro c hc
    rw [children_of_kind? hself, NodeKind.children_eq_append, List.mem_append] at hc
    rcases hc with hc | hc
    · rcases hslot c hc with rfl | ⟨hc, hnot⟩
      · rw [hparent, if_pos rfl]
      · exact hstays x c hx (hslot_child c hc) hnot
    · rw [hitems, ← hitemSlots] at hc
      refine hstays x c hx (mem_children.mpr (.inr hc)) fun hmem => ?_
      have hexpr := hwf.expr_slot x c hx (hexprSlots ▸ hadopt c hmem)
      obtain ⟨d, hd⟩ := Option.isSome_iff_exists.mp (hwf.item_slot x c hx hc)
      rw [expr?_of_decl? hd] at hexpr
      cases hexpr
  · intro p c hp hne hc
    refine hstays p c hp hc fun hmem => hne ?_
    exact hwf.eq_of_mem_children hp hx hc (hslot_child c (hadopt c hmem))
  · rintro z rfl
    rw [expr?, hnew]
    rfl
  · rintro z rfl
    rw [children_of_kind? hnew]
    exact hadopt_nodup
  · rintro z c rfl hc
    rw [children_of_kind? hnew] at hc
    have hc : c ∈ e.children := hc
    have hmem := hslot_child c (hadopt c hc)
    refine ⟨?_, .inr ⟨hx.tail hmem, hwf.expr_slot x c hx (hexprSlots ▸ hadopt c hc)⟩⟩
    rw [hparent, if_neg (Nat.ne_of_lt (hchild c hc)), if_pos hc]

end Tree

end StackTemplate
