import StackTemplate.Proofs.Tree.Staging

/-!
# Applying what is staged

Applied to a well-formed tree, staged replacements give a well-formed tree
(`Staged.wellFormed_apply`). Only expressions are replaced: the module and the declarations stay
where they are, and keep all but the content of their expression slots (`Rewired`).
-/

namespace StackTemplate

namespace Tree

variable {t t' t'' g s s' : Tree} {staged : Replacements} {owner f f' : NodeId → NodeId}
  {x y z c p : NodeId}

/-! ### Nodes with rewritten slots -/

theorem exprSlots_mapSlots {f : NodeId → NodeId}
    (h : t'.kind? x = (t.kind? x).map (NodeKind.mapSlots f)) :
    t'.exprSlots x = (t.exprSlots x).map f := by
  rw [exprSlots, exprSlots, h]
  cases t.kind? x with
  | none => rfl
  | some kind => exact NodeKind.exprSlots_mapSlots f kind

theorem itemSlots_mapSlots {f : NodeId → NodeId}
    (h : t'.kind? x = (t.kind? x).map (NodeKind.mapSlots f)) :
    t'.itemSlots x = (t.itemSlots x).map f := by
  rw [itemSlots, itemSlots, h]
  cases t.kind? x with
  | none => rfl
  | some kind => exact NodeKind.itemSlots_mapSlots f kind

/-! ### What is within reach afterwards -/

/-- An old node that stays, or a new one whose owner is replaced. -/
def Placed (t : Tree) (staged : Replacements) (g : Tree) (owner : NodeId → NodeId)
    (z : NodeId) : Prop :=
  z < t.size ∧ t.Reaches t.root z ∧ staged.lookup z = none ∨
    t.size ≤ z ∧ z < g.size ∧ t.Remade staged (owner z)

section Apply

variable (h : Staged t staged g owner) (hwf : t.WellFormed)

include h hwf

/-- The content of a slot of a node that is within reach afterwards is old and was within reach, or
new. -/
theorem Staged.child_of_placed (hp : Placed t staged g owner p) (hc : c ∈ g.children p) :
    c < t.size ∧ t.Reaches t.root c ∨
      t.size ≤ c ∧ c < g.size ∧ t.Remade staged (owner c) := by
  rcases hp with ⟨hlt, hreach, hnone⟩ | ⟨hle, hlt, hremade⟩
  · rw [h.children_old hwf hreach] at hc
    exact .inl ⟨hwf.lt_size (hreach.tail hc), hreach.tail hc⟩
  · by_cases hold : c < t.size
    · obtain ⟨hmem, hremade⟩ := h.child_old p c hle hc hold
      obtain ⟨y, hy, -⟩ := hremade
      exact .inl ⟨hold, (h.reaches_of_key hwf hy).tail hmem⟩
    · have hcnew := Nat.le_of_not_lt hold
      refine .inr ⟨hcnew, Nat.lt_trans (h.child p c hle hc).1 hlt, ?_⟩
      rw [h.child_new p c hle hc hcnew]
      exact hremade

theorem Staged.placed_follow (hp : Placed t staged g owner p) (hc : c ∈ g.children p) :
    Placed t staged g owner (g.follow (fun id => staged.lookup id) c) := by
  rcases h.child_of_placed hwf hp hc with ⟨hlt, hreach⟩ | ⟨hle, hlt, hremade⟩
  · obtain ⟨w, -, hw, ⟨hnone, hfollow⟩ | ⟨y, hy, hle, hlt, howner, hfollow⟩⟩ :=
      h.follow_old hwf hreach
    · rw [hfollow]
      exact .inl ⟨hwf.lt_size hw, hw, hnone⟩
    · rw [hfollow]
      exact .inr ⟨hle, hlt, howner ▸ ⟨y, hy, hle⟩⟩
  · rw [h.follow_new hwf hle]
    exact .inr ⟨hle, hlt, hremade⟩

theorem Staged.placed_root : Placed t staged g owner t.root := by
  exact .inl ⟨hwf.lt_size .refl, .refl, h.lookup_of_not_expr hwf hwf.expr?_root⟩

theorem Staged.placed (hp : g.ReachesAfter (fun id => staged.lookup id) g.root p) :
    Placed t staged g owner p := by
  induction hp with
  | refl =>
    rw [h.keeps.root_eq]
    exact h.placed_root hwf
  | tail _ hstep ih =>
    obtain ⟨c, hc, rfl⟩ := mem_slotsAfter.mp hstep
    exact h.placed_follow hwf ih hc

/-- What a node within reach afterwards holds hangs below it. -/
theorem Staged.parent_of_placed (hp : Placed t staged g owner p) (hc : c ∈ g.children p) :
    g.parent? c = some p := by
  rcases hp with ⟨-, hreach, hnone⟩ | ⟨hle, -, -⟩
  · rw [h.children_old hwf hreach] at hc
    rw [h.parent_eq c (hwf.lt_size (hreach.tail hc)), hwf.parent_eq p c hreach hc]
    rintro x ⟨y, hy, -⟩ hcx
    rw [hwf.eq_of_mem_children (h.reaches_of_key hwf hy) hreach hcx hc, hnone] at hy
    cases hy
  · exact (h.child p c hle hc).2

/-- The content of a slot within reach afterwards is not an operand that replaces its
expression. -/
theorem Staged.not_lifts (hp : Placed t staged g owner p) (hc : c ∈ g.children p)
    (hlt : c < t.size) (hx : t.Reaches t.root x) : ¬ Lifts t staged x c := by
  rintro ⟨hr, hmem⟩
  rcases hp with ⟨-, hreach, hnone⟩ | ⟨hle, -, -⟩
  · rw [h.children_old hwf hreach] at hc
    rw [hwf.eq_of_mem_children hx hreach hmem hc, hnone] at hr
    cases hr
  · obtain ⟨hmem', y, hy, hley⟩ := h.child_old p c hle hc hlt
    rw [← hwf.eq_of_mem_children hx (h.reaches_of_key hwf hy) hmem hmem', hr] at hy
    rw [← Option.some.inj hy] at hley
    exact Nat.not_le.mpr hlt hley

omit h hwf in
theorem reaches_of_lifts (hxy : Relation.ReflTransGen (Lifts t staged) x y) : t.Reaches x y := by
  induction hxy with
  | refl => exact .refl
  | tail _ hl ih => exact ih.tail hl.2

omit h in
/-- Of two nodes that are lifted to one, one is lifted to the other. -/
theorem lifts_or_lifts {a b : NodeId} (ha : t.Reaches t.root a) (hb : t.Reaches t.root b)
    (hax : Relation.ReflTransGen (Lifts t staged) a x)
    (hbx : Relation.ReflTransGen (Lifts t staged) b x) :
    Relation.ReflTransGen (Lifts t staged) a b ∨ Relation.ReflTransGen (Lifts t staged) b a := by
  induction hax with
  | refl => exact .inr hbx
  | @tail y x hay hyx ih =>
    rcases Relation.ReflTransGen.cases_tail hbx with rfl | ⟨z, hbz, hzx⟩
    · exact .inl (hay.tail hyx)
    · have hyz : y = z := hwf.eq_of_mem_children (ha.trans (reaches_of_lifts hay))
        (hb.trans (reaches_of_lifts hbz)) hyx.2 hzx.2
      exact ih (hyz ▸ hbz)

/-- No two slots within reach afterwards lead to one node. -/
theorem Staged.follow_inj {q d : NodeId} (hp : Placed t staged g owner p)
    (hc : c ∈ g.children p) (hq : Placed t staged g owner q) (hd : d ∈ g.children q)
    (heq : g.follow (fun id => staged.lookup id) c = g.follow (fun id => staged.lookup id) d) :
    c = d := by
  -- A new node in a slot has a parent, a new node that replaces an expression has none.
  have hmixed : ∀ {p q c d : NodeId}, Placed t staged g owner p → c ∈ g.children p →
      Placed t staged g owner q → d ∈ g.children q → t.Reaches t.root c → t.size ≤ d →
      g.follow (fun id => staged.lookup id) c ≠ g.follow (fun id => staged.lookup id) d := by
    intro p q c d hp hc hq hd hreach hle heq
    rw [h.follow_new hwf hle] at heq
    obtain ⟨w, -, hw, ⟨-, hfollow⟩ | ⟨y, hy, hley, -, -, hfollow⟩⟩ := h.follow_old hwf hreach
    · rw [← heq, hfollow] at hle
      exact Nat.not_le.mpr (hwf.lt_size hw) hle
    · rw [hfollow] at heq
      rcases h.value w y hy with hmem | ⟨-, -, hparent, -⟩
      · exact Nat.not_le.mpr (hwf.lt_size (hw.tail hmem)) hley
      · rw [heq, h.parent_of_placed hwf hq hd] at hparent
        cases hparent
  rcases h.child_of_placed hwf hp hc with ⟨hclt, hcreach⟩ | ⟨hcle, -, -⟩
  · rcases h.child_of_placed hwf hq hd with ⟨hdlt, hdreach⟩ | ⟨hdle, -, -⟩
    · obtain ⟨w, hcw, hw, hcend⟩ := h.follow_old hwf hcreach
      obtain ⟨v, hdv, hv, hdend⟩ := h.follow_old hwf hdreach
      have hwv : w = v := by
        rcases hcend with ⟨-, hcf⟩ | ⟨y, -, hle, -, howner, hcf⟩ <;>
          rcases hdend with ⟨-, hdf⟩ | ⟨y', -, hle', -, howner', hdf⟩ <;>
          rw [hcf, hdf] at heq
        · exact heq
        · exact absurd (hwf.lt_size hw) (Nat.not_lt.mpr (heq ▸ hle'))
        · exact absurd (hwf.lt_size hv) (Nat.not_lt.mpr (heq ▸ hle))
        · rw [← howner, ← howner', heq]
      subst hwv
      -- One slot content is lifted to the other only if they are the same.
      have hend : ∀ {p c d : NodeId}, Placed t staged g owner p → c ∈ g.children p →
          c < t.size → t.Reaches t.root d → Relation.ReflTransGen (Lifts t staged) d c →
          d = c := by
        intro p c d hp hc hlt hd hdc
        rcases Relation.ReflTransGen.cases_tail hdc with heq | ⟨x, hdx, hxc⟩
        · exact heq.symm
        · have hx : t.Reaches t.root x := hd.trans (reaches_of_lifts hdx)
          exact absurd hxc (h.not_lifts hwf hp hc hlt hx)
      rcases lifts_or_lifts hwf hcreach hdreach hcw hdv with hcd | hdc
      · exact hend hq hd hdlt hcreach hcd
      · exact (hend hp hc hclt hdreach hdc).symm
    · exact absurd heq (hmixed hp hc hq hd hcreach hdle)
  · rcases h.child_of_placed hwf hq hd with ⟨hdlt, hdreach⟩ | ⟨hdle, -, -⟩
    · exact absurd heq.symm (hmixed hq hd hp hc hdreach hcle)
    · rwa [h.follow_new hwf hcle, h.follow_new hwf hdle] at heq

/-- The root hangs below nothing, and nothing is replaced by it. -/
theorem Staged.root_parent : g.parent? g.root = none := by
  rw [h.keeps.root_eq, h.parent_eq t.root (hwf.lt_size .refl), hwf.root_parent]
  rintro x ⟨y, hy, -⟩ hmem
  have := hwf.parent_eq x t.root (h.reaches_of_key hwf hy) hmem
  rw [hwf.root_parent] at this
  cases this

theorem Staged.follow_ne_root (hp : Placed t staged g owner p) (hc : c ∈ g.children p) :
    g.follow (fun id => staged.lookup id) c ≠ g.root := by
  have hlt : t.root < t.size := hwf.lt_size .refl
  rw [h.keeps.root_eq]
  rcases h.child_of_placed hwf hp hc with ⟨hclt, hreach⟩ | ⟨hle, -, -⟩
  · obtain ⟨w, hcw, hw, ⟨-, hfollow⟩ | ⟨y, -, hle, -, -, hfollow⟩⟩ := h.follow_old hwf hreach
    · rw [hfollow]
      rintro rfl
      rcases Relation.ReflTransGen.cases_tail hcw with heq | ⟨x, hcx, hxw⟩
      · have hparent := h.parent_of_placed hwf hp hc
        rw [← heq, ← h.keeps.root_eq, h.root_parent hwf] at hparent
        cases hparent
      · have hx : t.Reaches t.root x := hreach.trans (reaches_of_lifts hcx)
        have hparent := hwf.parent_eq x t.root hx hxw.2
        rw [hwf.root_parent] at hparent
        cases hparent
    · rw [hfollow]
      exact fun heq => Nat.not_le.mpr hlt (heq ▸ hle)
  · rw [h.follow_new hwf hle]
    exact fun heq => Nat.not_le.mpr hlt (heq ▸ hle)

theorem Staged.separates : g.Separates fun id => staged.lookup id where
  settles := by
    rw [h.keeps.root_eq]
    exact h.settles hwf .refl
  root_parent := h.root_parent hwf
  linked _ _ hp hc := h.parent_of_placed hwf (h.placed hwf hp) hc
  inj _ _ _ _ hp hc hq hd := h.follow_inj hwf (h.placed hwf hp) hc (h.placed hwf hq) hd
  ne_root _ _ hp hc := h.follow_ne_root hwf (h.placed hwf hp) hc

/-! ### The tree afterwards -/

/-- The tree afterwards has every slot within reach filled with where its content leads. -/
theorem Staged.kind_apply (hz : g.ReachesAfter (fun id => staged.lookup id) g.root z) :
    (g.apply staged).2.kind? z =
      (g.kind? z).map (NodeKind.mapSlots (g.follow fun id => staged.lookup id)) :=
  kind?_apply (h.separates hwf).settles hz

theorem Staged.expr?_apply {e : Expr}
    (hz : g.ReachesAfter (fun id => staged.lookup id) g.root z) (he : g.expr? z = some e) :
    (g.apply staged).2.expr? z = some (e.mapSlots (g.follow fun id => staged.lookup id)) := by
  rw [expr?, h.kind_apply hwf hz, expr?_eq_some.mp he]
  rfl

theorem Staged.children_apply (hz : g.ReachesAfter (fun id => staged.lookup id) g.root z) :
    (g.apply staged).2.children z = g.slotsAfter (fun id => staged.lookup id) z :=
  Tree.children_apply (h.separates hwf).settles hz

theorem Staged.root_apply : (g.apply staged).2.root = t.root :=
  (h.separates hwf).apply.1.root_eq.trans h.keeps.root_eq

theorem Staged.span_apply (z : NodeId) : (g.apply staged).2.span z = g.span z :=
  (h.separates hwf).apply.1.span_eq z

/-- What is below a node in the tree afterwards. -/
theorem Staged.reaches_apply_of_reaches
    (hx : g.ReachesAfter (fun id => staged.lookup id) g.root x) :
    (g.apply staged).2.Reaches x z ↔ g.ReachesAfter (fun id => staged.lookup id) x z :=
  Tree.reaches_apply (h.separates hwf).settles hx

theorem Staged.reaches_apply : (g.apply staged).2.Reaches (g.apply staged).2.root z ↔
    g.ReachesAfter (fun id => staged.lookup id) g.root z :=
  reaches_root_apply (h.separates hwf).settles

/-- Declarations are not replaced. -/
theorem Staged.follow_decl {d : Decl} (hc : t.Reaches t.root c) (hd : t.decl? c = some d) :
    g.follow (fun id => staged.lookup id) c = c := by
  exact follow_of_none (h.settles hwf hc) (h.lookup_of_not_expr hwf (expr?_of_decl? hd))

/-- Expressions are replaced by expressions. -/
theorem Staged.expr_follow (hc : t.Reaches t.root c) (he : (t.expr? c).isSome) :
    (g.expr? (g.follow (fun id => staged.lookup id) c)).isSome := by
  obtain ⟨w, hcw, hw, ⟨-, hfollow⟩ | ⟨y, -, hle, hlt, -, hfollow⟩⟩ := h.follow_old hwf hc
  · rw [hfollow, expr?_congr (h.keeps.kind_eq w (hwf.lt_size hw))]
    exact hwf.expr_of_reaches hc he (reaches_of_lifts hcw)
  · rw [hfollow]
    exact h.expr y hle hlt

/-- Slots for expressions are filled with expressions afterwards. -/
theorem Staged.expr_of_exprSlot (hp : Placed t staged g owner p) (hc : c ∈ g.exprSlots p) :
    (g.expr? (g.follow (fun id => staged.lookup id) c)).isSome := by
  have hchild : c ∈ g.children p := mem_children.mpr (.inl hc)
  rcases h.child_of_placed hwf hp hchild with ⟨hlt, hreach⟩ | ⟨hle, hlt, -⟩
  · refine h.expr_follow hwf hreach ?_
    rcases hp with ⟨hplt, hpreach, -⟩ | ⟨hple, -, -⟩
    · rw [exprSlots_congr (h.keeps.kind_eq p hplt)] at hc
      exact hwf.expr_slot p c hpreach hc
    · obtain ⟨hmem, y, hy, -⟩ := h.child_old p c hple hchild hlt
      have hkey := hwf.mem_exprs.mp (h.key _ y hy).1
      exact hwf.expr_of_child hkey.1 hkey.2 hmem
  · rw [h.follow_new hwf hle]
    exact h.expr c hle hlt

/-- Only an old node holds items, and these are not replaced. -/
theorem Staged.decl_of_itemSlot (hp : Placed t staged g owner p) (hc : c ∈ g.itemSlots p) :
    t.Reaches t.root c ∧ ∃ d, t.decl? c = some d := by
  rcases hp with ⟨hplt, hpreach, -⟩ | ⟨hple, hplt, -⟩
  · rw [itemSlots_congr (h.keeps.kind_eq p hplt)] at hc
    exact ⟨hpreach.tail (mem_children.mpr (.inr hc)),
      Option.isSome_iff_exists.mp (hwf.item_slot p c hpreach hc)⟩
  · obtain ⟨e, he⟩ := Option.isSome_iff_exists.mp (h.expr p hple hplt)
    rw [itemSlots_of_expr? he] at hc
    exact absurd hc List.not_mem_nil

/-- Applying what is staged keeps a tree well formed. -/
theorem Staged.wellFormed_apply : (g.apply staged).2.WellFormed := by
  obtain ⟨-, hroot, -, hparent⟩ := (h.separates hwf).apply
  have hplaced : ∀ {p}, g.ReachesAfter (fun id => staged.lookup id) g.root p →
      Placed t staged g owner p := fun hp => h.placed hwf hp
  refine .ofLinks ?_ ?_ (fun p hp => ?_) (fun p c' hp hc' => ?_) (fun p c' hp hc' => ?_)
    (fun p c' hp hc' => ?_)
  · obtain ⟨m, hm⟩ := hwf.root_module
    have hkind := h.kind_apply hwf (z := g.root) .refl
    rw [h.keeps.root_eq, h.keeps.kind_eq _ (lt_size_of_kind? hm), hm] at hkind
    rw [h.root_apply hwf]
    exact ⟨_, hkind⟩
  · rw [h.root_apply hwf, ← h.keeps.root_eq]
    exact hroot
  -- What a slot holds afterwards is what its former content leads to.
  all_goals rw [h.reaches_apply hwf] at hp
  · rw [h.children_apply hwf hp, slotsAfter]
    refine List.Nodup.map_on (fun c hc d hd heq => ?_) ?_
    · exact h.follow_inj hwf (hplaced hp) hc (hplaced hp) hd heq
    · rcases hplaced hp with ⟨-, hreach, -⟩ | ⟨hle, -, -⟩
      · rw [h.children_old hwf hreach]
        exact hwf.nodup hreach
      · exact h.nodup p hle
  · rw [h.children_apply hwf hp] at hc'
    obtain ⟨c, hc, rfl⟩ := mem_slotsAfter.mp hc'
    exact hparent p c hp hc
  · rw [exprSlots_mapSlots (h.kind_apply hwf hp)] at hc'
    obtain ⟨c, hc, rfl⟩ := List.mem_map.mp hc'
    have hafter := hp.tail (mem_slotsAfter.mpr ⟨c, mem_children.mpr (.inl hc), rfl⟩)
    obtain ⟨e, he⟩ := Option.isSome_iff_exists.mp (h.expr_of_exprSlot hwf (hplaced hp) hc)
    rw [h.expr?_apply hwf hafter he]
    rfl
  · rw [itemSlots_mapSlots (h.kind_apply hwf hp)] at hc'
    obtain ⟨c, hc, rfl⟩ := List.mem_map.mp hc'
    have hafter := hp.tail (mem_slotsAfter.mpr ⟨c, mem_children.mpr (.inr hc), rfl⟩)
    obtain ⟨hreach, d, hd⟩ := h.decl_of_itemSlot hwf (hplaced hp) hc
    rw [h.follow_decl hwf hreach hd] at hafter ⊢
    rw [decl?, h.kind_apply hwf hafter, h.keeps.kind_eq c (hwf.lt_size hreach),
      decl?_eq_some.mp hd]
    rfl

/-- A node that is no expression stays within reach. -/
theorem Staged.reaches_host (hx : t.Reaches t.root x) (he : t.expr? x = none) :
    g.ReachesAfter (fun id => staged.lookup id) g.root x := by
  rw [h.keeps.root_eq]
  induction hx with
  | refl => exact .refl
  | @tail p x hp hxp ih =>
    have hpe : t.expr? p = none := hwf.expr_none_of_child hp hxp he
    have hd : (t.decl? x).isSome := by
      rcases hwf.expr_or_decl hp hxp with hxe | hd
      · rw [he] at hxe
        cases hxe
      · exact hd
    obtain ⟨d, hd⟩ := Option.isSome_iff_exists.mp hd
    refine (ih hpe).tail (mem_slotsAfter.mpr ⟨x, ?_, h.follow_decl hwf (hp.tail hxp) hd⟩)
    rwa [h.children_old hwf hp]

/-- A node that is no expression keeps its content but for what its slots hold. -/
theorem Staged.kind_host (hx : t.Reaches t.root x) (he : t.expr? x = none) :
    (g.apply staged).2.kind? x =
      (t.kind? x).map (NodeKind.mapSlots (g.follow fun id => staged.lookup id)) := by
  rw [h.kind_apply hwf (h.reaches_host hwf hx he), h.keeps.kind_eq x (hwf.lt_size hx)]

/-- Nodes within reach afterwards that are no expressions were within reach before. -/
theorem Staged.host_of_reaches (hx : (g.apply staged).2.Reaches (g.apply staged).2.root x)
    (he : (g.apply staged).2.expr? x = none) : t.Reaches t.root x ∧ t.expr? x = none := by
  rw [h.reaches_apply hwf] at hx
  have hg : g.expr? x = none := by
    rw [expr?, h.kind_apply hwf hx] at he
    rw [expr?]
    cases hk : g.kind? x with
    | none => rfl
    | some kind =>
      rw [hk, Option.map_some, Option.bind_some, NodeKind.expr?_mapSlots,
        Option.map_eq_none_iff] at he
      exact he
  rcases h.placed hwf hx with ⟨hlt, hreach, -⟩ | ⟨hle, hlt, -⟩
  · rw [expr?_congr (h.keeps.kind_eq x hlt)] at hg
    exact ⟨hreach, hg⟩
  · have := h.expr x hle hlt
    rw [hg] at this
    cases this

end Apply

/-! ### What a pass leaves alone -/

/-- The second tree is the first with the contents of slots led elsewhere by `f`, but not the
items. -/
structure Rewired (t t' : Tree) (f : NodeId → NodeId) : Prop where
  wellFormed : t'.WellFormed
  root_eq : t'.root = t.root
  /-- The module and the declarations stay within reach and change in their slots only. -/
  host : ∀ x, t.Reaches t.root x → t.expr? x = none →
    t'.Reaches t'.root x ∧ t'.kind? x = (t.kind? x).map (NodeKind.mapSlots f)
  item : ∀ c d, t.Reaches t.root c → t.decl? c = some d → f c = c
  /-- No module and no declaration comes in. -/
  old_host : ∀ x, t'.Reaches t'.root x → t'.expr? x = none →
    t.Reaches t.root x ∧ t.expr? x = none

theorem Staged.rewired (h : Staged t staged g owner) (hwf : t.WellFormed) :
    Rewired t (g.apply staged).2 (g.follow fun id => staged.lookup id) where
  wellFormed := h.wellFormed_apply hwf
  root_eq := h.root_apply hwf
  host _ hx he := ⟨(h.reaches_apply hwf).mpr (h.reaches_host hwf hx he), h.kind_host hwf hx he⟩
  item _ _ hc hd := h.follow_decl hwf hc hd
  old_host _ hx he := h.host_of_reaches hwf hx he

theorem Rewired.refl (hwf : t.WellFormed) : Rewired t t id where
  wellFormed := hwf
  root_eq := rfl
  host x hx _ := by
    refine ⟨hx, ?_⟩
    cases t.kind? x with
    | none => rfl
    | some kind => rw [Option.map_some, mapSlots_id]
  item _ _ _ _ := rfl
  old_host _ hx he := ⟨hx, he⟩

theorem Rewired.expr_host (h : Rewired t t' f) (hx : t.Reaches t.root x) (he : t.expr? x = none) :
    t'.expr? x = none := by
  rw [expr?, (h.host x hx he).2]
  rw [expr?] at he
  cases hk : t.kind? x with
  | none => rfl
  | some kind =>
    rw [hk, Option.bind_some] at he
    rw [Option.map_some, Option.bind_some, NodeKind.expr?_mapSlots, he, Option.map_none]

theorem Rewired.decl?_host (h : Rewired t t' f) (hx : t.Reaches t.root x) (he : t.expr? x = none) :
    t'.decl? x = (t.decl? x).map (Decl.mapSlots f) := by
  rw [decl?, decl?, (h.host x hx he).2]
  cases t.kind? x with
  | none => rfl
  | some kind => exact NodeKind.decl?_mapSlots f kind

/-- No declaration is lost and none comes in. -/
theorem Rewired.declares (h : Rewired t t' f) (x : NodeId) :
    t'.Reaches t'.root x ∧ (t'.decl? x).isSome ↔ t.Reaches t.root x ∧ (t.decl? x).isSome := by
  constructor
  · rintro ⟨hx, hd⟩
    obtain ⟨d, hd'⟩ := Option.isSome_iff_exists.mp hd
    obtain ⟨hold, he⟩ := h.old_host x hx (expr?_of_decl? hd')
    rw [h.decl?_host hold he, Option.isSome_map] at hd
    exact ⟨hold, hd⟩
  · rintro ⟨hx, hd⟩
    obtain ⟨d, hd'⟩ := Option.isSome_iff_exists.mp hd
    rw [h.decl?_host hx (expr?_of_decl? hd'), Option.isSome_map]
    exact ⟨(h.host x hx (expr?_of_decl? hd')).1, hd⟩

theorem Rewired.trans {t'' : Tree} {f' : NodeId → NodeId} (h : Rewired t t' f)
    (h' : Rewired t' t'' f') : Rewired t t'' (f' ∘ f) where
  wellFormed := h'.wellFormed
  root_eq := h'.root_eq.trans h.root_eq
  host x hx he := by
    obtain ⟨hx', hkind⟩ := h.host x hx he
    obtain ⟨hx'', hkind'⟩ := h'.host x hx' (h.expr_host hx he)
    refine ⟨hx'', ?_⟩
    rw [hkind', hkind, Option.map_map]
    refine congrArg (fun g => (t.kind? x).map g) (funext fun kind => ?_)
    exact NodeKind.mapSlots_mapSlots f f' kind
  item c d hc hd := by
    have hexpr : t.expr? c = none := expr?_of_decl? hd
    obtain ⟨hc', hkind⟩ := h.host c hc hexpr
    rw [decl?_eq_some.mp hd] at hkind
    show f' (f c) = c
    rw [h.item c d hc hd]
    exact h'.item c _ hc' (decl?_eq_some.mpr hkind)
  old_host x hx he := by
    obtain ⟨hx', he'⟩ := h'.old_host x hx he
    exact h.old_host x hx' he'

/-- Slots for expressions change by `f`, slots for items do not change. -/
theorem Rewired.slots (h : Rewired t t' f) (hwf : t.WellFormed) (hx : t.Reaches t.root x)
    (he : t.expr? x = none) :
    t'.exprSlots x = (t.exprSlots x).map f ∧ t'.itemSlots x = t.itemSlots x := by
  have hkind := (h.host x hx he).2
  refine ⟨exprSlots_mapSlots hkind, ?_⟩
  rw [itemSlots_mapSlots hkind]
  conv_rhs => rw [← List.map_id (t.itemSlots x)]
  refine List.map_congr_left fun c hc => ?_
  obtain ⟨d, hd⟩ := Option.isSome_iff_exists.mp (hwf.item_slot x c hx hc)
  exact h.item c d (hx.tail (mem_children.mpr (.inr hc))) hd

end Tree

end StackTemplate
