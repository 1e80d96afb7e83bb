import Mathlib.Data.Finset.Card
import StackTemplate.Binding
import StackTemplate.Proofs.Fold.Declared
import StackTemplate.Proofs.Tree.Grafting

/-!
# The items of a tree

On a well-formed tree the walk over items and groups meets every declaration within reach
(`mem_namedItems`), and meets it once (`nodup_namedItems`). What it lists is the full name that the
groups around a declaration give it, wherever it stands among the items (`mem_namedItems_iff`).
-/

namespace StackTemplate

namespace Tree

variable {t : Tree} {x y c : NodeId} {name : String}

/-- Every declaration within reach has a full name. -/
def Named (t : Tree) : Prop :=
  ∀ x d, t.Reaches t.root x → t.decl? x = some d → d.fullName.isSome

/-! ### The walk over items -/

theorem mem_heldItems : c ∈ t.heldItems x ↔ (t.decl? x).isSome ∧ c ∈ t.itemSlots x := by
  rw [heldItems]
  cases hd : t.decl? x with
  | none => simp
  | some d =>
    rw [itemSlots, decl?_eq_some.mp hd]
    simp [NodeKind.itemSlots]

theorem heldItems_sublist (t : Tree) (x : NodeId) : (t.heldItems x).Sublist (t.children x) := by
  rw [heldItems]
  cases hd : t.decl? x with
  | none => exact List.nil_sublist _
  | some d =>
    rw [children_eq_append, itemSlots, decl?_eq_some.mp hd]
    exact List.sublist_append_right _ _

theorem module_items (hwf : t.WellFormed) : t.module.items = t.itemSlots t.root := by
  obtain ⟨m, hm⟩ := hwf.root_module
  rw [module, itemSlots, hm]
  rfl

/-- Neither node is below the other. -/
def Apart (t : Tree) (x y : NodeId) : Prop := ¬ t.Reaches x y ∧ ¬ t.Reaches y x

/-- What the walk lists is below what is pending, and nothing is listed twice. -/
theorem scopedItems_spec (hwf : t.WellFormed) (steps : Nat)
    (pending : List (NodeId × Option String)) (hreach : ∀ p ∈ pending, t.Reaches t.root p.1)
    (happart : (pending.map Prod.fst).Pairwise t.Apart) :
    (∀ item ∈ t.scopedItems steps pending, ∃ p ∈ pending, t.Reaches p.1 item.1) ∧
      ((t.scopedItems steps pending).map Prod.fst).Nodup := by
  induction steps generalizing pending with
  | zero => exact ⟨fun item h => absurd h List.not_mem_nil, List.nodup_nil⟩
  | succ steps ih =>
    match pending with
    | [] => exact ⟨fun item h => absurd h List.not_mem_nil, List.nodup_nil⟩
    | (x, scope) :: rest =>
      have hx := hreach (x, scope) (List.mem_cons_self ..)
      have hchild : ∀ c ∈ t.heldItems x, c ∈ t.children x :=
        fun c hc => (t.heldItems_sublist x).mem hc
      have hrest : ∀ p ∈ rest, t.Reaches t.root p.1 :=
        fun p hp => hreach p (List.mem_cons_of_mem _ hp)
      obtain ⟨hfirst, htail⟩ := List.pairwise_cons.mp happart
      let name := scopedName scope (t.localName x)
      have hnext : ∀ p ∈ (t.heldItems x).map (·, some name) ++ rest, t.Reaches t.root p.1 := by
        intro p hp
        rcases List.mem_append.mp hp with hp | hp
        · obtain ⟨c, hc, rfl⟩ := List.mem_map.mp hp
          exact hx.tail (hchild c hc)
        · exact hrest p hp
      have hapart :
          (((t.heldItems x).map (·, some name) ++ rest).map Prod.fst).Pairwise t.Apart := by
        have hid : ((t.heldItems x).map (·, some name)).map Prod.fst = t.heldItems x := by
          rw [List.map_map]
          exact List.map_id _
        rw [List.map_append, hid, List.pairwise_append]
        refine ⟨?_, htail, ?_⟩
        · -- Siblings are apart.
          refine List.Pairwise.imp_of_mem ?_ ((hwf.nodup hx).sublist (t.heldItems_sublist x))
          intro a b ha hb hne
          exact ⟨hwf.not_reaches_sibling hx (hchild a ha) (hchild b hb) hne,
            hwf.not_reaches_sibling hx (hchild b hb) (hchild a ha) hne.symm⟩
        · intro c hc r hr
          obtain ⟨p, hp, rfl⟩ := List.mem_map.mp hr
          obtain ⟨hxr, hrx⟩ := hfirst p.1 hr
          refine ⟨fun hcr => hxr (.head (hchild c hc) hcr), fun hrc => ?_⟩
          rcases hwf.reaches_or_reaches hx (hrest p hp) (.tail .refl (hchild c hc)) hrc with h | h
          · exact hxr h
          · exact hrx h
      -- What is left to list is below what `x` holds or below the rest, so `x` is not listed again.
      obtain ⟨hbelow, hnodup⟩ := ih _ hnext hapart
      rw [scopedItems]
      refine ⟨fun item hitem => ?_, ?_⟩
      · rcases List.mem_cons.mp hitem with rfl | hitem
        · exact ⟨(x, scope), List.mem_cons_self .., .refl⟩
        · obtain ⟨p, hp, hreach⟩ := hbelow item hitem
          rcases List.mem_append.mp hp with hp | hp
          · obtain ⟨c, hc, rfl⟩ := List.mem_map.mp hp
            exact ⟨(x, scope), List.mem_cons_self .., .head (hchild c hc) hreach⟩
          · exact ⟨p, List.mem_cons_of_mem _ hp, hreach⟩
      · rw [List.map_cons, List.nodup_cons]
        refine ⟨fun hmem => ?_, hnodup⟩
        obtain ⟨item, hitem, heq⟩ := List.mem_map.mp hmem
        obtain ⟨p, hp, hreach⟩ := hbelow item hitem
        rw [heq] at hreach
        rcases List.mem_append.mp hp with hp | hp
        · obtain ⟨c, hc, rfl⟩ := List.mem_map.mp hp
          exact hwf.acyclic hx (.head' (hchild c hc) hreach)
        · exact (hfirst p.1 (List.mem_map_of_mem hp)).2 hreach

/-- A walk that does not use up its steps lists everything pending and everything held. -/
theorem scopedItems_closed (steps : Nat) (pending : List (NodeId × Option String))
    (h : (t.scopedItems steps pending).length < steps) :
    (∀ p ∈ pending, p.1 ∈ (t.scopedItems steps pending).map Prod.fst) ∧
      ∀ x ∈ (t.scopedItems steps pending).map Prod.fst, ∀ c ∈ t.heldItems x,
        c ∈ (t.scopedItems steps pending).map Prod.fst := by
  induction steps generalizing pending with
  | zero => cases h
  | succ steps ih =>
    match pending with
    | [] => exact ⟨fun p hp => absurd hp List.not_mem_nil, fun x hx => absurd hx List.not_mem_nil⟩
    | (x, scope) :: rest =>
      rw [scopedItems] at h ⊢
      obtain ⟨hpending, hheld⟩ := ih _ (Nat.lt_of_succ_lt_succ h)
      rw [List.map_cons]
      refine ⟨fun p hp => ?_, fun y hy c hc => ?_⟩
      · rcases List.mem_cons.mp hp with rfl | hp
        · exact List.mem_cons_self ..
        · exact List.mem_cons_of_mem _ (hpending p (List.mem_append_right _ hp))
      · rcases List.mem_cons.mp hy with rfl | hy
        · refine List.mem_cons_of_mem _ (hpending (c, some (scopedName scope (t.localName y))) ?_)
          exact List.mem_append_left _ (List.mem_map_of_mem hc)
        · exact List.mem_cons_of_mem _ (hheld y hy c hc)

/-- What the pending items have with their full names and groups pass on, all listed items have. -/
theorem forall_scopedItems {P : NodeId → String → Prop}
    (hheld : ∀ x name, P x name → ∀ c ∈ t.heldItems x,
      P c (scopedName (some name) (t.localName c)))
    (steps : Nat) (pending : List (NodeId × Option String))
    (hpending : ∀ p ∈ pending, P p.1 (scopedName p.2 (t.localName p.1))) :
    ∀ item ∈ t.scopedItems steps pending, P item.1 item.2 := by
  induction steps generalizing pending with
  | zero => exact fun item h => absurd h List.not_mem_nil
  | succ steps ih =>
    match pending with
    | [] => exact fun item h => absurd h List.not_mem_nil
    | (x, scope) :: rest =>
      have hx := hpending (x, scope) (List.mem_cons_self ..)
      rw [scopedItems]
      intro item hitem
      rcases List.mem_cons.mp hitem with rfl | hitem
      · exact hx
      · refine ih _ (fun p hp => ?_) item hitem
        rcases List.mem_append.mp hp with hp | hp
        · obtain ⟨c, hc, rfl⟩ := List.mem_map.mp hp
          exact hheld x _ hx c hc
        · exact hpending p (List.mem_cons_of_mem _ hp)

/-- Items within reach are within reach and declarations. -/
theorem decl_of_itemSlot (hwf : t.WellFormed) (hx : t.Reaches t.root x) (hc : c ∈ t.itemSlots x) :
    t.Reaches t.root c ∧ (t.decl? c).isSome :=
  ⟨hx.tail (mem_children.mpr (.inr hc)), hwf.item_slot x c hx hc⟩

/-- The walk lists declarations within reach only. -/
theorem decl_of_namedItem (hwf : t.WellFormed) :
    ∀ item ∈ t.namedItems, t.Reaches t.root item.1 ∧ (t.decl? item.1).isSome := by
  refine forall_scopedItems (P := fun y _ => t.Reaches t.root y ∧ (t.decl? y).isSome)
    (fun y _ hy c hc => decl_of_itemSlot hwf hy.1 (mem_heldItems.mp hc).2) _ _ fun p hp => ?_
  obtain ⟨c, hc, rfl⟩ := List.mem_map.mp hp
  rw [module_items hwf] at hc
  exact decl_of_itemSlot hwf .refl hc

/-- The walk lists nothing twice. -/
theorem nodup_namedItems (hwf : t.WellFormed) : (t.namedItems.map Prod.fst).Nodup := by
  have hitems := module_items hwf
  have hmap : (t.module.items.map fun id => (id, (none : Option String))).map Prod.fst =
      t.itemSlots t.root := by
    rw [List.map_map, ← hitems]
    exact List.map_id _
  have hchild : ∀ c ∈ t.itemSlots t.root, c ∈ t.children t.root :=
    fun c hc => mem_children.mpr (.inr hc)
  refine (scopedItems_spec hwf _ _ (fun p hp => ?_) ?_).2
  · have hslot : p.1 ∈ t.itemSlots t.root := hmap ▸ List.mem_map_of_mem hp
    exact .tail .refl (hchild p.1 hslot)
  · rw [hmap]
    have hsublist : (t.itemSlots t.root).Sublist (t.children t.root) := by
      rw [children_eq_append]
      exact List.sublist_append_right _ _
    refine List.Pairwise.imp_of_mem ?_ ((hwf.nodup .refl).sublist hsublist)
    intro a b ha hb hne
    exact ⟨hwf.not_reaches_sibling .refl (hchild a ha) (hchild b hb) hne,
      hwf.not_reaches_sibling .refl (hchild b hb) (hchild a ha) hne.symm⟩

/-- The walk lists the declarations within reach. -/
theorem mem_namedItems (hwf : t.WellFormed) :
    x ∈ t.namedItems.map Prod.fst ↔ t.Reaches t.root x ∧ (t.decl? x).isSome := by
  have hitems := module_items hwf
  have hall := decl_of_namedItem hwf
  -- Nothing is listed twice, so the walk has steps to spare.
  have hlength : t.namedItems.length < t.size + 1 := by
    have hsubset : (t.namedItems.map Prod.fst).toFinset ⊆ Finset.range t.size := by
      intro y hy
      obtain ⟨item, hitem, rfl⟩ := List.mem_map.mp (List.mem_toFinset.mp hy)
      exact Finset.mem_range.mpr (hwf.lt_size (hall item hitem).1)
    have hcard := Finset.card_le_card hsubset
    rw [List.toFinset_card_of_nodup (nodup_namedItems hwf), List.length_map, Finset.card_range]
      at hcard
    exact Nat.lt_succ_of_le hcard
  obtain ⟨hpending, hheld⟩ := scopedItems_closed _ _ hlength
  constructor
  · intro hx
    obtain ⟨item, hitem, rfl⟩ := List.mem_map.mp hx
    exact hall item hitem
  · rintro ⟨hx, hd⟩
    induction hx with
    | refl =>
      rw [hwf.decl?_root] at hd
      cases hd
    | @tail p x hp hxp ih =>
      obtain ⟨d, hd⟩ := Option.isSome_iff_exists.mp hd
      have hxslot : x ∈ t.itemSlots p := by
        rcases mem_children.mp hxp with hslot | hslot
        · have := hwf.expr_slot p x hp hslot
          rw [expr?_of_decl? hd] at this
          cases this
        · exact hslot
      cases hpd : t.decl? p with
      | some d' =>
        have hsome := Option.isSome_of_eq_some hpd
        exact hheld p (ih hsome) x (mem_heldItems.mpr ⟨hsome, hxslot⟩)
      | none =>
        -- Only the root holds items without being a declaration.
        have hproot : p = t.root := by
          rcases Relation.ReflTransGen.cases_tail hp with heq | ⟨q, hq, hpq⟩
          · exact heq
          · rcases hwf.expr_or_decl hq hpq with he | hdecl
            · obtain ⟨e, he⟩ := Option.isSome_iff_exists.mp he
              rw [itemSlots_of_expr? he] at hxslot
              cases hxslot
            · rw [hpd] at hdecl
              cases hdecl
        rw [hproot, ← hitems] at hxslot
        exact hpending (x, none) (List.mem_map_of_mem hxslot)

/-! ### Full names -/

/-- The full name of an item, from the groups around it. -/
inductive HasName (t : Tree) : NodeId → String → Prop
  | top {x : NodeId} : x ∈ t.module.items → HasName t x (scopedName none (t.localName x))
  | held {y x : NodeId} {scope : String} : HasName t y scope → x ∈ t.heldItems y →
    HasName t x (scopedName (some scope) (t.localName x))

theorem HasName.declared (hwf : t.WellFormed) (h : HasName t x name) :
    t.Reaches t.root x ∧ (t.decl? x).isSome := by
  induction h with
  | top hx => exact decl_of_itemSlot hwf .refl (module_items hwf ▸ hx)
  | held _ hx ih => exact decl_of_itemSlot hwf ih.1 (mem_heldItems.mp hx).2

/-- Items hang below one node only, so they have one full name. -/
theorem HasName.unique {name' : String} (hwf : t.WellFormed) (h : HasName t x name)
    (h' : HasName t x name') : name' = name := by
  have hparent : ∀ {y x}, t.Reaches t.root y → x ∈ t.itemSlots y → t.parent? x = some y :=
    fun hy hx => hwf.parent_eq _ _ hy (mem_children.mpr (.inr hx))
  -- The module is no group, and no item hangs below both.
  have hapart : ∀ {y x scope}, x ∈ t.module.items → HasName t y scope → x ∉ t.heldItems y := by
    intro y x scope htop hy hx
    obtain ⟨hreach, hdecl⟩ := hy.declared hwf
    have hroot := hparent .refl (module_items hwf ▸ htop)
    rw [hparent hreach (mem_heldItems.mp hx).2, Option.some.injEq] at hroot
    rw [hroot, hwf.decl?_root] at hdecl
    cases hdecl
  induction h generalizing name' with
  | top hx =>
    cases h' with
    | top => rfl
    | held hy hx' => exact absurd hx' (hapart hx hy)
  | @held y x scope hy hx ih =>
    cases h' with
    | top hx' => exact absurd hx (hapart hx' hy)
    | @held z _ scope' hz hx' =>
      have hyz := hparent (hy.declared hwf).1 (mem_heldItems.mp hx).2
      rw [hparent (hz.declared hwf).1 (mem_heldItems.mp hx').2, Option.some.injEq] at hyz
      have hscope : scope' = scope := ih (hyz ▸ hz)
      rw [hscope]

/-- The walk over items lists the full name of every item. -/
theorem mem_namedItems_iff (hwf : t.WellFormed) : (x, name) ∈ t.namedItems ↔ HasName t x name := by
  have hlisted : ∀ item ∈ t.namedItems, HasName t item.1 item.2 := by
    refine forall_scopedItems (fun y scope hy c hc => .held hy hc) _ _ fun p hp => ?_
    obtain ⟨c, hc, rfl⟩ := List.mem_map.mp hp
    exact .top hc
  -- An item with a name is listed, and under no other name.
  refine ⟨hlisted (x, name), fun h => ?_⟩
  obtain ⟨item, hitem, rfl⟩ := List.mem_map.mp ((mem_namedItems hwf).mpr (h.declared hwf))
  rw [(hlisted item hitem).unique hwf h]
  exact hitem

end Tree

end StackTemplate
