import StackTemplate.Proofs.Tree.WellFormed
import StackTemplate.Tree.Copy

/-!
# Detaching subtrees

A node in a list of children can be taken out of it, and a node in a slot that must be filled cannot
(`NodeKind.listSlots`). `Detaches` says what changes when it is: as far as the root reaches, every
node loses one child from its slots, and only the node above has that child. So what is still within
reach is what was, but for the nodes below the child, in the same order
(`Detaches.descendants_eq`), and the tree stays well formed (`Detaches.wellFormed`).
-/

namespace StackTemplate

/-! ### Taking a child out of a node -/

theorem filter_ne_of_not_mem {ids : List NodeId} {id : NodeId} (h : id ∉ ids) :
    ids.filter (· != id) = ids :=
  List.filter_eq_self.mpr fun _ hx => bne_iff_ne.mpr fun heq => h (heq ▸ hx)

theorem flatMap_filter (p : NodeId → Bool) (f : NodeId → List NodeId) (ids : List NodeId) :
    (ids.filter p).flatMap f = ids.flatMap fun x => if p x then f x else [] := by
  induction ids with
  | nil => rfl
  | cons x ids ih => cases hx : p x <;> simp [hx, ih]

theorem without?_eq_some {ids ids' : List NodeId} {id : NodeId} :
    without? ids id = some ids' ↔ id ∈ ids ∧ ids.filter (· != id) = ids' := by
  rw [without?, List.contains_eq_mem, Option.ite_none_right_eq_some, decide_eq_true_eq,
    Option.some.injEq]

theorem isSome_without? {ids : List NodeId} {id : NodeId} :
    (without? ids id).isSome ↔ id ∈ ids := by
  rw [without?, List.contains_eq_mem]
  by_cases h : id ∈ ids <;> simp [h]

theorem not_mem_of_without? {ids : List NodeId} {id : NodeId} (h : without? ids id = none) :
    id ∉ ids := by
  rw [← isSome_without?, h]
  decide

theorem Table.without?_eq_some {fields fields' : Table NodeId} {id : NodeId} :
    fields.without? id = some fields' ↔
      id ∈ fields.values ∧ (fields.filter fun _ value => value != id) = fields' := by
  rw [Table.without?, List.contains_eq_mem, Option.ite_none_right_eq_some, decide_eq_true_eq,
    Option.some.injEq]

theorem Table.isSome_without? {fields : Table NodeId} {id : NodeId} :
    (fields.without? id).isSome ↔ id ∈ fields.values := by
  rw [Table.without?, List.contains_eq_mem]
  by_cases h : id ∈ fields.values <;> simp [h]

theorem Table.values_filter (fields : Table NodeId) (p : NodeId → Bool) :
    (fields.filter fun _ value => p value).values = fields.values.filter p := by
  rw [Table.values, Table.values, List.filter_map]
  rfl

namespace NodeKind

variable {kind kind' : NodeKind} {id : NodeId}

/-- The children in slots that need not be filled: the pragmas and items of a module, the items of a
group, the elements of a list or join, the fields of an object and the parameters of an interpolated
string. -/
def listSlots : NodeKind → List NodeId
  | .module m => m.pragmas ++ m.items
  | .decl d => d.kind.items
  | .expr (.list items) => items
  | .expr (.join _ values) => values
  | .expr (.object fields) => fields.values
  | .expr (.sub _ parameters) => parameters.values
  | .expr _ => []

theorem mem_children_of_mem_listSlots (h : id ∈ kind.listSlots) : id ∈ kind.children := by
  match kind with
  | .module m =>
    rcases List.mem_append.mp h with hpragma | hitem
    · exact List.mem_append_left _ (List.mem_append_left _ hpragma)
    · exact List.mem_append_right _ hitem
  | .decl d => exact List.mem_append_right _ h
  | .expr e =>
    cases e with
    | list items | join delimiter items => exact h
    | object fields | sub format fields => exact h
    | _ => cases h

/-- What a node becomes when it loses a child, by the list that the child is taken out of. -/
theorem without?_cases (h : kind.without? id = some kind') :
    (∃ m, kind = .module m ∧ id ∈ m.items ∧
      kind' = .module { m with items := m.items.filter (· != id) }) ∨
    (∃ m, kind = .module m ∧ id ∉ m.items ∧ id ∈ m.pragmas ∧
      kind' = .module { m with pragmas := m.pragmas.filter (· != id) }) ∨
    (∃ d items, kind = .decl d ∧ d.kind = .group items ∧ id ∈ items ∧
      kind' = .decl { d with kind := .group (items.filter (· != id)) }) ∨
    ∃ e e', kind = .expr e ∧ kind' = .expr e' ∧ id ∈ kind.listSlots ∧
      e'.children = e.children.filter (· != id) := by
  match kind with
  | .module m =>
    simp only [NodeKind.without?] at h
    split at h
    · next items hitems =>
      obtain ⟨hmem, rfl⟩ := StackTemplate.without?_eq_some.mp hitems
      exact .inl ⟨m, rfl, hmem, (Option.some.inj h).symm⟩
    · next hnone =>
      obtain ⟨pragmas, hpragmas, rfl⟩ := Option.map_eq_some_iff.mp h
      obtain ⟨hmem, rfl⟩ := StackTemplate.without?_eq_some.mp hpragmas
      exact .inr (.inl ⟨m, rfl, not_mem_of_without? hnone, hmem, rfl⟩)
  | .decl d =>
    simp only [NodeKind.without?] at h
    split at h
    · next items hd =>
      obtain ⟨rest, hrest, rfl⟩ := Option.map_eq_some_iff.mp h
      obtain ⟨hmem, rfl⟩ := StackTemplate.without?_eq_some.mp hrest
      exact .inr (.inr (.inl ⟨d, items, rfl, hd, hmem, rfl⟩))
    · cases h
  | .expr e =>
    -- Lists and tables are the only expressions that lose operands.
    refine .inr (.inr (.inr ⟨e, ?_⟩))
    cases e with
    | list items | join delimiter items =>
      obtain ⟨rest, hrest, rfl⟩ := Option.map_eq_some_iff.mp h
      obtain ⟨hmem, rfl⟩ := StackTemplate.without?_eq_some.mp hrest
      exact ⟨_, rfl, rfl, hmem, rfl⟩
    | object fields | sub format fields =>
      obtain ⟨rest, hrest, rfl⟩ := Option.map_eq_some_iff.mp h
      obtain ⟨hmem, rfl⟩ := Table.without?_eq_some.mp hrest
      exact ⟨_, rfl, rfl, hmem, Table.values_filter fields (· != id)⟩
    | _ => cases h

/-- A child can be taken out if it is in a slot that need not be filled. -/
theorem isSome_without? : (kind.without? id).isSome ↔ id ∈ kind.listSlots := by
  match kind with
  | .module m =>
    rw [listSlots, List.mem_append]
    simp only [NodeKind.without?]
    split
    · next items hitems =>
      exact iff_of_true rfl (.inr (StackTemplate.without?_eq_some.mp hitems).1)
    · next hnone =>
      rw [Option.isSome_map, StackTemplate.isSome_without?, or_iff_left (not_mem_of_without? hnone)]
  | .decl d =>
    obtain ⟨localName, fullName, kind, reference, out, back⟩ := d
    cases kind with
    | group items =>
      simp only [NodeKind.without?, Option.isSome_map]
      exact StackTemplate.isSome_without?
    | _ => exact iff_of_false Bool.false_ne_true List.not_mem_nil
  | .expr e =>
    cases e with
    | list items | join delimiter items =>
      simp only [NodeKind.without?, Option.isSome_map]
      exact StackTemplate.isSome_without?
    | object fields | sub format fields =>
      simp only [NodeKind.without?, Option.isSome_map]
      exact Table.isSome_without?
    | _ => exact iff_of_false Bool.false_ne_true List.not_mem_nil

/-- The slots of either sort lose the child. -/
theorem slots_without? (h : kind.without? id = some kind') (hnodup : kind.children.Nodup) :
    kind'.exprSlots = kind.exprSlots.filter (· != id) ∧
      kind'.itemSlots = kind.itemSlots.filter (· != id) := by
  rw [children_eq_append] at hnodup
  obtain ⟨-, -, hdisjoint⟩ := List.nodup_append.mp hnodup
  have hitem : id ∈ kind.itemSlots → id ∉ kind.exprSlots := fun hitem hexpr =>
    hdisjoint id hexpr id hitem rfl
  rcases without?_cases h with ⟨m, rfl, hmem, rfl⟩ | ⟨m, rfl, hnot, hmem, rfl⟩ |
    ⟨d, items, rfl, hd, hmem, rfl⟩ | ⟨e, e', rfl, rfl, -, hchildren⟩
  · exact ⟨(filter_ne_of_not_mem (hitem hmem)).symm, rfl⟩
  · have husing : id ∉ m.usings.filterMap Using.parameters := fun husing => by
      obtain ⟨hexprs, -, -⟩ := List.nodup_append.mp hnodup
      exact (List.nodup_append.mp hexprs).2.2 id hmem id husing rfl
    refine ⟨?_, (filter_ne_of_not_mem hnot).symm⟩
    show _ = (m.pragmas ++ m.usings.filterMap Using.parameters).filter (· != id)
    rw [List.filter_append, filter_ne_of_not_mem husing]
    rfl
  · have hitems : (NodeKind.decl d).itemSlots = items := congrArg DeclKind.items hd
    have hslots : (NodeKind.decl d).exprSlots = d.reference.toList := by
      show d.kind.fields ++ d.reference.toList = _
      rw [hd]
      rfl
    rw [filter_ne_of_not_mem (hitem (hitems ▸ hmem)), hitems, hslots]
    exact ⟨rfl, rfl⟩
  · exact ⟨hchildren, rfl⟩

/-- The node stays a module, a declaration or an expression. -/
theorem family_without? (h : kind.without? id = some kind') :
    kind'.expr?.isSome = kind.expr?.isSome ∧ kind'.decl?.isSome = kind.decl?.isSome ∧
      ∀ m, kind = .module m → ∃ m', kind' = .module m' := by
  rcases without?_cases h with ⟨m, rfl, -, rfl⟩ | ⟨m, rfl, -, -, rfl⟩ | ⟨d, items, rfl, -, -, rfl⟩ |
    ⟨e, e', rfl, rfl, -, -⟩
  · exact ⟨rfl, rfl, fun _ _ => ⟨_, rfl⟩⟩
  · exact ⟨rfl, rfl, fun _ _ => ⟨_, rfl⟩⟩
  · exact ⟨rfl, rfl, fun m hm => NodeKind.noConfusion hm⟩
  · exact ⟨rfl, rfl, fun m hm => NodeKind.noConfusion hm⟩

end NodeKind

namespace Tree

variable {t s : Tree} {id p x y : NodeId}

/-- The children of a node in slots that need not be filled. -/
def listSlots (t : Tree) (x : NodeId) : List NodeId :=
  ((t.kind? x).map NodeKind.listSlots).getD []

theorem listSlots_of_kind? {kind : NodeKind} (h : t.kind? x = some kind) :
    t.listSlots x = kind.listSlots := by
  rw [listSlots, h, Option.map_some, Option.getD_some]

theorem mem_children_of_mem_listSlots (h : id ∈ t.listSlots x) : id ∈ t.children x := by
  rw [listSlots] at h
  rw [children]
  cases hkind : t.kind? x with
  | none => rw [hkind] at h; cases h
  | some kind =>
    rw [hkind] at h
    exact kind.mem_children_of_mem_listSlots h

/-! ### What changes in the tree -/

/-- The tree `s` is `t` without the node `id` among the children of any node within reach. -/
structure Detaches (t : Tree) (id : NodeId) (s : Tree) : Prop where
  size_eq : s.size = t.size
  root_eq : s.root = t.root
  root_module : ∃ m, s.kind? s.root = some (.module m)
  parent_self : s.parent? id = none
  parent_eq : ∀ x, x ≠ id → s.parent? x = t.parent? x
  expr_eq : ∀ x, (s.expr? x).isSome = (t.expr? x).isSome
  decl_eq : ∀ x, (s.decl? x).isSome = (t.decl? x).isSome
  exprSlots_eq : ∀ x, t.Reaches t.root x → s.exprSlots x = (t.exprSlots x).filter (· != id)
  itemSlots_eq : ∀ x, t.Reaches t.root x → s.itemSlots x = (t.itemSlots x).filter (· != id)

theorem kind?_detached (h : p < t.size) (kind : NodeKind) (x : NodeId) :
    ((t.setKind p kind).setParent id none).kind? x = if x = p then some kind else t.kind? x := by
  rw [kind?_setParent]
  split
  · next heq => rw [heq, kind?_setKind_self h]
  · next hne => exact kind?_setKind_ne (Ne.symm hne)

/-- The two writes of a detachment: the parent loses the child, and the child its link. -/
theorem detaches_of_without? {kind kind' : NodeKind} (hwf : t.WellFormed)
    (hp : t.Reaches t.root p) (hid : id ∈ t.children p) (hkind : t.kind? p = some kind)
    (hwithout : kind.without? id = some kind') :
    Detaches t id ((t.setKind p kind').setParent id none) := by
  have hlt := hwf.lt_size hp
  have hnodup : kind.children.Nodup := children_of_kind? hkind ▸ hwf.nodup hp
  obtain ⟨hexprs, hitems⟩ := NodeKind.slots_without? hwithout hnodup
  obtain ⟨hexpr, hdecl, hmodule⟩ := NodeKind.family_without? hwithout
  -- No other node within reach holds the child, so at others there is nothing to take out.
  have hother : ∀ x, t.Reaches t.root x → x ≠ p → id ∉ t.children x := fun x hx hne hmem =>
    hne (hwf.eq_of_mem_children hx hp hmem hid)
  refine ⟨by simp, rfl, ?_, ?_, fun x hx => ?_, fun x => ?_, fun x => ?_, fun x hx => ?_,
    fun x hx => ?_⟩
  · rw [root_setParent, root_setKind, kind?_detached hlt]
    obtain ⟨m, hm⟩ := hwf.root_module
    split
    · next heq =>
      rw [heq, hkind] at hm
      obtain ⟨m', hm'⟩ := hmodule m (Option.some.inj hm)
      exact ⟨m', congrArg some hm'⟩
    · exact ⟨m, hm⟩
  · have hid := hwf.lt_size (hp.tail hid)
    rw [parent?_setParent, if_pos ⟨rfl, by rwa [size_setKind]⟩]
  · rw [parent?_setParent, if_neg fun h => hx h.1.symm, parent?_setKind]
  · rw [expr?, kind?_detached hlt]
    split
    · next heq => rw [heq, expr?, hkind]; exact hexpr
    · rfl
  · rw [decl?, kind?_detached hlt]
    split
    · next heq => rw [heq, decl?, hkind]; exact hdecl
    · rfl
  · rw [exprSlots, kind?_detached hlt]
    split
    · next heq => rw [heq, exprSlots, hkind]; exact hexprs
    · next hne =>
      exact (filter_ne_of_not_mem fun hmem => hother x hx hne (mem_children.mpr (.inl hmem))).symm
  · rw [itemSlots, kind?_detached hlt]
    split
    · next heq => rw [heq, itemSlots, hkind]; exact hitems
    · next hne =>
      exact (filter_ne_of_not_mem fun hmem => hother x hx hne (mem_children.mpr (.inr hmem))).symm

/-- A node within reach can be detached if it is in a slot of its parent that need not be filled. -/
theorem detach_cases (hwf : t.WellFormed) (hp : t.Reaches t.root p) (hid : id ∈ t.children p) :
    (id ∉ t.listSlots p ∧ t.detach id = (false, t)) ∨
      (id ∈ t.listSlots p ∧ ∃ s, t.detach id = (true, s) ∧ Detaches t id s) := by
  obtain ⟨kind, hkind⟩ := exists_kind? (hwf.lt_size hp)
  have hparent := hwf.parent_eq p id hp hid
  rw [listSlots_of_kind? hkind, ← NodeKind.isSome_without?]
  cases hwithout : kind.without? id with
  | none =>
    have hdetach : t.detach id = (false, t) := by
      simp only [detach, hparent, hkind, Option.bind_some, hwithout]
    exact .inl ⟨Bool.false_ne_true, hdetach⟩
  | some kind' =>
    have hdetach : t.detach id = (true, (t.setKind p kind').setParent id none) := by
      simp only [detach, hparent, hkind, Option.bind_some, hwithout]
    exact .inr ⟨rfl, _, hdetach, detaches_of_without? hwf hp hid hkind hwithout⟩

namespace Detaches

theorem children_eq (h : Detaches t id s) (hx : t.Reaches t.root x) :
    s.children x = (t.children x).filter (· != id) := by
  rw [children_eq_append, children_eq_append, h.exprSlots_eq x hx, h.itemSlots_eq x hx,
    List.filter_append]

theorem mem_children (h : Detaches t id s) (hx : t.Reaches t.root x) :
    y ∈ s.children x ↔ y ∈ t.children x ∧ y ≠ id := by
  rw [h.children_eq hx, List.mem_filter, bne_iff_ne]

/-- What is within reach now was so before. -/
theorem reaches (h : Detaches t id s) (hx : s.Reaches s.root x) : t.Reaches t.root x := by
  induction hx with
  | refl => exact h.root_eq ▸ .refl
  | tail _ hstep ih => exact ih.tail ((h.mem_children ih).mp hstep).1

/-- The tree stays well formed. -/
theorem wellFormed (h : Detaches t id s) (hwf : t.WellFormed) (hne : id ≠ t.root) :
    s.WellFormed := by
  refine .ofLinks h.root_module ?_ (fun p hp => ?_) (fun p c hp hc => ?_) (fun p c hp hc => ?_)
    fun p c hp hc => ?_
  · rw [h.root_eq, h.parent_eq t.root hne.symm, hwf.root_parent]
  · rw [h.children_eq (h.reaches hp)]
    exact (hwf.nodup (h.reaches hp)).filter _
  · obtain ⟨hc, hother⟩ := (h.mem_children (h.reaches hp)).mp hc
    rw [h.parent_eq c hother, hwf.parent_eq p c (h.reaches hp) hc]
  · rw [h.exprSlots_eq p (h.reaches hp)] at hc
    rw [h.expr_eq]
    exact hwf.expr_slot p c (h.reaches hp) (List.mem_filter.mp hc).1
  · rw [h.itemSlots_eq p (h.reaches hp)] at hc
    rw [h.decl_eq]
    exact hwf.item_slot p c (h.reaches hp) (List.mem_filter.mp hc).1

/-- Ways down end as they did. -/
theorem grounded (h : Detaches t id s) (hwf : t.WellFormed) (hx : t.Reaches t.root x) :
    s.Grounded x := by
  have hgrounded := hwf.grounded_of_reaches hx
  induction hgrounded with
  | @intro x lt below ih =>
    refine .intro (h.size_eq ▸ lt) fun c hc => ?_
    have hc := ((h.mem_children hx).mp hc).1
    exact ih c hc (hx.tail hc)

/-- Of what is listed below a node that stays, only what is below the detached one is not listed any
more. -/
theorem descendants_eq (h : Detaches t id s) (hwf : t.WellFormed) (hid : t.Reaches t.root id)
    (hx : t.Reaches t.root x) (hbelow : ¬ t.Reaches id x) :
    s.descendants x = (t.descendants x).filter (· ∉ t.descendants id) := by
  have hgrounded := hwf.grounded_of_reaches hx
  have hmem : ∀ y, y ∈ t.descendants id ↔ t.Reaches id y := fun y =>
    mem_descendants (hwf.grounded_of_reaches hid)
  induction hgrounded with
  | @intro x lt below ih =>
    have hkeep : x ∉ t.descendants id := mt (hmem x).mp hbelow
    rw [Tree.descendants_eq (h.grounded hwf hx), Tree.descendants_eq (.intro lt below),
      List.filter_cons, if_pos (by simpa using hkeep), h.children_eq hx, List.filter_flatMap,
      flatMap_filter]
    refine congrArg _ (List.flatMap_congr fun c hc => ?_)
    by_cases heq : c = id
    · -- The detached child is left out, and so is all that it lists.
      rw [heq]
      simp
    · have hother : ¬ t.Reaches id c := by
        intro hdown
        rcases Relation.ReflTransGen.cases_tail hdown with hself | ⟨q, hq, hqc⟩
        · exact heq hself
        · exact hbelow (hwf.eq_of_mem_children (hid.trans hq) hx hqc hc ▸ hq)
      simp [heq, ih c hc (hx.tail hc) hother]

end Detaches

/-! ### Detaching -/

/-- Detaching a node below the root takes it out just if it is in a slot that need not be filled:
then the nodes from it downwards are no more within reach, and the others are listed as they were.
Otherwise nothing changes. -/
theorem detach_removes (t : Tree) (id : NodeId) (hwf : t.WellFormed) (hid : t.Reaches t.root id)
    (hne : id ≠ t.root) :
    ((t.detach id).1 = true ↔ ∃ p, t.Reaches t.root p ∧ id ∈ t.listSlots p) ∧
    ((t.detach id).1 = true →
      (t.detach id).2.reachable = t.reachable.filter (· ∉ t.descendants id) ∧
      (t.detach id).2.parent? id = none ∧
      (t.detach id).2.WellFormed) ∧
    ((t.detach id).1 = false → (t.detach id).2 = t) := by
  obtain ⟨p, hp, hchild⟩ : ∃ p, t.Reaches t.root p ∧ id ∈ t.children p := by
    rcases Relation.ReflTransGen.cases_tail hid with heq | hparent
    · exact absurd heq hne
    · exact hparent
  have hslot : (∃ p, t.Reaches t.root p ∧ id ∈ t.listSlots p) ↔ id ∈ t.listSlots p := by
    refine ⟨fun ⟨q, hq, hmem⟩ => ?_, fun hmem => ⟨p, hp, hmem⟩⟩
    rwa [hwf.eq_of_mem_children hp hq hchild (mem_children_of_mem_listSlots hmem)]
  rw [hslot]
  rcases detach_cases hwf hp hchild with ⟨hfixed, heq⟩ | ⟨hlist, s, heq, hdetaches⟩
  · rw [heq]
    exact ⟨iff_of_false Bool.false_ne_true hfixed, fun h => absurd h Bool.false_ne_true,
      fun _ => rfl⟩
  · rw [heq]
    refine ⟨iff_of_true rfl hlist, fun _ => ⟨?_, hdetaches.parent_self, ?_⟩,
      fun h => absurd h.symm Bool.false_ne_true⟩
    · -- The root is not below the node: it has no parent.
      have hroot : ¬ t.Reaches id t.root := fun hback =>
        hwf.acyclic .refl (.trans_right hp (.head' hchild hback))
      rw [reachable, hdetaches.root_eq]
      exact hdetaches.descendants_eq hwf hid .refl hroot
    · exact hdetaches.wellFormed hwf hne

/-- A variable that selects among two values, one of them joined from two texts. -/
def selecting : Tree where
  nodes := #[
    { kind := .expr (.ref "AWS::Region"), span := ⟨0, 4, 9, by decide⟩, parent := some 2 },
    { kind := .expr (.sub "${Stage}" (.ofList [("Stage", 5)])), span := ⟨0, 10, 18, by decide⟩,
      parent := some 2 },
    { kind := .expr (.join "-" [0, 1]), span := ⟨0, 4, 18, by decide⟩, parent := some 3 },
    { kind := .expr (.select 4 [2, 6]), span := ⟨0, 2, 19, by decide⟩, parent := some 7 },
    { kind := .expr (.literal (.string "1")), span := default, parent := some 3 },
    { kind := .expr (.literal (.string "beta")), span := default, parent := some 1 },
    { kind := .expr (.literal (.string "none")), span := default, parent := some 3 },
    { kind := .decl { localName := "Name", kind := .var none 3 }, span := ⟨0, 0, 20, by decide⟩,
      parent := some 8 },
    { kind := .module { name := "selecting", items := [7] }, span := ⟨0, 0, 20, by decide⟩ }]
  root := 8

/-- The interpolated string goes, with its parameter, and the values of the selection stay. -/
theorem selecting_detach :
    selecting.WellFormed ∧ selecting.reachable = [8, 7, 3, 4, 2, 0, 1, 5, 6] ∧
    ((selecting.detach 1).1 = true ∧ (selecting.detach 1).2.reachable = [8, 7, 3, 4, 2, 0, 6] ∧
      (selecting.detach 1).2.parent? 1 = none ∧ (selecting.detach 1).2.WellFormed) ∧
    (selecting.detach 6).1 = false ∧ (selecting.detach 6).2 = selecting := by
  have hwf : selecting.WellFormed := by
    refine .ofAll (m := { name := "selecting", items := [7] }) rfl rfl ?_
    decide +kernel
  have hlist : selecting.reachable = [8, 7, 3, 4, 2, 0, 1, 5, 6] := by decide +kernel
  have hreaches : ∀ y ∈ selecting.reachable, selecting.Reaches selecting.root y := fun y hy =>
    (mem_descendants hwf.grounded).mp hy
  obtain ⟨htaken, hrest, -⟩ :=
    detach_removes selecting 1 hwf (hreaches 1 (by rw [hlist]; decide)) (by decide)
  obtain ⟨hslot, -, hkept⟩ :=
    detach_removes selecting 6 hwf (hreaches 6 (by rw [hlist]; decide)) (by decide)
  have htrue : (selecting.detach 1).1 = true :=
    htaken.mpr ⟨2, hreaches 2 (by rw [hlist]; decide), by decide +kernel⟩
  have hfalse : (selecting.detach 6).1 = false := by decide +kernel
  obtain ⟨hreachable, hparent, hagain⟩ := hrest htrue
  refine ⟨hwf, hlist, ⟨htrue, ?_, hparent, hagain⟩, hfalse, hkept hfalse⟩
  rw [hreachable, hlist]
  decide +kernel

end Tree

end StackTemplate
