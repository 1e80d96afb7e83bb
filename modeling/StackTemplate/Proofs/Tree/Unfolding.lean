import StackTemplate.Proofs.Tree.Copying
import StackTemplate.Proofs.Tree.WellFormed

/-!
# Copies unfold to what was copied

The subtree at a node, unfolded: the contents and places of its nodes in their order, without node
ids. What a node holds in its slots is blank there, so that a content shows which slots are in use
and under which names, and nothing about where the children are stored. A copy of a subtree without
cycles unfolds to the same. Its nodes are new, each in one slot of the copy below which it hangs,
and nothing that was there before changes (`copy_unfolds`). The subtree itself may share nodes: the
copy has one node for each way down to them.
-/

namespace StackTemplate

/-! ### Contents without children -/

namespace Table

variable {α : Type}

theorem mapValues_const (t : Table α) (a : α) :
    (t.mapValues fun _ => a).entries = t.keys.map fun name => (name, a) := by
  rw [entries_mapValues, keys, List.map_map]
  rfl

theorem mapValues_const_refill (t : Table α) (vs : List α) (a : α) :
    (t.refill vs).mapValues (fun _ => a) = t.mapValues fun _ => a := by
  apply ext_entries
  rw [mapValues_const, mapValues_const, keys_refill]

end Table

theorem takeSlot_fst_map_const (slot : Option NodeId) (ids : List NodeId) (c : NodeId) :
    (takeSlot slot ids).1.map (fun _ => c) = slot.map fun _ => c := by
  cases slot with
  | none => rfl
  | some id => cases ids <;> rfl

theorem length_takeSlot_snd (slot : Option NodeId) (ids : List NodeId) :
    (takeSlot slot ids).2.length = ids.length - slot.toList.length := by
  cases slot with
  | none => rfl
  | some id => cases ids <;> rfl

theorem Expr.mapSlots_const_refill {e : Expr} {ids : List NodeId} (c : NodeId)
    (h : ids.length = e.children.length) :
    (e.refill ids).mapSlots (fun _ => c) = e.mapSlots fun _ => c := by
  unfold refill
  split <;> simp_all [mapSlots, children, Table.mapValues_const_refill]

theorem DeclKind.mapSlots_const_refillFields (kind : DeclKind) (ids : List NodeId) (c : NodeId) :
    (kind.refillFields ids).mapSlots (fun _ => c) = kind.mapSlots fun _ => c := by
  unfold refillFields
  split <;> simp [mapSlots, takeSlot_fst_map_const]

theorem DeclKind.mapSlots_const_refillItems {kind : DeclKind} {ids : List NodeId} (c : NodeId)
    (h : ids.length = kind.items.length) :
    (kind.refillItems ids).mapSlots (fun _ => c) = kind.mapSlots fun _ => c := by
  cases kind <;> simp_all [refillItems, mapSlots, items]

theorem Decl.mapSlots_const_refill {d : Decl} {ids : List NodeId} (c : NodeId)
    (h : ids.length = d.children.length) :
    (d.refill ids).mapSlots (fun _ => c) = d.mapSlots fun _ => c := by
  have hitems : (takeSlot d.reference (ids.drop d.kind.fields.length)).2.length =
      d.kind.items.length := by
    rw [children, List.length_append, List.length_append] at h
    rw [length_takeSlot_snd, List.length_drop]
    omega
  unfold refill mapSlots
  rw [DeclKind.mapSlots_const_refillItems c (by rw [hitems, DeclKind.items_refillFields]),
    DeclKind.mapSlots_const_refillFields, takeSlot_fst_map_const]

theorem Module.refillUsings_fst_map_const (us : List Using) (ids : List NodeId) (c : NodeId) :
    (refillUsings us ids).1.map (fun u => { u with parameters := u.parameters.map fun _ => c }) =
      us.map fun u => { u with parameters := u.parameters.map fun _ => c } := by
  induction us generalizing ids with
  | nil => rfl
  | cons u us ih => simp [refillUsings, takeSlot_fst_map_const, ih]

theorem Module.length_refillUsings_snd (us : List Using) (ids : List NodeId) :
    (refillUsings us ids).2.length = ids.length - (us.filterMap Using.parameters).length := by
  induction us generalizing ids with
  | nil => rfl
  | cons u us ih =>
    obtain ⟨name, parameters⟩ := u
    cases parameters with
    | none => simpa [refillUsings, takeSlot] using ih ids
    | some old =>
      simp only [refillUsings, ih, length_takeSlot_snd, List.filterMap_cons, List.length_cons,
        Option.toList_some, List.length_nil]
      omega

theorem Module.mapSlots_const_refill {m : Module} {ids : List NodeId} (c : NodeId)
    (h : ids.length = m.children.length) :
    (m.refill ids).mapSlots (fun _ => c) = m.mapSlots fun _ => c := by
  rw [children, List.length_append, List.length_append] at h
  have hpragmas : (ids.take m.pragmas.length).length = m.pragmas.length := by
    rw [List.length_take]
    omega
  have hitems : (refillUsings m.usings (ids.drop m.pragmas.length)).2.length = m.items.length := by
    rw [length_refillUsings_snd, List.length_drop]
    omega
  unfold refill mapSlots
  simp only [List.map_const', hpragmas, hitems, refillUsings_fst_map_const]

namespace NodeKind

/-- The content with blank slots: what is there besides the children, and which slots are in
use. -/
def blank (kind : NodeKind) : NodeKind := kind.mapSlots fun _ => 0

/-- New children change nothing else. -/
theorem blank_refill {kind : NodeKind} {ids : List NodeId}
    (h : ids.length = kind.children.length) : (kind.refill ids).blank = kind.blank := by
  cases kind with
  | module m => exact congrArg NodeKind.module (Module.mapSlots_const_refill 0 h)
  | decl d => exact congrArg NodeKind.decl (Decl.mapSlots_const_refill 0 h)
  | expr e => exact congrArg NodeKind.expr (Expr.mapSlots_const_refill 0 h)

end NodeKind

/-! ### Unfolding -/

/-- A subtree without node ids: a content with blank slots, its place in the source, and what is
in the slots. -/
inductive Unfolded where
  | node (content : NodeKind) (span : Span) (below : List Unfolded)

instance : Inhabited Unfolded := ⟨.node default default []⟩

namespace Tree

variable {t s : Tree} {x y z : NodeId}

/-- The subtree at an id, unfolded as far as `depth` levels. -/
def unfoldWithin (t : Tree) : (depth : Nat) → NodeId → Unfolded
  | 0, _ => default
  | depth + 1, id =>
    match t.kind? id with
    | some kind => .node kind.blank (t.span id) (kind.children.map (t.unfoldWithin depth))
    | none => default

/-- The subtree at an id, unfolded. -/
def unfold (t : Tree) (id : NodeId) : Unfolded := t.unfoldWithin t.size id

theorem unfoldWithin_congr {n m : Nat} (hn : Within t.children t.size n x)
    (hm : Within t.children t.size m x) : t.unfoldWithin n x = t.unfoldWithin m x := by
  induction n generalizing m x with
  | zero => exact hn.elim
  | succ n ih =>
    cases m with
    | zero => exact hm.elim
    | succ m =>
      obtain ⟨kind, hkind⟩ := exists_kind? hn.1
      rw [unfoldWithin, unfoldWithin, hkind]
      simp only [Unfolded.node.injEq, true_and]
      refine List.map_congr_left fun c hc => ?_
      rw [← children_of_kind? hkind] at hc
      exact ih (hn.2 c hc) (hm.2 c hc)

/-- Where every way down ends, a subtree unfolds to its top over what is below. -/
theorem unfold_eq {kind : NodeKind} (hx : t.Grounded x) (hkind : t.kind? x = some kind) :
    t.unfold x = .node kind.blank (t.span x) (kind.children.map t.unfold) := by
  have hwithin := (within_of_grounded hx).mono (Nat.le_succ t.size)
  rw [unfold, unfoldWithin_congr (within_of_grounded hx) hwithin, unfoldWithin, hkind]
  simp only [Unfolded.node.injEq, true_and]
  refine List.map_congr_left fun c hc => ?_
  rw [← children_of_kind? hkind] at hc
  exact unfoldWithin_congr (hwithin.2 c hc) (within_of_grounded (hx.child hc))

/-- The same subtree over new nodes unfolds to the same. -/
theorem Mirrors.unfold_eq (h : Mirrors t s x y) (hx : t.Grounded x) (hy : s.Grounded y) :
    s.unfold y = t.unfold x := by
  induction h with
  | @intro x y kind ys hnew hkind hlength hkind' hspan below ih =>
    have hchildren : (kind.refill ys).children = ys := NodeKind.children_refill hlength
    rw [Tree.unfold_eq hx hkind, Tree.unfold_eq hy hkind', NodeKind.blank_refill hlength,
      hchildren, hspan]
    congr 1
    refine map_eq_map_of_zip hlength fun pair hpair => ?_
    have hc : pair.1 ∈ t.children x := by
      rw [children_of_kind? hkind]
      exact (List.of_mem_zip hpair).1
    have hd : pair.2 ∈ s.children y := by
      rw [children_of_kind? hkind', hchildren]
      exact (List.of_mem_zip hpair).2
    exact ih pair hpair (hx.child hc) (hy.child hd)

/-! ### The slots of a copy -/

/-- What new nodes reach without adopting old ones is new. -/
theorem Grows.reaches_new (h : Grows t s fun _ => False) (hy : t.size ≤ y) (hz : s.Reaches y z) :
    t.size ≤ z := by
  induction hz with
  | refl => exact hy
  | @tail w z _ hz ih =>
    by_contra hold
    exact (h.child w z ih hz).2.2 (Nat.lt_of_not_le hold)

theorem node?_congr (hx : x < t.size) (hlt : x < s.size) (hkind : s.kind? x = t.kind? x)
    (hspan : s.span x = t.span x) (hparent : s.parent? x = t.parent? x) :
    s.node? x = t.node? x := by
  obtain ⟨⟨kind, span, parent⟩, hn⟩ := exists_node? hx
  obtain ⟨⟨kind', span', parent'⟩, hn'⟩ := exists_node? hlt
  simp only [kind?, Tree.span, parent?, hn, hn', Option.map_some, Option.some.injEq,
    Option.getD_some, Option.bind_some] at hkind hspan hparent
  rw [hn, hn', hkind, hspan, hparent]

theorem Grows.node?_eq (h : Grows t s fun _ => False) (hx : x < t.size) :
    s.node? x = t.node? x :=
  node?_congr hx (Nat.lt_of_lt_of_le hx h.size_le) (h.kind_eq x hx) (h.span_eq x hx)
    (h.parent_eq x hx id)

/-- A copy of a subtree that lies inside the tree and has no cycle unfolds to the same as the
subtree. All its nodes are new; its top hangs below nothing and is in no slot of the copy, and each
other node is in one slot of the copy, below the node of which it hangs. The nodes that were there
stay what they were and where they were. -/
theorem copy_unfolds (t : Tree) (x : NodeId) (hinside : ∀ y, t.Reaches x y → y < t.size)
    (hacyclic : ∀ y, t.Reaches x y → ¬ Relation.TransGen (fun p c => c ∈ t.children p) y y) :
    (t.copy x).2.unfold (t.copy x).1 = t.unfold x ∧
    (∀ z, (t.copy x).2.Reaches (t.copy x).1 z → t.size ≤ z ∧ z < (t.copy x).2.size) ∧
    (t.copy x).2.parent? (t.copy x).1 = none ∧
    (∀ z, (t.copy x).2.Reaches (t.copy x).1 z → (t.copy x).1 ∉ (t.copy x).2.children z) ∧
    (∀ z, (t.copy x).2.Reaches (t.copy x).1 z → z ≠ (t.copy x).1 →
      ∃! slot : NodeId × Nat, (t.copy x).2.Reaches (t.copy x).1 slot.1 ∧
        ((t.copy x).2.children slot.1)[slot.2]? = some z) ∧
    (∀ p c, (t.copy x).2.Reaches (t.copy x).1 p → c ∈ (t.copy x).2.children p →
      (t.copy x).2.parent? c = some p) ∧
    (t.copy x).2.root = t.root ∧
    ∀ z, z < t.size → (t.copy x).2.node? z = t.node? z := by
  have hx : t.Grounded x := grounded_of_acyclic hinside hacyclic
  obtain ⟨hgrows, htop, hmirrors⟩ := copy_spec hx (Keeps.refl t)
  have hcopy : (t.copy x).2.Grounded (t.copy x).1 :=
    hgrows.grounded (fun _ hc => hc.elim) htop.size_le htop.lt_size
  have hbelow : ∀ p c, (t.copy x).2.Reaches (t.copy x).1 p → c ∈ (t.copy x).2.children p →
      (t.copy x).2.parent? c = some p := fun p c hp hc =>
    (hgrows.child p c (hgrows.reaches_new htop.size_le hp) hc).2.1
  have hnodup : ∀ p, (t.copy x).2.Reaches (t.copy x).1 p → ((t.copy x).2.children p).Nodup :=
    fun p hp => hgrows.nodup p (hgrows.reaches_new htop.size_le hp)
  refine ⟨hmirrors.unfold_eq hx hcopy, fun z hz => ⟨hgrows.reaches_new htop.size_le hz,
    (hcopy.descend hz).lt⟩, htop.parent_eq, fun z hz hmem => ?_,
    fun z hz hne => existsUnique_slot hnodup hbelow hz hne, hbelow, hgrows.root_eq,
    fun z hz => hgrows.node?_eq hz⟩
  have hparent := hbelow z _ hz hmem
  rw [htop.parent_eq] at hparent
  exact Option.some_ne_none z hparent.symm

/-- A resource with properties and a reference that share an operand, at two places of a table and
of a list. -/
def sharing : Tree where
  nodes := #[
    { kind := .expr (.literal (.string "x")), span := ⟨0, 6, 9, by decide⟩, parent := some 1 },
    { kind := .expr (.list [0, 0]), span := ⟨0, 5, 12, by decide⟩, parent := some 4 },
    { kind := .expr (.sub "${A}${B}" (.ofList [("B", 1), ("A", 0)])), span := default,
      parent := some 3 },
    { kind := .expr (.object (.ofList [("Name", 2), ("Tag", 0)])), span := default,
      parent := some 4 },
    { kind := .decl
        { localName := "Queue", reference := some 1
          kind := .resource { resourceType := some "T", properties := some 3 } }
      span := ⟨0, 3, 40, by decide⟩, parent := some 5 },
    { kind := .module { items := [4] }, span := default }]
  root := 5

/-- The copy has eleven nodes for the five of the resource. -/
theorem sharing_unfolds :
    (sharing.copy 4).2.unfold 16 = sharing.unfold 4 ∧
    (sharing.copy 4).2.children 16 = [12, 15] ∧ (sharing.copy 4).2.size = 17 ∧
    (sharing.copy 4).2.parent? 16 = none ∧
    ∀ z, z < 6 → (sharing.copy 4).2.node? z = sharing.node? z := by
  have hlt : ∀ p < 6, ∀ c ∈ sharing.children p, c < p := by decide +kernel
  have hdown : ∀ p c, c ∈ sharing.children p → c < p := fun p c hc =>
    hlt p (lt_size_of_mem_children hc) c hc
  have hinside : ∀ y, sharing.Reaches 4 y → y < sharing.size := by
    intro y hy
    have hle : y ≤ 4 := by
      induction hy with
      | refl => exact Nat.le_refl 4
      | tail _ hc ih => exact Nat.le_trans (Nat.le_of_lt (hdown _ _ hc)) ih
    exact Nat.lt_of_le_of_lt hle (by decide)
  have hacyclic : ∀ y, sharing.Reaches 4 y →
      ¬ Relation.TransGen (fun p c => c ∈ sharing.children p) y y :=
    not_transGen_of_rank id fun p _ c hc => hdown p c hc
  obtain ⟨hunfold, -, hparent, -, -, -, -, hold⟩ := copy_unfolds sharing 4 hinside hacyclic
  have htop : (sharing.copy 4).1 = 16 := by decide +kernel
  rw [htop] at hunfold hparent
  exact ⟨hunfold, by decide +kernel, by decide +kernel, hparent, hold⟩

end Tree

end StackTemplate
