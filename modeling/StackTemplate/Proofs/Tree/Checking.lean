import StackTemplate.Proofs.Tree.Staging
import StackTemplate.Proofs.Tree.Stillness

/-!
# Substitution that cannot fail

Writing slots one by one has the effect of filling them all at once, if slots and nodes exist
(`replaceChildrenChecked_eq`): what a node holds is written with each slot, and links do not look at
what it holds. So a walk with checks that finds no fault does what the walk without them does
(`apply_eq_of_applyChecked`).

A substitution that settles fills slots with nodes of the tree only. So the walk that looks at every
slot before it fills it never finds a fault (`applyChecked_eq`), and staged replacements can be
applied (`Staged.applicable`).
-/

namespace StackTemplate

namespace Tree

variable {t g s : Tree} {r : NodeId → Option NodeId} {staged : Replacements} {x y : NodeId}

theorem node_of_node? {n : Node} (h : t.node? x = some n) : t.node x = .ok n := by rw [node, h]

theorem node_of_lt (h : x < t.size) : ∃ n, t.node x = .ok n := by
  obtain ⟨n, hn⟩ := exists_node? h
  exact ⟨n, node_of_node? hn⟩

theorem lt_size_of_node {n : Node} (h : t.node x = .ok n) : x < t.size := by
  by_contra hle
  rw [node, node?_eq_none.mpr (Nat.le_of_not_lt hle)] at h
  cases h

theorem mapM_ok {α β : Type} {f : α → Except Fault β} {as : List α}
    (h : ∀ a ∈ as, ∃ b, f a = .ok b) : ∃ bs, as.mapM f = .ok bs := by
  induction as with
  | nil => exact ⟨[], rfl⟩
  | cons a as ih =>
    obtain ⟨⟨b, hb⟩, hrest⟩ := List.forall_mem_cons.mp h
    obtain ⟨bs, hbs⟩ := ih hrest
    refine ⟨b :: bs, ?_⟩
    rw [List.mapM_cons, hb]
    show (as.mapM f >>= fun bs => pure (b :: bs)) = .ok (b :: bs)
    rw [hbs]
    rfl

/-- What a list of steps that may fail succeeds on, it succeeds on one by one. -/
theorem ok_of_mapM {α β : Type} {f : α → Except Fault β} {as : List α} {bs : List β}
    (h : as.mapM f = .ok bs) : ∀ a ∈ as, ∃ b, f a = .ok b := by
  induction as generalizing bs with
  | nil => exact fun a ha => absurd ha List.not_mem_nil
  | cons a as ih =>
    rw [List.mapM_cons] at h
    obtain ⟨b, ha, hrest⟩ := exists_of_bind_eq_ok h
    obtain ⟨bs, has, -⟩ := exists_of_bind_eq_ok hrest
    exact List.forall_mem_cons.mpr ⟨⟨b, ha⟩, ih has⟩

/-! ### Slot by slot -/

theorem setSlot_eq {kind : NodeKind} {slot : Nat} (h : slot < kind.children.length) (id : NodeId) :
    kind.setSlot slot id = .ok (kind.refill (kind.children.set slot id)) := by
  rw [NodeKind.setSlot, NodeKind.slotCount_eq, if_pos h]

/-- Writing one slot changes the content of the node and the links for that slot. -/
theorem replaceSlotChecked_eq {kind : NodeKind} {slot : Nat} {old new : NodeId}
    (hkind : s.kind? x = some kind) (hslot : slot < kind.children.length) (hne : old ≠ new)
    (hold : old < s.size) (hnew : new < s.size) :
    s.replaceSlotChecked x slot old new =
      .ok ((s.setKind x (kind.refill (kind.children.set slot new))).relink x old new) := by
  obtain ⟨n, hn, rfl⟩ := Option.map_eq_some_iff.mp hkind
  obtain ⟨before, hbefore⟩ :=
    exists_node? (t := s.setKind x (n.kind.refill (n.kind.children.set slot new)))
      (by rwa [size_setKind] : old < _)
  have hparent : (s.setKind x (n.kind.refill (n.kind.children.set slot new))).parent? old =
      before.parent := by rw [parent?, hbefore, Option.bind_some]
  obtain ⟨after, hafter⟩ := node_of_lt (x := new)
    (t := if before.parent = some x then
      (s.setKind x (n.kind.refill (n.kind.children.set slot new))).setParent old none
      else s.setKind x (n.kind.refill (n.kind.children.set slot new))) (by split <;> simpa)
  rw [replaceSlotChecked, relink, if_neg hne, hparent]
  simp only [node_of_node? hn, node_of_node? hbefore, setSlot_eq hslot, hafter, Bind.bind,
    Except.bind, pure, Except.pure]

/-- Writing the slot after those in `done`: the others keep what they hold. -/
theorem replaceSlotChecked_next {kind : NodeKind} {done old : List NodeId} {a b : NodeId}
    (hkind : s.kind? x = some (kind.refill (done ++ a :: old)))
    (hlength : (done ++ a :: old).length = kind.children.length) (hne : a ≠ b)
    (ha : a < s.size) (hb : b < s.size) :
    s.replaceSlotChecked x done.length a b =
      .ok ((s.setKind x (kind.refill (done ++ b :: old))).relink x a b) := by
  have hchildren : (kind.refill (done ++ a :: old)).children = done ++ a :: old :=
    NodeKind.children_refill hlength
  have hset : (done ++ a :: old).set done.length b = done ++ b :: old := by
    rw [List.set_append_right _ _ (Nat.le_refl _), Nat.sub_self, List.set_cons_zero]
  have hslot : done.length < (kind.refill (done ++ a :: old)).children.length := by
    simp [hchildren]
  have hfilled : (done ++ b :: old).length = kind.children.length := by
    rw [← hlength, ← hset, List.length_set]
  rw [replaceSlotChecked_eq hkind hslot hne ha hb, hchildren, hset,
    NodeKind.refill_refill hlength hfilled]

/-- The slots after `done` are written one by one: the node is as it was but for those done. -/
theorem foldlM_replaceSlot {kind : NodeKind} (done : List NodeId) {old new : List NodeId}
    (hkind : s.kind? x = some (kind.refill (done ++ old)))
    (hlength : (done ++ old).length = kind.children.length) (hnew : new.length = old.length)
    (hexists : ∀ slot ∈ old.zip new, slot.1 ≠ slot.2 → slot.1 < s.size ∧ slot.2 < s.size) :
    ((old.zip new).zipIdx done.length).foldlM
        (fun t ((old, new), slot) =>
          if old = new then pure t else t.replaceSlotChecked x slot old new) s =
      (.ok ((old.zip new).foldl (fun t (old, new) => t.relink x old new)
        (s.setKind x (kind.refill (done ++ new)))) : Except Fault Tree) := by
  induction old generalizing done new s with
  | nil =>
    obtain rfl := List.length_eq_zero_iff.mp hnew
    rw [List.zip_nil_right, setKind_self hkind]
    rfl
  | cons a old ih =>
    cases new with
    | nil => cases hnew
    | cons b new =>
      have hsplit : ∀ c (rest : List NodeId), done ++ c :: rest = done ++ [c] ++ rest :=
        fun c rest => List.append_cons done c rest
      rw [List.zip_cons_cons] at hexists
      obtain ⟨hhead, htail⟩ := List.forall_mem_cons.mp hexists
      rw [List.zip_cons_cons, List.zipIdx_cons, List.foldlM_cons, List.foldl_cons]
      by_cases heq : a = b
      · subst heq
        simp only [if_true, pure_bind, relink_self]
        rw [hsplit] at hkind hlength ⊢
        have hrest := ih (done ++ [a]) hkind hlength (Nat.succ.inj hnew) htail
        rwa [List.length_append, List.length_singleton] at hrest
      · obtain ⟨ha, hb⟩ := hhead heq
        have hwrite := replaceSlotChecked_next hkind hlength heq ha hb
        rw [hsplit b old] at hwrite
        have hlength' : (done ++ [b] ++ old).length = kind.children.length := by
          rw [← hlength]
          simp
        have hnext : ((s.setKind x (kind.refill (done ++ [b] ++ old))).relink x a b).kind? x =
            some (kind.refill (done ++ [b] ++ old)) := by
          rw [kind?_relink, kind?_setKind_self (lt_size_of_kind? hkind)]
        have hrest := ih (done ++ [b]) hnext hlength' (Nat.succ.inj hnew) (by simpa using htail)
        rw [setKind_relink, setKind_setKind, List.length_append, List.length_singleton] at hrest
        simp only [heq, if_false, hwrite, hsplit b new]
        exact hrest

/-- Writing the slots of a node one by one has the effect of filling them all at once. -/
theorem replaceChildrenChecked_eq {new : List NodeId} (hlength : new.length = (s.children x).length)
    (hexists : ∀ slot ∈ (s.children x).zip new, slot.1 ≠ slot.2 →
      slot.1 < s.size ∧ slot.2 < s.size) :
    s.replaceChildrenChecked x new = .ok (s.replaceChildren x new) := by
  unfold replaceChildrenChecked replaceChildren
  cases hkind : s.kind? x with
  | none =>
    rw [children, hkind]
    rfl
  | some kind =>
    rw [children_of_kind? hkind] at hlength hexists ⊢
    exact foldlM_replaceSlot [] (by simpa using hkind) rfl hlength hexists

/-- Only a node that exists is replaced. -/
theorem lt_size_of_follow_ne (h : t.follow r x ≠ x) : x < t.size := by
  by_contra hle
  have hnone := node?_eq_none.mpr (Nat.le_of_not_lt hle)
  refine h ?_
  rw [follow]
  cases t.size with
  | zero => rfl
  | succ steps => rw [followWithin, hnone, Option.isNone_none, Bool.or_true, if_pos rfl]

/-- Slots that are left with nodes of the tree can be written. -/
theorem replaceChildrenChecked_follow {nodes : List Node}
    (h : ((t.children x).map (t.follow r)).mapM t.node = .ok nodes) :
    t.replaceChildrenChecked x ((t.children x).map (t.follow r)) =
      .ok (t.replaceChildren x ((t.children x).map (t.follow r))) := by
  refine replaceChildrenChecked_eq (List.length_map _) fun slot hslot hne => ?_
  have hzip : (t.children x).zip ((t.children x).map (t.follow r)) =
      (t.children x).map fun c => (c, t.follow r c) := by
    simpa using List.zip_map' (f := id) (g := t.follow r) (l := t.children x)
  rw [hzip] at hslot
  obtain ⟨c, hc, rfl⟩ := List.mem_map.mp hslot
  obtain ⟨n, hn⟩ := ok_of_mapM h _ (List.mem_map_of_mem hc)
  exact ⟨lt_size_of_follow_ne (Ne.symm hne), lt_size_of_node hn⟩

/-! ### Walks -/

/-- A fold whose steps may fail agrees with a plain fold if their steps agree. -/
theorem foldl_eq_of_foldlM {σ α : Type} {step : σ → α → Except Fault σ} {plain : σ → α → σ}
    (hstep : ∀ s a s', step s a = .ok s' → plain s a = s') {as : List α} {s s' : σ}
    (h : as.foldlM step s = .ok s') : as.foldl plain s = s' := by
  induction as generalizing s with
  | nil => exact Except.ok.inj h
  | cons a as ih =>
    rw [List.foldlM_cons] at h
    obtain ⟨next, ha, hrest⟩ := exists_of_bind_eq_ok h
    rw [List.foldl_cons, hstep s a next ha]
    exact ih hrest

/-- A checked walk that finds no fault does what the walk without checks does. -/
theorem substituteBelow_eq_of_checked {depth : Nat} {id : NodeId} {result : Nat × Tree}
    (h : substituteBelowChecked r depth id t = .ok result) :
    substituteBelow r depth id t = result := by
  induction depth generalizing id t result with
  | zero => exact Except.ok.inj h
  | succ depth ih =>
    rw [substituteBelowChecked] at h
    obtain ⟨nodes, hnodes, hwrite⟩ := exists_of_bind_eq_ok h
    rw [replaceChildrenChecked_follow hnodes] at hwrite
    rw [substituteBelow]
    refine foldl_eq_of_foldlM ?_ hwrite
    rintro ⟨count, t⟩ child s' hs
    obtain ⟨below, hbelow, hcount⟩ := exists_of_bind_eq_ok hs
    simp only [ih hbelow]
    exact Except.ok.inj hcount

/-- Staged replacements that leave nothing dangling are applied as they are without the check. -/
theorem apply_eq_of_applyChecked {result : Nat × Tree} (h : t.applyChecked staged = .ok result) :
    t.apply staged = result := by
  rw [applyChecked] at h
  rw [apply]
  split at h
  · next hempty =>
    rw [if_pos hempty]
    exact Except.ok.inj h
  · next hempty =>
    rw [if_neg hempty]
    exact substituteBelow_eq_of_checked h

/-- A walk below a node finds no fault, and leaves the tree in progress. -/
theorem substituteBelowChecked_ok (hroot : g.Settles r g.root) (depth : Nat)
    (hy : g.ReachesAfter r g.root y) (hs : Progress g (g.follow r) s) :
    ∃ result, substituteBelowChecked r depth y s = .ok result ∧
      Progress g (g.follow r) result.2 := by
  induction depth generalizing y s with
  | zero => exact ⟨_, rfl, hs⟩
  | succ depth ih =>
    have hsettles := hy.settles hroot
    have hslots := hs.map_children hsettles
    -- What fills the slots settles, so it is below the size, which no step changes.
    obtain ⟨nodes, hnodes⟩ : ∃ nodes, (g.slotsAfter r y).mapM s.node = .ok nodes := by
      refine mapM_ok fun c hc => node_of_lt ?_
      rw [hs.size_eq]
      exact Grounded.lt (ReachesAfter.settles (Relation.ReflTransGen.tail hy hc) hroot)
    have hwrite : s.replaceChildrenChecked y (g.slotsAfter r y) =
        .ok (s.replaceChildren y (g.slotsAfter r y)) := by
      rw [← hslots] at hnodes ⊢
      exact replaceChildrenChecked_follow hnodes
    rw [substituteBelowChecked]
    simp only [hslots, hnodes, hwrite]
    -- The slots are walked one after the other, each in the tree that the last one left.
    refine foldlM_ok (P := fun sofar : Nat × Tree => Progress g (g.follow r) sofar.2) ?_
      (hs.replaceChildren hsettles).1
    rintro ⟨count, s⟩ c hc hs
    obtain ⟨⟨more, s'⟩, hbelow, hs'⟩ := ih (Relation.ReflTransGen.tail hy hc) hs
    refine ⟨(count + more, s'), ?_, hs'⟩
    simp only [hbelow]
    rfl

/-- Replacements that settle are applied without a fault. -/
theorem applyChecked_eq (hroot : g.Settles (fun id => staged.lookup id) g.root) :
    g.applyChecked staged = .ok (g.apply staged) := by
  obtain ⟨result, hresult⟩ : ∃ result, g.applyChecked staged = .ok result := by
    unfold applyChecked
    split
    · exact ⟨_, rfl⟩
    · obtain ⟨result, h, -⟩ := substituteBelowChecked_ok hroot g.walkDepth .refl (.start g _)
      exact ⟨result, h⟩
  rw [hresult, apply_eq_of_applyChecked hresult]

/-- Replacements for expressions of `t` that were made in `g` and can be put in their places. -/
structure Applicable (t g : Tree) (staged : Replacements) : Prop where
  key : ∀ x y, staged.lookup x = some y → t.Reaches t.root x ∧ ∃ e, t.expr x = .ok e
  value : ∀ x y, staged.lookup x = some y → ∃ e, g.expr y = .ok e
  /-- A new node holds nodes that were there before it. -/
  child : ∀ z c, t.size ≤ z → c ∈ g.children z → c < z
  /-- Every slot that is written is there, and is left with a node that is there. -/
  applied : g.applyChecked staged = .ok (g.apply staged)

theorem Staged.applicable {owner : NodeId → NodeId} (h : Staged t staged g owner)
    (hwf : t.WellFormed) : Applicable t g staged where
  key x y hxy := by
    obtain ⟨hreach, hexpr⟩ := hwf.mem_exprs.mp (h.key x y hxy).1
    obtain ⟨e, he⟩ := Option.isSome_iff_exists.mp hexpr
    exact ⟨hreach, e, expr_of_expr? he⟩
  value x y hxy := by
    have hexpr : (g.expr? y).isSome := by
      rcases h.value x y hxy with hmem | ⟨hle, hlt, -, -⟩
      · obtain ⟨hreach, hx⟩ := hwf.mem_exprs.mp (h.key x y hxy).1
        rw [expr?_congr (h.keeps.kind_eq y (hwf.lt_size (hreach.tail hmem)))]
        exact hwf.expr_of_child hreach hx hmem
      · exact h.expr y hle hlt
    obtain ⟨e, he⟩ := Option.isSome_iff_exists.mp hexpr
    exact ⟨e, expr_of_expr? he⟩
  child z c hz hc := (h.child z c hz hc).1
  applied := by
    refine applyChecked_eq ?_
    rw [h.keeps.root_eq]
    exact h.settles hwf .refl

end Tree

end StackTemplate
