import Mathlib.Algebra.BigOperators.Group.List.Basic
import Mathlib.Algebra.Order.Ring.Nat
import StackTemplate.Proofs.Tree.Stillness

/-!
# How many slots a walk changes

A substitution counts the slots that it changes, on a tree that it changes on the way. On a
well-formed tree the walk meets every node once, so the count is a sum over the tree as it was
before: over all slots within reach afterwards, whether their content is replaced (`slotWork`,
`Staged.count_apply`).
-/

namespace StackTemplate

namespace Tree

variable {t g s : Tree} {r : NodeId → Option NodeId} {x y z : NodeId} {staged : Replacements}
  {owner : NodeId → NodeId}

theorem totalOf_eq_sum {α : Type} (f : α → Nat) (as : List α) : totalOf f as = (as.map f).sum := by
  induction as with
  | nil => rfl
  | cons a as ih => rw [totalOf, ih, List.map_cons, List.sum_cons]

/-! ### The count as a sum -/

/-- The number of slots that a substitution changes at a node and, `depth` levels deep, below
it. -/
def workWithin (g : Tree) (r : NodeId → Option NodeId) : (depth : Nat) → NodeId → Nat
  | 0, _ => 0
  | depth + 1, x => changes (g.children x) (g.slotsAfter r x) +
      totalOf (g.workWithin r depth) (g.slotsAfter r x)

/-- The number of slots that a substitution changes at a node and below it. -/
def work (g : Tree) (r : NodeId → Option NodeId) (x : NodeId) : Nat := g.workWithin r g.size x

/-- The number of changes that a slot makes, with all that is below what it then holds. -/
def slotWork (g : Tree) (r : NodeId → Option NodeId) (c : NodeId) : Nat :=
  (if g.follow r c = c then 0 else 1) + g.work r (g.follow r c)

theorem slotWork_congr {g' : Tree} {r' : NodeId → Option NodeId} {c c' : NodeId}
    (hwork : g'.work r' (g'.follow r' c') = g.work r (g.follow r c))
    (hself : g'.follow r' c' = c' ↔ g.follow r c = c) : g'.slotWork r' c' = g.slotWork r c := by
  rw [slotWork, slotWork, hwork]
  simp only [hself]

theorem workWithin_congr {n m : Nat} (hn : Within (g.slotsAfter r) g.size n x)
    (hm : Within (g.slotsAfter r) g.size m x) : g.workWithin r n x = g.workWithin r m x := by
  induction n generalizing m x with
  | zero => exact hn.elim
  | succ n ih =>
    cases m with
    | zero => exact hm.elim
    | succ m =>
      rw [workWithin, workWithin, totalOf_congr fun c hc => ih (hn.2 c hc) (hm.2 c hc)]

theorem changes_map (f : NodeId → NodeId) (as : List NodeId) :
    changes as (as.map f) = totalOf (fun a => if f a = a then 0 else 1) as := by
  induction as with
  | nil => rfl
  | cons a as ih =>
    rw [totalOf, ← ih, List.map_cons, changes, List.zip_cons_cons, List.countP_cons, Nat.add_comm,
      changes]
    by_cases hfixed : f a = a
    · simp [hfixed]
    · simp [hfixed, Ne.symm hfixed]

/-- The changes at a node are those that its slots make. -/
theorem work_eq (h : g.Settles r x) : g.work r x = totalOf (g.slotWork r) (g.children x) := by
  obtain ⟨depth, hsize, hbelow⟩ := Grounded.exists_within (grounded_slotsAfter h).1
  have hslots : totalOf (g.workWithin r depth) (g.slotsAfter r x) =
      totalOf (g.work r) (g.slotsAfter r x) := by
    refine totalOf_congr fun c hc => workWithin_congr (hbelow c hc) (within_of_grounded ?_)
    exact Grounded.child (grounded_slotsAfter h).1 hc
  rw [work, hsize, workWithin, hslots, slotsAfter, changes_map]
  simp only [totalOf_eq_sum, List.map_map, ← List.sum_map_add]
  rfl

/-! ### The count of the walk -/

/-- No node is below two slots of one node afterwards, and no node is below itself. -/
structure Spreads (g : Tree) (r : NodeId → Option NodeId) : Prop where
  apart : ∀ p, g.ReachesAfter r g.root p → (g.slotsAfter r p).Pairwise fun c d =>
    ∀ z, g.ReachesAfter r c z → ¬ g.ReachesAfter r d z
  not_back : ∀ p c, g.ReachesAfter r g.root p → c ∈ g.slotsAfter r p → ¬ g.ReachesAfter r c p

/-- Walking below one node leaves what is below others as it was, so the counts add up. -/
theorem walkAll_count {depth : Nat} {new : List NodeId} (start : Nat × Tree)
    (hwalk : ∀ c ∈ new, ∀ s, Progress g (g.follow r) s →
      (∀ z, g.ReachesAfter r c z → s.kind? z = g.kind? z) →
      Progress g (g.follow r) (substituteBelow r depth c s).2 ∧
        (substituteBelow r depth c s).1 = g.workWithin r depth c ∧
        ∀ z, ¬ g.ReachesAfter r c z → (substituteBelow r depth c s).2.kind? z = s.kind? z)
    (hapart : new.Pairwise fun c d => ∀ z, g.ReachesAfter r c z → ¬ g.ReachesAfter r d z)
    (hs : Progress g (g.follow r) start.2)
    (hfresh : ∀ c ∈ new, ∀ z, g.ReachesAfter r c z → start.2.kind? z = g.kind? z) :
    (walkAll r depth start new).1 = start.1 + totalOf (g.workWithin r depth) new ∧
      ∀ z, (∀ c ∈ new, ¬ g.ReachesAfter r c z) →
        (walkAll r depth start new).2.kind? z = start.2.kind? z := by
  induction new generalizing start with
  | nil => exact ⟨rfl, fun _ _ => rfl⟩
  | cons c new ih =>
    obtain ⟨hfirst, hapart⟩ := List.pairwise_cons.mp hapart
    obtain ⟨hcfresh, hfresh⟩ := List.forall_mem_cons.mp hfresh
    obtain ⟨hc, hwalk⟩ := List.forall_mem_cons.mp hwalk
    obtain ⟨hprogress, hcount, hkept⟩ := hc start.2 hs hcfresh
    let next := (start.1 + (substituteBelow r depth c start.2).1,
      (substituteBelow r depth c start.2).2)
    have hnext : ∀ d ∈ new, ∀ z, g.ReachesAfter r d z → next.2.kind? z = g.kind? z := by
      intro d hd z hz
      rw [hkept z fun hcz => hfirst d hd z hcz hz]
      exact hfresh d hd z hz
    obtain ⟨hrest, hkept'⟩ := ih next hwalk hapart hprogress hnext
    refine ⟨?_, fun z hz => ?_⟩
    · rw [totalOf, ← Nat.add_assoc, ← hcount]
      exact hrest
    · obtain ⟨hcz, hz⟩ := List.forall_mem_cons.mp hz
      exact (hkept' z hz).trans (hkept z hcz)

/-- The walk below a node whose subtree it has not met counts each change there once, and leaves all
other nodes. -/
theorem substituteBelow_count (hspreads : g.Spreads r) (hroot : g.Settles r g.root) {depth : Nat}
    (hdepth : Within (g.slotsAfter r) g.size depth y) (hy : g.ReachesAfter r g.root y)
    (hs : Progress g (g.follow r) s)
    (hfresh : ∀ z, g.ReachesAfter r y z → s.kind? z = g.kind? z) :
    (substituteBelow r depth y s).1 = g.workWithin r depth y ∧
      ∀ z, ¬ g.ReachesAfter r y z → (substituteBelow r depth y s).2.kind? z = s.kind? z := by
  induction depth generalizing y s with
  | zero => exact hdepth.elim
  | succ depth ih =>
    have hsettles := hy.settles hroot
    obtain ⟨hs', -, hother⟩ := hs.replaceChildren hsettles
    have hwalk : substituteBelow r (depth + 1) y s =
        walkAll r depth (changes (g.children y) (g.slotsAfter r y),
          s.replaceChildren y (g.slotsAfter r y)) (g.slotsAfter r y) := by
      rw [substituteBelow, hs.map_children hsettles, children_congr (hfresh y .refl)]
      rfl
    have hslot : ∀ c ∈ g.slotsAfter r y, ∀ s, Progress g (g.follow r) s →
        (∀ z, g.ReachesAfter r c z → s.kind? z = g.kind? z) →
        Progress g (g.follow r) (substituteBelow r depth c s).2 ∧
          (substituteBelow r depth c s).1 = g.workWithin r depth c ∧
          ∀ z, ¬ g.ReachesAfter r c z → (substituteBelow r depth c s).2.kind? z = s.kind? z := by
      intro c hc s hs hfresh
      have hprogress := (substituteBelow_spec (Q := fun _ => True) hroot
        (fun _ _ _ _ _ => trivial) (hdepth.2 c hc) (hy.tail hc) hs trivial).1
      exact ⟨hprogress, ih (hdepth.2 c hc) (hy.tail hc) hs hfresh⟩
    -- Refilling the slots of `y` does not touch what is below them.
    have hfresh' : ∀ c ∈ g.slotsAfter r y, ∀ z, g.ReachesAfter r c z →
        (s.replaceChildren y (g.slotsAfter r y)).kind? z = g.kind? z := by
      intro c hc z hz
      rw [hother z fun heq => hspreads.not_back y c hy hc (heq ▸ hz)]
      exact hfresh z (.head hc hz)
    obtain ⟨hcount, hkept⟩ := walkAll_count
      (changes (g.children y) (g.slotsAfter r y), s.replaceChildren y (g.slotsAfter r y)) hslot
      (hspreads.apart y hy) hs' hfresh'
    rw [hwalk]
    refine ⟨hcount, fun z hz => ?_⟩
    rw [hkept z fun c hc hcz => hz (.head hc hcz), hother z fun heq => hz (heq ▸ .refl)]

/-- A substitution that replaces nothing changes nothing. -/
theorem workWithin_of_none (g : Tree) (depth : Nat) (x : NodeId) :
    g.workWithin (fun _ => none) depth x = 0 := by
  have hslots : ∀ x, g.slotsAfter (fun _ => none) x = g.children x := fun x => by
    rw [slotsAfter, follow_none, List.map_id]
  induction depth generalizing x with
  | zero => rfl
  | succ depth ih =>
    rw [workWithin, hslots, totalOf_congr fun c _ => ih c, totalOf_eq_sum]
    nth_rewrite 2 [← List.map_id (g.children x)]
    rw [changes_map, totalOf_eq_sum]
    simp

section Staged

variable (h : Staged t staged g owner) (hwf : t.WellFormed)

include h hwf

theorem Staged.spreads : g.Spreads fun id => staged.lookup id where
  apart p hp := by
    have hwf' := h.wellFormed_apply hwf
    have hp' := (h.reaches_apply hwf).mpr hp
    have hchildren := h.children_apply hwf hp
    have hnodup := hwf'.nodup hp'
    rw [hchildren] at hnodup
    refine hnodup.imp_of_mem fun {c d} hc hd hne z hcz hdz => ?_
    rw [← h.reaches_apply_of_reaches hwf (hp.tail hc)] at hcz
    rw [← h.reaches_apply_of_reaches hwf (hp.tail hd)] at hdz
    rw [← hchildren] at hc hd
    rcases hwf'.reaches_or_reaches (hp'.tail hc) (hp'.tail hd) hcz hdz with hcd | hdc
    · exact hwf'.not_reaches_sibling hp' hc hd hne hcd
    · exact hwf'.not_reaches_sibling hp' hd hc (Ne.symm hne) hdc
  not_back p c hp hc hback := by
    rw [← h.reaches_apply_of_reaches hwf (hp.tail hc)] at hback
    rw [← h.children_apply hwf hp] at hc
    exact (h.wellFormed_apply hwf).acyclic ((h.reaches_apply hwf).mpr hp) (.head' hc hback)

/-- Applying what is staged counts the changes that slots make, from the root on. -/
theorem Staged.count_apply :
    (g.apply staged).1 = g.work (fun id => staged.lookup id) t.root := by
  have hroot : g.Settles (fun id => staged.lookup id) g.root := by
    rw [h.keeps.root_eq]
    exact h.settles hwf .refl
  have hgrounded := (grounded_slotsAfter hroot).1
  have hdepth := (within_of_grounded hgrounded).mono (size_le_walkDepth g)
  rw [← h.keeps.root_eq, apply]
  split
  · next hempty =>
    rw [List.isEmpty_iff.mp hempty]
    exact (workWithin_of_none g g.size g.root).symm
  · rw [substitute, (substituteBelow_count (h.spreads hwf) hroot hdepth .refl (.start g _)
      fun _ _ => rfl).1]
    exact workWithin_congr hdepth (within_of_grounded hgrounded)

/-- What is no expression stays in its slot. -/
theorem Staged.slotWork_host (hx : t.Reaches t.root x) (he : t.expr? x = none) :
    g.slotWork (fun id => staged.lookup id) x = g.work (fun id => staged.lookup id) x := by
  have hfixed := (h.follow_eq_self_iff hwf hx).mpr (h.lookup_of_not_expr hwf he)
  rw [slotWork, if_pos hfixed, hfixed, Nat.zero_add]

end Staged

end Tree

end StackTemplate
