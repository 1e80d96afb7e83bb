import Mathlib.Data.Finset.Card
import Mathlib.Data.Finset.Range
import Mathlib.Logic.Relation
import StackTemplate.NodeId

/-!
# Finite descent

The walks over a tree recurse on a depth, and are called with the number of nodes as that depth.
This module says when that is enough, for any way of going down: `next` gives the nodes right below
a node, and `bound` is the number of nodes there are.

A node is *grounded* if every way down from it ends, inside the store. No way down from a grounded
node meets a node twice, so none has more than `bound` nodes (`within_of_grounded`), and whatever a
walk finds `bound` levels deep is all there is to find.
-/

namespace StackTemplate

/-- Whether `y` can be met on a way down from `x`, `x` itself included. -/
def Descends (next : NodeId → List NodeId) : NodeId → NodeId → Prop :=
  Relation.ReflTransGen fun p c => c ∈ next p

/-- Every way down from the node ends, and all nodes on it exist. -/
inductive Grounded (next : NodeId → List NodeId) (bound : Nat) : NodeId → Prop where
  | intro {x : NodeId} (lt : x < bound) (below : ∀ c ∈ next x, Grounded next bound c) :
    Grounded next bound x

/-- No way down from the node has more than `depth` nodes, and all nodes on it exist. -/
def Within (next : NodeId → List NodeId) (bound : Nat) : (depth : Nat) → NodeId → Prop
  | 0, _ => False
  | depth + 1, x => x < bound ∧ ∀ c ∈ next x, Within next bound depth c

variable {next : NodeId → List NodeId} {bound : Nat} {x y z : NodeId}

namespace Grounded

theorem lt (h : Grounded next bound x) : x < bound := by
  cases h with
  | intro lt below => exact lt

theorem child (h : Grounded next bound x) (hy : y ∈ next x) : Grounded next bound y := by
  cases h with
  | intro lt below => exact below y hy

theorem descend (h : Grounded next bound x) (hy : Descends next x y) : Grounded next bound y := by
  induction hy with
  | refl => exact h
  | tail _ hstep ih => exact ih.child hstep

/-- A grounded node is not below itself. -/
theorem not_transGen (h : Grounded next bound x) :
    ¬ Relation.TransGen (fun p c => c ∈ next p) x x := by
  induction h with
  | @intro x lt below ih =>
    intro hcycle
    obtain ⟨c, hc, hback⟩ := Relation.TransGen.head'_iff.mp hcycle
    exact ih c hc (Relation.TransGen.tail' hback hc)

end Grounded

/-- Ways down that agree wherever one of them leads lead to the same nodes. -/
theorem descends_congr {next' : NodeId → List NodeId}
    (h : ∀ y, Descends next x y → next' y = next y) : Descends next' x z ↔ Descends next x z := by
  constructor
  · intro hz
    induction hz with
    | refl => exact .refl
    | tail _ hstep ih => exact ih.tail (h _ ih ▸ hstep)
  · intro hz
    induction hz with
    | refl => exact .refl
    | tail hy hstep ih =>
      rw [← h _ hy] at hstep
      exact ih.tail hstep

/-! ### Counting what is below -/

open Classical in
/-- The nodes on the ways down from a node. -/
noncomputable def nodesBelow (next : NodeId → List NodeId) (bound : Nat) (x : NodeId) :
    Finset NodeId :=
  (Finset.range bound).filter (Descends next x)

theorem mem_nodesBelow : y ∈ nodesBelow next bound x ↔ y < bound ∧ Descends next x y := by
  simp [nodesBelow]

theorem card_nodesBelow_le (x : NodeId) : (nodesBelow next bound x).card ≤ bound := by
  have hsubset : nodesBelow next bound x ⊆ Finset.range bound := by
    intro y hy
    exact Finset.mem_range.mpr (mem_nodesBelow.mp hy).1
  simpa using Finset.card_le_card hsubset

/-- One step down loses at least the node that it starts from, unless that lies on a cycle. -/
theorem card_nodesBelow_lt (hx : x < bound) (hy : y ∈ next x)
    (hacyclic : ¬ Relation.TransGen (fun p c => c ∈ next p) x x) :
    (nodesBelow next bound y).card < (nodesBelow next bound x).card := by
  apply Finset.card_lt_card
  rw [Finset.ssubset_iff_of_subset]
  · refine ⟨x, mem_nodesBelow.mpr ⟨hx, .refl⟩, fun hmem => hacyclic ?_⟩
    exact .head' hy (mem_nodesBelow.mp hmem).2
  · intro z hz
    obtain ⟨hlt, hdescends⟩ := mem_nodesBelow.mp hz
    exact mem_nodesBelow.mpr ⟨hlt, .head hy hdescends⟩

/-- Where every step leads to a lower rank, no way comes back. -/
theorem not_transGen_of_rank (rank : NodeId → Nat)
    (hrank : ∀ p, Descends next x p → ∀ c ∈ next p, rank c < rank p) :
    ∀ y, Descends next x y → ¬ Relation.TransGen (fun p c => c ∈ next p) y y := by
  intro y hy hcycle
  have hlower : ∀ z, Relation.TransGen (fun p c => c ∈ next p) y z → rank z < rank y := by
    intro z hz
    induction hz with
    | single hc => exact hrank y hy _ hc
    | tail hz hc ih => exact (hrank _ (hy.trans hz.to_reflTransGen) _ hc).trans ih
  exact Nat.lt_irrefl _ (hlower y hcycle)

/-- Where nothing on the way down is missing or lies on a cycle, every way down ends. -/
theorem grounded_of_acyclic (hlt : ∀ y, Descends next x y → y < bound)
    (hacyclic : ∀ y, Descends next x y → ¬ Relation.TransGen (fun p c => c ∈ next p) y y) :
    Grounded next bound x := by
  -- Every step down leaves fewer nodes below.
  induction hn : (nodesBelow next bound x).card using Nat.strong_induction_on generalizing x with
  | _ n ih =>
    refine .intro (hlt x .refl) fun c hc => ?_
    have hless := card_nodesBelow_lt (hlt x .refl) hc (hacyclic x .refl)
    exact ih _ (hn ▸ hless) (fun y hy => hlt y (.head hc hy))
      (fun y hy => hacyclic y (.head hc hy)) rfl

/-! ### How deep a walk must go -/

theorem Within.mono {depth depth' : Nat} (hle : depth ≤ depth') (h : Within next bound depth x) :
    Within next bound depth' x := by
  induction depth generalizing depth' x with
  | zero => exact h.elim
  | succ depth ih =>
    obtain ⟨depth', rfl⟩ : ∃ d, depth' = d + 1 := ⟨depth' - 1, by omega⟩
    exact ⟨h.1, fun c hc => ih (by omega) (h.2 c hc)⟩

theorem Grounded.within_card (h : Grounded next bound x) :
    Within next bound (nodesBelow next bound x).card x := by
  induction h with
  | @intro x lt below ih =>
    have hacyclic := (Grounded.intro lt below).not_transGen
    have hpos : 0 < (nodesBelow next bound x).card :=
      Finset.card_pos.mpr ⟨x, mem_nodesBelow.mpr ⟨lt, .refl⟩⟩
    obtain ⟨n, hn⟩ : ∃ n, (nodesBelow next bound x).card = n + 1 :=
      ⟨(nodesBelow next bound x).card - 1, by omega⟩
    rw [hn]
    refine ⟨lt, fun c hc => (ih c hc).mono ?_⟩
    have := card_nodesBelow_lt lt hc hacyclic
    omega

/-- The number of nodes is a depth that no way down from a grounded node exceeds. -/
theorem within_of_grounded (h : Grounded next bound x) : Within next bound bound x :=
  h.within_card.mono (card_nodesBelow_le x)

/-- Below a grounded node there is room for one level less. -/
theorem Grounded.exists_within (h : Grounded next bound x) :
    ∃ depth, bound = depth + 1 ∧ ∀ c ∈ next x, Within next bound depth c := by
  have hwithin := within_of_grounded h
  cases bound with
  | zero => exact hwithin.elim
  | succ depth => exact ⟨depth, rfl, hwithin.2⟩

end StackTemplate
