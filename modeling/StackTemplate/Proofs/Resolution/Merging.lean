import Mathlib.Data.List.Perm.Basic
import StackTemplate.Decl

/-!
# Edges merged by target

The edges to one target are merged into one that has the guards common to all of them. Merging
goes edge by edge and changes the guards of the merged edges as it goes. Here it is taken apart
target by target (`uniqueByTarget_cons`): the first edge keeps the guards that all later edges to
its target have, and the edges to other targets are merged as if it were not there. The main
statement says what a merged edge is, and that it stands for all the edges it replaces
(`Decl.uniqueDependencies_intersect`).
-/

namespace StackTemplate

namespace Dependency

variable {ds ds' : List Dependency} {d e e' : Dependency} {holds : Guard → Prop}

/-- The edge applies when all its guards hold. -/
def IsActive (holds : Guard → Prop) (d : Dependency) : Prop := ∀ g ∈ d.guards, holds g

/-- An edge with those of its guards that all edges of a list to its target have. -/
def common (e : Dependency) (ds : List Dependency) : Dependency :=
  { e with guards := e.guards.filter fun g => ds.all fun d =>
      d.target != e.target || d.guards.contains g }

@[simp] theorem common_target (e : Dependency) (ds : List Dependency) :
    (e.common ds).target = e.target := rfl

@[simp] theorem common_origin (e : Dependency) (ds : List Dependency) :
    (e.common ds).origin = e.origin := rfl

theorem common_guards_sublist (e : Dependency) (ds : List Dependency) :
    (e.common ds).guards.Sublist e.guards :=
  List.filter_sublist

theorem mem_common_guards {g : Guard} : g ∈ (e.common ds).guards ↔
    g ∈ e.guards ∧ ∀ d ∈ ds, d.target = e.target → g ∈ d.guards := by
  unfold common
  rw [List.mem_filter, List.all_eq_true]
  refine and_congr_right fun _ => forall₂_congr fun d _ => ?_
  rw [Bool.or_eq_true, bne_iff_ne, List.contains_iff_mem, ← imp_iff_not_or]

/-! ### One target at a time -/

/-- Merging into a list leaves its first edge with the common guards, and gives the other edges
to the rest of the list. -/
theorem foldl_mergeInto_cons (ds : List Dependency) (e : Dependency) (es : List Dependency) :
    ds.foldl (fun merged d => mergeInto d merged) (e :: es) =
      e.common ds :: (ds.filter fun d => d.target != e.target).foldl
        (fun merged d => mergeInto d merged) es := by
  induction ds generalizing e es with
  | nil => simp [common]
  | cons d ds ih =>
    rw [List.foldl_cons, mergeInto]
    split
    · next heq =>
      rw [ih, List.filter_cons_of_neg (by simp [heq])]
      simp [common, heq, List.filter_filter, Bool.and_comm]
    · next hne =>
      have hother : (d.target != e.target) = true := bne_iff_ne.2 fun h => hne h.symm
      rw [ih, List.filter_cons_of_pos (by exact hother), List.foldl_cons]
      simp [common, hother]

/-- The first edge stands for its target; the other targets are merged without it. -/
theorem uniqueByTarget_cons (d : Dependency) (ds : List Dependency) :
    uniqueByTarget (d :: ds) =
      d.common ds :: uniqueByTarget (ds.filter fun d' => d'.target != d.target) :=
  foldl_mergeInto_cons ds d []

/-- Induction over the targets of a list: one target at a time is taken out. -/
theorem targetInduction {P : List Dependency → Prop} (nil : P [])
    (cons : ∀ d ds, P (ds.filter fun d' => d'.target != d.target) → P (d :: ds)) :
    ∀ ds, P ds
  | [] => nil
  | d :: ds => cons d ds (targetInduction nil cons (ds.filter fun d' => d'.target != d.target))
termination_by ds => ds.length
decreasing_by exact Nat.lt_succ_of_le (List.length_filter_le _ _)

/-- The targets of the merged edges are those of the edges, each where it occurs first. -/
theorem map_target_uniqueByTarget (ds : List Dependency) :
    (uniqueByTarget ds).map (·.target) = (ds.map (·.target)).eraseDups := by
  induction ds using targetInduction with
  | nil => rfl
  | cons d ds ih =>
    rw [uniqueByTarget_cons, List.map_cons, ih, common_target, List.map_cons, List.eraseDups_cons,
      List.filter_map]
    rfl

theorem nodup_target_uniqueByTarget (ds : List Dependency) :
    ((uniqueByTarget ds).map (·.target)).Nodup := by
  induction ds using targetInduction with
  | nil => exact List.nodup_nil
  | cons d ds ih =>
    rw [uniqueByTarget_cons, List.map_cons, List.nodup_cons]
    refine ⟨?_, ih⟩
    rw [map_target_uniqueByTarget, List.mem_eraseDups]
    simp

/-! ### What a merged edge is -/

/-- The edge has the place of the first edge of a list to its target, and the guards that all the
edges of the list to its target have, in the order of the first. -/
structure Intersects (ds : List Dependency) (e : Dependency) : Prop where
  /-- The origin is that of the first edge, and no guard is new. -/
  first : ∃ d, ds.find? (fun d => d.target = e.target) = some d ∧ e.origin = d.origin ∧
    e.guards.Sublist d.guards
  /-- The guards are those that all edges have. -/
  mem_guards : ∀ g, g ∈ e.guards ↔ ∀ d ∈ ds, d.target = e.target → g ∈ d.guards

theorem intersects_common (d : Dependency) (ds : List Dependency) :
    Intersects (d :: ds) (d.common ds) where
  first := ⟨d, by simp, rfl, common_guards_sublist d ds⟩
  mem_guards g := by
    rw [mem_common_guards, List.forall_mem_cons, common_target]
    simp

/-- Edges to another target do not matter. -/
theorem Intersects.cons (h : Intersects (ds.filter fun d' => d'.target != d.target) e) :
    Intersects (d :: ds) e := by
  obtain ⟨first, hfirst, horigin, hguards⟩ := h.first
  -- the first edge found in what is left has the target of `e` and not that of `d`
  have htarget : first.target = e.target := by simpa using List.find?_some hfirst
  have hother : e.target ≠ d.target := by
    simpa [htarget] using List.of_mem_filter (List.mem_of_find?_eq_some hfirst)
  have hsame : ∀ d' : Dependency, d'.target = e.target → d'.target ≠ d.target :=
    fun d' h => h ▸ hother
  refine ⟨⟨first, ?_, horigin, hguards⟩, fun g => ?_⟩
  · rw [List.find?_cons_of_neg (by simpa using fun h => hother h.symm), ← hfirst,
      List.find?_filter]
    congr 1
    funext d'
    simpa using hsame d'
  · have hskip : d.target = e.target → g ∈ d.guards := fun h => absurd h.symm hother
    rw [h.mem_guards g, List.forall_mem_cons, and_iff_right hskip]
    refine forall_congr' fun d' => ?_
    rw [List.mem_filter, bne_iff_ne, and_imp]
    exact forall_congr' fun _ => ⟨fun h ht => h (hsame d' ht) ht, fun h _ => h⟩

theorem intersects_of_mem (he : e ∈ uniqueByTarget ds) : Intersects ds e := by
  induction ds using targetInduction with
  | nil => exact absurd he List.not_mem_nil
  | cons d ds ih =>
    rw [uniqueByTarget_cons, List.mem_cons] at he
    obtain rfl | he := he
    · exact intersects_common d ds
    · exact (ih he).cons

/-! ### What follows for a reader of the merged edges -/

/-- A merged edge applies whenever an edge that it stands for does. -/
theorem Intersects.isActive (h : Intersects ds e) (hd : d ∈ ds) (htarget : d.target = e.target)
    (hactive : d.IsActive holds) : e.IsActive holds :=
  fun g hg => hactive g ((h.mem_guards g).1 hg d hd htarget)

theorem Intersects.isConditional_eq_false (h : Intersects ds e) (hd : d ∈ ds)
    (htarget : d.target = e.target) (hfree : d.isConditional = false) :
    e.isConditional = false := by
  have hnone : d.guards = [] := by simpa [isConditional] using hfree
  have hempty : e.guards = [] := by
    refine List.eq_nil_iff_forall_not_mem.2 fun g hg => ?_
    have hmem := (h.mem_guards g).1 hg d hd htarget
    exact absurd hmem (by simp [hnone])
  simp [isConditional, hempty]

/-- The order of the edges does not matter for the guards. -/
theorem Intersects.guards_congr (h : Intersects ds e) (h' : Intersects ds' e')
    (hperm : ds.Perm ds') (htarget : e'.target = e.target) (g : Guard) :
    g ∈ e.guards ↔ g ∈ e'.guards := by
  rw [h.mem_guards g, h'.mem_guards g, htarget]
  exact forall_congr' fun d => by rw [hperm.mem_iff]

theorem perm_target_uniqueByTarget (hperm : ds.Perm ds') :
    ((uniqueByTarget ds).map (·.target)).Perm ((uniqueByTarget ds').map (·.target)) := by
  rw [List.perm_ext_iff_of_nodup (nodup_target_uniqueByTarget ds) (nodup_target_uniqueByTarget ds')]
  intro name
  rw [map_target_uniqueByTarget, map_target_uniqueByTarget, List.mem_eraseDups,
    List.mem_eraseDups, (hperm.map _).mem_iff]

end Dependency

namespace Decl

open Dependency

/-- The merged edges have each target of the edges once, where it occurs first. Each has the
origin of the first edge to its target and exactly the guards common to all of them: so it applies
whenever one of them does, whatever the guards mean, and it is unconditional as soon as one of them
is. With the edges in any other order the targets and the sets of guards are the same. -/
theorem uniqueDependencies_intersect (d : Decl) :
    d.uniqueDependencies.map (·.target) = (d.dependencies.map (·.target)).eraseDups ∧
    (d.uniqueDependencies.map (·.target)).Nodup ∧
    (∀ e ∈ d.uniqueDependencies,
      (∃ first, d.dependencies.find? (fun edge => edge.target = e.target) = some first ∧
        e.origin = first.origin ∧ e.guards.Sublist first.guards) ∧
      (∀ g, g ∈ e.guards ↔ ∀ edge ∈ d.dependencies, edge.target = e.target → g ∈ edge.guards) ∧
      (∀ holds : Guard → Prop,
        (∃ edge ∈ d.dependencies, edge.target = e.target ∧ edge.IsActive holds) →
          e.IsActive holds) ∧
      ((∃ edge ∈ d.dependencies, edge.target = e.target ∧ edge.isConditional = false) →
        e.isConditional = false)) ∧
    ∀ d' : Decl, d.dependencies.Perm d'.dependencies →
      (d.uniqueDependencies.map (·.target)).Perm (d'.uniqueDependencies.map (·.target)) ∧
      ∀ e ∈ d.uniqueDependencies, ∀ e' ∈ d'.uniqueDependencies, e'.target = e.target →
        ∀ g, g ∈ e.guards ↔ g ∈ e'.guards := by
  refine ⟨map_target_uniqueByTarget _, nodup_target_uniqueByTarget _, fun e he => ?_,
    fun d' hperm => ⟨perm_target_uniqueByTarget hperm, fun e he e' he' => ?_⟩⟩
  · have h : Intersects d.dependencies e := intersects_of_mem he
    refine ⟨h.first, h.mem_guards, ?_, ?_⟩
    · rintro holds ⟨edge, hedge, htarget, hactive⟩
      exact h.isActive hedge htarget hactive
    · rintro ⟨edge, hedge, htarget, hfree⟩
      exact h.isConditional_eq_false hedge htarget hfree
  · exact (intersects_of_mem he).guards_congr (intersects_of_mem he') hperm

/-- A variable with two edges to one item, under guards that overlap, and edges to another between
and after them. -/
def interleaved : Decl where
  localName := "V"
  kind := .var none 9
  dependencies :=
    [⟨"Db", [.condition "A" false, .condition "B" false], 1⟩, ⟨"Log", [.condition "A" false], 2⟩,
      ⟨"Db", [.condition "C" false, .condition "B" false], 3⟩, ⟨"Log", [], 4⟩]

/-- The two edges to the first item leave the guard that both have. The merged edge applies where
only the second of them does. -/
theorem interleaved_intersect :
    interleaved.uniqueDependencies = [⟨"Db", [.condition "B" false], 1⟩, ⟨"Log", [], 2⟩] ∧
    (interleaved.uniqueDependencies.map (·.target)).Nodup ∧
    (⟨"Db", [.condition "B" false], 1⟩ : Dependency).IsActive (· ≠ .condition "A" false) := by
  have h := uniqueDependencies_intersect interleaved
  have hmem : (⟨"Db", [.condition "B" false], 1⟩ : Dependency) ∈ interleaved.uniqueDependencies := by
    decide
  refine ⟨by decide, h.2.1, (h.2.2.1 _ hmem).2.2.1 _ ⟨⟨"Db", [.condition "C" false,
    .condition "B" false], 3⟩, by decide, rfl, ?_⟩⟩
  simp [IsActive]

end Decl

end StackTemplate
