import Mathlib.Data.List.Nodup
import Mathlib.Data.List.Pairwise
import Mathlib.Logic.Relation
import StackTemplate.Graph.Basic

/-!
# Ways along edges

A vertex leads to another if there is a way along edges, and two that lead to each other are in one
component. `Condensed g found` says of some lists that they are components, that every edge out of
them stays among them, and that no edge goes to a later one. A search finds components one after the
other, and this is what each of them keeps (`Condensed.append`).
-/

namespace StackTemplate.NameGraph

variable {g : NameGraph} {v w : Symbol} {members : List Symbol} {found : List (List Symbol)}

/-- A graph in which names are not repeated and edges connect vertices. -/
structure Proper (g : NameGraph) : Prop where
  nodup : g.names.names.Nodup
  bounded : ∀ a b, (a, b) ∈ g.edges → a ∈ g.vertices ∧ b ∈ g.vertices

/-- There is a way along edges, maybe of no edge. -/
def Leads (g : NameGraph) : Symbol → Symbol → Prop :=
  Relation.ReflTransGen fun a b => (a, b) ∈ g.edges

/-- There is a way along at least one edge. -/
def Returns (g : NameGraph) : Symbol → Symbol → Prop :=
  Relation.TransGen fun a b => (a, b) ∈ g.edges

/-- Two vertices lead to each other. -/
def Mutual (g : NameGraph) (v w : Symbol) : Prop := g.Leads v w ∧ g.Leads w v

theorem mem_vertices : v ∈ g.vertices ↔ v.index < g.names.names.length := by
  unfold vertices
  rw [List.mem_map]
  constructor
  · rintro ⟨i, hi, rfl⟩
    exact List.mem_range.mp hi
  · intro h
    exact ⟨v.index, List.mem_range.mpr h, rfl⟩

theorem nodup_vertices (g : NameGraph) : g.vertices.Nodup :=
  List.nodup_range.map fun _ _ => Symbol.mk.inj

theorem mem_successors : w ∈ g.successors v ↔ (v, w) ∈ g.edges := by
  unfold successors
  rw [List.mem_filterMap]
  constructor
  · rintro ⟨⟨a, b⟩, hmem, hif⟩
    simp only at hif
    split at hif
    · next heq =>
      obtain rfl := Option.some.inj hif
      rwa [← heq]
    · cases hif
  · intro h
    exact ⟨(v, w), h, if_pos rfl⟩

theorem Proper.successor (hg : g.Proper) (h : w ∈ g.successors v) : w ∈ g.vertices :=
  (hg.bounded v w (mem_successors.mp h)).2

theorem leads_successor (h : w ∈ g.successors v) : g.Leads v w := .single (mem_successors.mp h)

/-! ### Lists of components -/

/-- Lists that are components, each after those that its edges lead to. -/
structure Condensed (g : NameGraph) (found : List (List Symbol)) : Prop where
  nodup : ∀ members ∈ found, members.Nodup
  nonempty : ∀ members ∈ found, members ≠ []
  classes : ∀ members ∈ found, ∀ v ∈ members, ∀ w, w ∈ members ↔ g.Mutual v w
  closed : ∀ v ∈ found.flatten, ∀ w ∈ g.successors v, w ∈ found.flatten
  ordered : found.Pairwise fun earlier later => earlier.Disjoint later ∧
    ∀ v ∈ earlier, ∀ w ∈ later, (v, w) ∉ g.edges

theorem Condensed.nil (g : NameGraph) : Condensed g [] where
  nodup _ h := absurd h List.not_mem_nil
  nonempty _ h := absurd h List.not_mem_nil
  classes _ h := absurd h List.not_mem_nil
  closed _ h := absurd h List.not_mem_nil
  ordered := .nil

/-- What the components lead to is among them. -/
theorem Condensed.leads (h : Condensed g found) (hv : v ∈ found.flatten) (hlead : g.Leads v w) :
    w ∈ found.flatten := by
  induction hlead with
  | refl => exact hv
  | @tail x w _ hedge ih => exact h.closed x ih w (mem_successors.mpr hedge)

/-- Vertices that lead to each other, and by edges to nothing but themselves and the components
before them, are one more component. -/
theorem Condensed.append (h : Condensed g found) (hnodup : members.Nodup) (hv : v ∈ members)
    (hmutual : ∀ w ∈ members, g.Mutual v w) (hapart : ∀ w ∈ members, w ∉ found.flatten)
    (hclosed : ∀ x ∈ members, ∀ w ∈ g.successors x, w ∈ members ∨ w ∈ found.flatten) :
    Condensed g (found ++ [members]) := by
  have hleads : ∀ w, g.Leads v w → w ∈ members ∨ w ∈ found.flatten := by
    intro w hlead
    induction hlead with
    | refl => exact .inl hv
    | @tail x w _ hedge ih =>
      rcases ih with hx | hx
      · exact hclosed x hx w (mem_successors.mpr hedge)
      · exact .inr (h.closed x hx w (mem_successors.mpr hedge))
  -- A way into the components before does not come back.
  have hclass : ∀ w, w ∈ members ↔ g.Mutual v w := fun w => by
    refine ⟨hmutual w, fun hw => (hleads w hw.1).resolve_right fun hfound => ?_⟩
    exact hapart v hv (h.leads hfound hw.2)
  have hflatten : (found ++ [members]).flatten = found.flatten ++ members := by simp
  exact
    { nodup := List.forall_mem_append.mpr ⟨h.nodup, List.forall_mem_singleton.mpr hnodup⟩
      nonempty := List.forall_mem_append.mpr
        ⟨h.nonempty, List.forall_mem_singleton.mpr (List.ne_nil_of_mem hv)⟩
      classes := by
        refine List.forall_mem_append.mpr ⟨h.classes, List.forall_mem_singleton.mpr ?_⟩
        intro x hx w
        obtain ⟨hvx, hxv⟩ := (hclass x).mp hx
        rw [hclass]
        exact ⟨fun hw => ⟨hxv.trans hw.1, hw.2.trans hvx⟩,
          fun hw => ⟨hvx.trans hw.1, hw.2.trans hxv⟩⟩
      closed := by
        rw [hflatten]
        intro x hx w hw
        rcases List.mem_append.mp hx with hx | hx
        · exact List.mem_append_left _ (h.closed x hx w hw)
        · exact List.mem_append.mpr (hclosed x hx w hw).symm
      ordered := by
        refine List.pairwise_append.mpr ⟨h.ordered, List.pairwise_singleton _ _, ?_⟩
        refine fun earlier hearlier => List.forall_mem_singleton.mpr ⟨fun x hx hxm => ?_, ?_⟩
        · exact hapart x hxm (List.mem_flatten_of_mem hearlier hx)
        · intro x hx w hw hedge
          refine hapart w hw (h.closed x ?_ w (mem_successors.mpr hedge))
          exact List.mem_flatten_of_mem hearlier hx }

end StackTemplate.NameGraph
