import Mathlib.Data.List.Chain
import StackTemplate.Proofs.Graph.Components

/-!
# Trails back to the start

A breadth-first search whose queue holds whole trails, and not only their ends, has the way back in
hand when it comes upon an edge to the start. From the first member of a cycle it does come back,
with a closed path (`exists_wayBack`).

`Seeks` is the invariant of the search. A vertex that was seen and no longer waits in the queue has
all its successors among the seen ones, so a queue that runs empty would leave the start out of
every way that begins there. Each look takes a trail off the queue and puts one back for every
vertex that is seen for the first time, which is why as many looks as there are members are enough.
-/

namespace StackTemplate

/-- A closed path along `edge` among the members of a list, from the first of them back to it. -/
structure ClosedPath {α : Type} (edge : α → α → Prop) (members path : List α) : Prop where
  head?_eq : path.head? = members.head?
  getLast?_eq : path.getLast? = members.head?
  two_le_length : 2 ≤ path.length
  chain : path.IsChain edge
  inside : ∀ v ∈ path, v ∈ members

theorem ClosedPath.map {α β : Type} {edge : α → α → Prop} {edge' : β → β → Prop}
    {members path : List α} (h : ClosedPath edge members path) (f : α → β)
    (hedge : ∀ a ∈ members, ∀ b ∈ members, edge a b → edge' (f a) (f b)) :
    ClosedPath edge' (members.map f) (path.map f) where
  head?_eq := by rw [List.head?_map, List.head?_map, h.head?_eq]
  getLast?_eq := by rw [List.getLast?_map, List.head?_map, h.getLast?_eq]
  two_le_length := by
    rw [List.length_map]
    exact h.two_le_length
  chain := by
    rw [List.isChain_map]
    exact h.chain.imp_of_mem_imp fun a b ha hb => hedge a (h.inside a ha) b (h.inside b hb)
  inside := by
    intro v hv
    obtain ⟨a, ha, rfl⟩ := List.mem_map.mp hv
    exact List.mem_map_of_mem (h.inside a ha)

namespace NameGraph

variable {g : NameGraph} {start v w : Symbol} {members seen : List Symbol}

/-- There is an edge between two vertices. -/
def Edge (g : NameGraph) (a b : Symbol) : Prop := (a, b) ∈ g.edges

/-! ### Edges are listed once -/

theorem nodup_edges_addEdge (h : g.edges.Nodup) (source target : String) :
    (g.addEdge source target).edges.Nodup := by
  unfold addEdge
  dsimp only
  split
  · exact h
  · next hnew =>
    rw [hasEdge, List.contains_iff_mem] at hnew
    refine List.nodup_append.mpr ⟨h, List.nodup_singleton _, ?_⟩
    intro a ha b hb heq
    rw [heq, List.mem_singleton.mp hb] at ha
    exact hnew ha

theorem nodup_edges_ofCalls (calls : List Call) : (ofCalls calls).edges.Nodup := by
  have hrun : ∀ (calls : List Call) (g : NameGraph), g.edges.Nodup →
      (calls.foldl Call.apply g).edges.Nodup := by
    intro calls
    induction calls with
    | nil => exact fun g h => h
    | cons call calls ih =>
      intro g h
      refine ih _ ?_
      cases call with
      | node name => exact h
      | edge source target => exact nodup_edges_addEdge h source target
  exact hrun calls {} List.nodup_nil

theorem nodup_successors (h : g.edges.Nodup) (v : Symbol) : (g.successors v).Nodup := by
  refine List.Nodup.filterMap ?_ h
  rintro ⟨a, b⟩ ⟨a', b'⟩ w hw hw'
  simp only [Option.mem_def, Option.ite_none_right_eq_some, Option.some.injEq] at hw hw'
  rw [hw.1, hw.2, hw'.1, hw'.2]

/-! ### Trails -/

/-- A path that ends at a vertex: the vertices before it, the latest first. -/
structure Trail where
  stop : Symbol
  before : List Symbol := []
deriving DecidableEq, Inhabited

/-- The vertices of a trail, its end first. -/
def Trail.backwards (p : Trail) : List Symbol := p.stop :: p.before

/-- The trail with one more step. -/
def Trail.extend (p : Trail) (v : Symbol) : Trail := { stop := v, before := p.backwards }

variable {p : Trail} {queue : List Trail}

/-- A trail goes from `start` along edges among the members. -/
structure Trail.Walks (g : NameGraph) (start : Symbol) (members : List Symbol) (p : Trail) :
    Prop where
  getLast?_eq : p.backwards.getLast? = some start
  chain : p.backwards.IsChain fun b a => g.Edge a b
  inside : ∀ v ∈ p.backwards, v ∈ members

theorem Trail.Walks.extend (h : p.Walks g start members) (hedge : g.Edge p.stop v)
    (hv : v ∈ members) : (p.extend v).Walks g start members where
  getLast?_eq := by
    show (v :: p.stop :: p.before).getLast? = some start
    rw [List.getLast?_cons_cons]
    exact h.getLast?_eq
  chain := List.isChain_cons_cons.mpr ⟨hedge, h.chain⟩
  inside := List.forall_mem_cons.mpr ⟨hv, h.inside⟩

/-- A trail that can be continued to its start is a closed path. -/
theorem Trail.Walks.closes (h : p.Walks g start members) (hstart : members.head? = some start)
    (hedge : g.Edge p.stop start) : ClosedPath g.Edge members (start :: p.backwards).reverse where
  head?_eq := by
    rw [List.head?_reverse, hstart, backwards, List.getLast?_cons_cons]
    exact h.getLast?_eq
  getLast?_eq := by rw [List.getLast?_reverse, List.head?_cons, hstart]
  two_le_length := by
    rw [List.length_reverse, backwards, List.length_cons, List.length_cons]
    omega
  chain := List.isChain_reverse.mpr (List.isChain_cons_cons.mpr ⟨hedge, h.chain⟩)
  inside := by
    intro v hv
    rcases List.mem_cons.mp (List.mem_reverse.mp hv) with rfl | hv
    · exact List.mem_of_head? hstart
    · exact h.inside v hv

/-! ### The search -/

/-- Breadth-first search for a way back to `start` among `members`, with `steps` trails looked at.
The queue holds the trails to look at, and `seen` their ends and the ends of those before. -/
def wayBack (g : NameGraph) (start : Symbol) (members : List Symbol) :
    (steps : Nat) → (queue : List Trail) → (seen : List Symbol) → Option (List Symbol)
  | 0, _, _ => none
  | _ + 1, [], _ => none
  | steps + 1, p :: queue, seen =>
    let next := (g.successors p.stop).filter members.contains
    if next.contains start then some (start :: p.backwards).reverse
    else
      let fresh := next.filter fun v => !seen.contains v
      g.wayBack start members steps (queue ++ fresh.map p.extend) (seen ++ fresh)

/-- The vertices that a look at a trail sees for the first time. -/
def freshFrom (g : NameGraph) (members seen : List Symbol) (p : Trail) : List Symbol :=
  ((g.successors p.stop).filter members.contains).filter (!seen.contains ·)

theorem mem_freshFrom :
    v ∈ g.freshFrom members seen p ↔ g.Edge p.stop v ∧ v ∈ members ∧ v ∉ seen := by
  simp only [freshFrom, List.mem_filter, mem_successors, List.contains_iff_mem,
    Bool.not_eq_true', Edge, and_assoc, ← Bool.not_eq_true]

theorem start_mem_next (hstart : start ∈ members) :
    ((g.successors v).filter members.contains).contains start = true ↔ g.Edge v start := by
  rw [List.contains_iff_mem, List.mem_filter, mem_successors, List.contains_iff_mem, Edge]
  exact and_iff_left hstart

/-- A look at a trail with an edge back ends the search. -/
theorem wayBack_of_edge (hstart : start ∈ members) (hback : g.Edge p.stop start) (steps : Nat) :
    g.wayBack start members (steps + 1) (p :: queue) seen = some (start :: p.backwards).reverse := by
  rw [wayBack]
  exact if_pos ((start_mem_next hstart).mpr hback)

/-- A look at any other trail puts one in the queue for every vertex seen for the first time. -/
theorem wayBack_of_not_edge (hstart : start ∈ members) (hback : ¬ g.Edge p.stop start)
    (steps : Nat) :
    g.wayBack start members (steps + 1) (p :: queue) seen = g.wayBack start members steps
      (queue ++ (g.freshFrom members seen p).map p.extend) (seen ++ g.freshFrom members seen p) := by
  rw [wayBack]
  exact if_neg (mt (start_mem_next hstart).mp hback)

/-- The progress of a search from `start`: the queue holds trails, and a vertex that waits no more
leads to seen vertices only. The start does not count as seen. -/
structure Seeks (g : NameGraph) (start : Symbol) (members : List Symbol) (queue : List Trail)
    (seen : List Symbol) : Prop where
  walks : ∀ p ∈ queue, p.Walks g start members
  nodup : seen.Nodup
  inside : ∀ v ∈ seen, v ∈ members ∧ v ≠ start
  looked : ∀ v, v = start ∨ v ∈ seen →
    (∃ p ∈ queue, p.stop = v) ∨ ∀ w, g.Edge v w → w ∈ members → w ∈ seen

theorem Seeks.begin (g : NameGraph) (hstart : start ∈ members) :
    Seeks g start members [{ stop := start }] [] where
  walks p hp := by
    obtain rfl := List.mem_singleton.mp hp
    exact ⟨rfl, List.isChain_singleton _, fun v hv => List.mem_singleton.mp hv ▸ hstart⟩
  nodup := List.nodup_nil
  inside v hv := absurd hv List.not_mem_nil
  looked v hv := by
    obtain rfl := hv.resolve_right List.not_mem_nil
    exact .inl ⟨_, List.mem_singleton.mpr rfl, rfl⟩

/-- One look: the successors of a vertex that are seen for the first time join the queue. -/
theorem Seeks.step (h : Seeks g start members (p :: queue) seen) (hedges : g.edges.Nodup)
    (hback : ¬ g.Edge p.stop start) :
    Seeks g start members (queue ++ (g.freshFrom members seen p).map p.extend)
      (seen ++ g.freshFrom members seen p) := by
  refine ⟨fun q hq => ?_, ?_, fun v hv => ?_, fun v hv => ?_⟩
  · rcases List.mem_append.mp hq with hq | hq
    · exact h.walks q (List.mem_cons_of_mem _ hq)
    · obtain ⟨v, hv, rfl⟩ := List.mem_map.mp hq
      obtain ⟨hedge, hmember, -⟩ := mem_freshFrom.mp hv
      exact (h.walks p (List.mem_cons_self ..)).extend hedge hmember
  · refine List.nodup_append.mpr ⟨h.nodup, ?_, ?_⟩
    · exact ((nodup_successors hedges p.stop).filter _).filter _
    · intro a ha b hb heq
      exact (mem_freshFrom.mp hb).2.2 (heq ▸ ha)
  · rcases List.mem_append.mp hv with hv | hv
    · exact h.inside v hv
    · obtain ⟨hedge, hmember, -⟩ := mem_freshFrom.mp hv
      exact ⟨hmember, fun heq => hback (heq ▸ hedge)⟩
  · -- A vertex waits as before, is the one looked at, or has just joined the queue.
    by_cases hnew : v ∈ g.freshFrom members seen p
    · exact .inl ⟨p.extend v, List.mem_append_right _ (List.mem_map_of_mem hnew), rfl⟩
    · have hold : v = start ∨ v ∈ seen :=
        hv.imp_right fun hv => (List.mem_append.mp hv).resolve_right hnew
      rcases h.looked v hold with ⟨q, hq, hstop⟩ | hdone
      · rcases List.mem_cons.mp hq with rfl | hq
        · refine .inr fun w hedge hw => ?_
          by_cases hseen : w ∈ seen
          · exact List.mem_append_left _ hseen
          · exact List.mem_append_right _ (mem_freshFrom.mpr ⟨hstop ▸ hedge, hw, hseen⟩)
        · exact .inl ⟨q, List.mem_append_left _ hq, hstop⟩
      · exact .inr fun w hedge hw => List.mem_append_left _ (hdone w hedge hw)

/-- A search with an empty queue has seen all that the start leads to, which the start is not. -/
theorem Seeks.not_returns (h : Seeks g start members [] seen) :
    ¬ Relation.TransGen (fun a b => g.Edge a b ∧ b ∈ members) start start := by
  have hclosed : ∀ v, v = start ∨ v ∈ seen → ∀ w, g.Edge v w → w ∈ members → w ∈ seen := by
    intro v hv
    rcases h.looked v hv with ⟨p, hp, -⟩ | hdone
    · exact absurd hp List.not_mem_nil
    · exact hdone
  have hseen : ∀ w, Relation.TransGen (fun a b => g.Edge a b ∧ b ∈ members) start w → w ∈ seen := by
    intro w hw
    induction hw with
    | single hedge => exact hclosed start (.inl rfl) _ hedge.1 hedge.2
    | tail _ hedge ih => exact hclosed _ (.inr ih) _ hedge.1 hedge.2
  exact fun hback => (h.inside start (hseen start hback)).2 rfl

/-- A search from a vertex that returns to itself comes back, with a closed path. -/
theorem wayBack_closed (hedges : g.edges.Nodup) (hstart : members.head? = some start)
    (hback : Relation.TransGen (fun a b => g.Edge a b ∧ b ∈ members) start start) (steps : Nat)
    (h : Seeks g start members queue seen)
    (hsteps : queue.length + members.length ≤ steps + seen.length) :
    ∃ path, g.wayBack start members steps queue seen = some path ∧
      ClosedPath g.Edge members path := by
  induction steps generalizing queue seen with
  | zero =>
    -- All members but the start can be seen, so no search uses up its steps.
    have hsubset : start :: seen ⊆ members :=
      List.cons_subset.mpr ⟨List.mem_of_head? hstart, fun v hv => (h.inside v hv).1⟩
    have hnodup : (start :: seen).Nodup :=
      List.nodup_cons.mpr ⟨fun hmem => (h.inside start hmem).2 rfl, h.nodup⟩
    have hlength := (hnodup.subperm hsubset).length_le
    rw [List.length_cons] at hlength
    omega
  | succ steps ih =>
    match queue with
    | [] => exact absurd hback h.not_returns
    | p :: queue =>
      by_cases hclose : g.Edge p.stop start
      · rw [wayBack_of_edge (List.mem_of_head? hstart) hclose]
        exact ⟨_, rfl, (h.walks p (List.mem_cons_self ..)).closes hstart hclose⟩
      · rw [wayBack_of_not_edge (List.mem_of_head? hstart) hclose]
        refine ih (h.step hedges hclose) ?_
        -- One trail leaves the queue; as many join it as vertices are newly seen.
        simp only [List.length_append, List.length_map, List.length_cons] at hsteps ⊢
        omega

/-! ### Cycles -/

/-- A cycle has members, and these are the vertices that lead to and from any of them. -/
theorem cycle_spec (hg : g.Proper) (h : members ∈ g.cycles) :
    members ≠ [] ∧ ∀ v ∈ members, v ∈ g.vertices ∧ g.Returns v v ∧
      ∀ w, w ∈ members ↔ g.Mutual v w := by
  obtain ⟨component, hcomponent, rfl⟩ := List.mem_map.mp h
  obtain ⟨hcomponent, hcycle⟩ := List.mem_filter.mp hcomponent
  have hcondensed := components_condensed hg
  have hmem : ∀ w, w ∈ g.vertices.filter component.contains ↔ w ∈ component :=
    fun w => (perm_of_mem_components hg hcomponent).mem_iff
  obtain ⟨u, hu⟩ := List.exists_mem_of_ne_nil _ (hcondensed.nonempty component hcomponent)
  refine ⟨List.ne_nil_of_mem ((hmem u).mpr hu), fun v hv => ?_⟩
  have hv := (hmem v).mp hv
  refine ⟨mem_vertices_of_mem_components hg hcomponent hv, (isCycle_iff hg hcomponent hv).mp hcycle,
    fun w => ?_⟩
  rw [hmem, hcondensed.classes component hcomponent v hv]

/-- From a member of a cycle edges lead back among the members. -/
theorem returns_within (hg : g.Proper) (h : members ∈ g.cycles) (hv : v ∈ members) :
    Relation.TransGen (fun a b => g.Edge a b ∧ b ∈ members) v v := by
  obtain ⟨-, hreturns, hmem⟩ := (cycle_spec hg h).2 v hv
  -- Whatever lies on a way from the vertex back to it belongs to the component.
  have hinside : ∀ w, g.Returns v w → g.Leads w v →
      Relation.TransGen (fun a b => g.Edge a b ∧ b ∈ members) v w := by
    intro w hw
    induction hw with
    | single hedge => exact fun hback => .single ⟨hedge, (hmem _).mpr ⟨.single hedge, hback⟩⟩
    | tail hway hedge ih =>
      intro hback
      have hmember := (hmem _).mpr ⟨hway.to_reflTransGen.tail hedge, hback⟩
      exact (ih (.head hedge hback)).tail ⟨hedge, hmember⟩
  exact hinside v hreturns .refl

/-- The search through a cycle comes back, with a closed path. -/
theorem exists_wayBack (hg : g.Proper) (hedges : g.edges.Nodup) (h : members ∈ g.cycles) :
    ∃ start path, members.head? = some start ∧
      g.wayBack start members (g.names.names.length + 1) [{ stop := start }] [] = some path ∧
      ClosedPath g.Edge members path := by
  obtain ⟨start, hstart⟩ : ∃ start, members.head? = some start :=
    Option.ne_none_iff_exists'.mp (mt List.head?_eq_none_iff.mp (cycle_spec hg h).1)
  have hback := returns_within hg h (List.mem_of_head? hstart)
  have hlength : members.length ≤ g.names.names.length := by
    obtain ⟨component, -, rfl⟩ := List.mem_map.mp h
    refine Nat.le_trans (List.length_filter_le _ _) ?_
    rw [vertices, List.length_map, List.length_range]
  have hsteps : [({ stop := start } : Trail)].length + members.length ≤
      g.names.names.length + 1 + ([] : List Symbol).length := by
    simp only [List.length_cons, List.length_nil]
    omega
  obtain ⟨path, hpath, hclosed⟩ := wayBack_closed hedges hstart hback (g.names.names.length + 1)
    (.begin g (List.mem_of_head? hstart)) hsteps
  exact ⟨start, path, hstart, hpath, hclosed⟩

end NameGraph

end StackTemplate
