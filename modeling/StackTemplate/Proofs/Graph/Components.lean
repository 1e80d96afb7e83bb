import Mathlib.Data.List.Flatten
import Mathlib.Data.List.Pairwise
import StackTemplate.Proofs.Graph.Cycles
import StackTemplate.Proofs.Text.Basic

/-!
# Components of a graph built by calls

Graphs are built by calls that add names and edges (`ofCalls`), and what a caller sees of the
components are names. So the main statement (`components_ofCalls`) is about the names in these
calls: what the search finds of vertices (`Condensed`) is carried over to their names (`Condenses`).
-/

namespace StackTemplate

namespace NameGraph

variable {g : NameGraph} {v w : Symbol}

/-! ### Components -/

theorem nodup_flatten_components (hg : g.Proper) : g.components.flatten.Nodup := by
  have h := components_condensed hg
  exact List.nodup_flatten.mpr ⟨h.nodup, h.ordered.imp And.left⟩

/-- Vertices are in one component if and only if they lead to each other. -/
theorem exists_component_iff (hg : g.Proper) (hv : v ∈ g.vertices) :
    (∃ members ∈ g.components, v ∈ members ∧ w ∈ members) ↔ g.Mutual v w := by
  have hclasses := (components_condensed hg).classes
  constructor
  · rintro ⟨members, hmembers, hvm, hwm⟩
    exact (hclasses members hmembers v hvm w).mp hwm
  · intro h
    obtain ⟨members, hmembers, hvm⟩ := List.mem_flatten.mp ((mem_flatten_components hg).mpr hv)
    exact ⟨members, hmembers, hvm, (hclasses members hmembers v hvm w).mpr h⟩

/-! ### Cycles -/

/-- A cycle has the members of its component. -/
theorem perm_of_mem_components (hg : g.Proper) {members : List Symbol}
    (h : members ∈ g.components) : (g.vertices.filter members.contains).Perm members := by
  have hnodup := (components_condensed hg).nodup members h
  rw [List.perm_ext_iff_of_nodup ((nodup_vertices g).filter _) hnodup]
  intro x
  rw [List.mem_filter, List.contains_iff_mem]
  exact and_iff_right_of_imp (mem_vertices_of_mem_components hg h)

theorem nodup_flatten_cycles (hg : g.Proper) : g.cycles.flatten.Nodup := by
  have hsublist : (g.components.filter g.isCycle).flatten.Nodup :=
    (nodup_flatten_components hg).sublist List.filter_sublist.flatten
  refine (List.Perm.flatten_congr ?_).nodup_iff.mpr hsublist
  rw [cycles, List.forall₂_map_left_iff, List.forall₂_same]
  exact fun members hmembers => perm_of_mem_components hg (List.mem_filter.mp hmembers).1

/-! ### Graphs by calls -/

/-- A call that adds a name, or an edge between two names. -/
inductive Call where
  | node (name : String)
  | edge (source target : String)
deriving DecidableEq

/-- The names in a call, in the order in which they come in. -/
def Call.names : Call → List String
  | .node name => [name]
  | .edge source target => [source, target]

/-- The graph after a call. -/
def Call.apply (g : NameGraph) : Call → NameGraph
  | .node name => (g.addNode name).2
  | .edge source target => g.addEdge source target

/-- The graph that calls make of the empty one. -/
def ofCalls (calls : List Call) : NameGraph := calls.foldl Call.apply {}

/-- The calls that add a name with edges to some targets. -/
def Call.item (name : String) (targets : List String) : List Call :=
  .node name :: targets.map (.edge name)

theorem foldl_item (g : NameGraph) (name : String) (targets : List String) :
    (Call.item name targets).foldl Call.apply g =
      targets.foldl (·.addEdge name ·) (g.addNode name).2 := by
  rw [Call.item, List.foldl_cons, List.foldl_map]
  rfl

theorem edge_mem_item {name : String} {targets : List String} :
    .edge n m ∈ Call.item name targets ↔ n = name ∧ m ∈ targets := by
  simp [Call.item, eq_comm, and_comm]

/-- The names in calls, each at its first place. -/
def insertionOrder (calls : List Call) : List String :=
  Text.firstOccurrences (calls.flatMap Call.names)

/-- There is a call for an edge between two names. -/
def Called (calls : List Call) (n m : String) : Prop := .edge n m ∈ calls

theorem Call.apply_spec (hg : g.Proper) (call : Call) :
    (call.apply g).Proper ∧ ∀ n m, (call.apply g).Links n m ↔ g.Links n m ∨ .edge n m = call := by
  cases call with
  | node name => exact ⟨hg.addNode name, fun n m => by simp [Call.apply, hg.links_addNode]⟩
  | edge source target =>
    obtain ⟨hproper, hlinks⟩ := addEdge_spec hg source target
    exact ⟨hproper, fun n m => by simp [Call.apply, hlinks]⟩

theorem foldl_apply_spec (hg : g.Proper) (calls : List Call) :
    (calls.foldl Call.apply g).Proper ∧
      ∀ n m, (calls.foldl Call.apply g).Links n m ↔ g.Links n m ∨ Called calls n m := by
  induction calls generalizing g with
  | nil => exact ⟨hg, fun n m => by simp [Called]⟩
  | cons call calls ih =>
    obtain ⟨hproper, hlinks⟩ := Call.apply_spec hg call
    obtain ⟨hproper', hlinks'⟩ := ih hproper
    refine ⟨hproper', fun n m => ?_⟩
    rw [List.foldl_cons, hlinks', hlinks, or_assoc]
    simp [Called]

theorem proper_ofCalls (calls : List Call) : (ofCalls calls).Proper :=
  (foldl_apply_spec proper_empty calls).1

theorem links_ofCalls (calls : List Call) : (ofCalls calls).Links = Called calls := by
  funext n m
  have h := (foldl_apply_spec proper_empty calls).2 n m
  rw [propext (or_iff_right not_links_empty)] at h
  exact propext h

theorem Call.names_apply (g : NameGraph) (call : Call) :
    (call.apply g).names.names = call.names.foldl
      (fun seen name => if name ∈ seen then seen else seen ++ [name]) g.names.names := by
  cases call with
  | node name => exact Interner.names_intern g.names name
  | edge source target =>
    have hnames : (g.addEdge source target).names =
        ((g.names.intern source).2.intern target).2 := by
      unfold addEdge
      dsimp only
      split <;> rfl
    show (g.addEdge source target).names.names = _
    rw [hnames, Interner.names_intern, Interner.names_intern]
    rfl

/-- Vertices stand in the order in which their names came in. -/
theorem names_ofCalls (calls : List Call) :
    (ofCalls calls).names.names = insertionOrder calls := by
  have hstep : ∀ (calls : List Call) (g : NameGraph), (calls.foldl Call.apply g).names.names =
      calls.foldl (fun seen call => call.names.foldl
        (fun seen name => if name ∈ seen then seen else seen ++ [name]) seen) g.names.names := by
    intro calls
    induction calls with
    | nil => exact fun _ => rfl
    | cons call calls ih =>
      intro g
      rw [List.foldl_cons, ih, Call.names_apply, List.foldl_cons]
  rw [ofCalls, hstep, insertionOrder, Text.firstOccurrences, List.foldl_flatMap]

theorem map_nameOf_vertices (g : NameGraph) : g.vertices.map g.nameOf = g.names.names := by
  refine List.ext_getElem (by simp [vertices]) fun i h _ => ?_
  have hlt : i < g.names.names.length := by simpa [vertices] using h
  simp [vertices, nameOf, Interner.name?, hlt]

/-- A vertex has its name. -/
theorem name?_eq_some (hv : v ∈ g.vertices) : g.names.name? v = some (g.nameOf v) := by
  obtain ⟨n, hn⟩ := Option.isSome_iff_exists.mp (isSome_name?.mpr hv)
  rw [nameOf, hn, Option.getD_some]

theorem Proper.nameOf_inj (hg : g.Proper) (hv : v ∈ g.vertices) (hw : w ∈ g.vertices)
    (h : g.nameOf v = g.nameOf w) : v = w :=
  hg.name?_inj (name?_eq_some hv) (h ▸ name?_eq_some hw)

/-- Ways between names are ways between their vertices. -/
theorem leads_iff (hg : g.Proper) (hv : v ∈ g.vertices) (hw : w ∈ g.vertices) :
    Relation.ReflTransGen g.Links (g.nameOf v) (g.nameOf w) ↔ g.Leads v w := by
  have hinj : g.nameOf w = g.nameOf v ↔ w = v :=
    ⟨hg.nameOf_inj hw hv, fun h => h ▸ rfl⟩
  rw [Leads, Relation.reflTransGen_iff_eq_or_transGen, Relation.reflTransGen_iff_eq_or_transGen,
    hinj, transGen_links hg (name?_eq_some hv) (name?_eq_some hw), Returns]

/-! ### The names of components -/

/-- Components, as names. -/
def componentNames (g : NameGraph) : List (List String) := g.components.map (·.map g.nameOf)

/-- Cycles, as names. -/
def cycleNames (g : NameGraph) : List (List String) := g.cycles.map (·.map g.nameOf)

/-- Lists of names that are the components of a relation, each after those that it leads to. -/
structure Condenses (names : List String) (edge : String → String → Prop)
    (lists : List (List String)) : Prop where
  /-- Every name stands in the lists once. -/
  perm : lists.flatten.Perm names
  /-- Names stand together if each can be reached from the other. -/
  together : ∀ n ∈ names, ∀ m ∈ names, (∃ members ∈ lists, n ∈ members ∧ m ∈ members) ↔
    Relation.ReflTransGen edge n m ∧ Relation.ReflTransGen edge m n
  /-- No list has an edge to a later one. -/
  ordered : lists.Pairwise fun earlier later => ∀ n ∈ earlier, ∀ m ∈ later, ¬ edge n m

theorem flatten_componentNames_perm (hg : g.Proper) :
    g.componentNames.flatten.Perm g.names.names := by
  rw [componentNames, ← List.map_flatten, ← map_nameOf_vertices]
  refine List.Perm.map g.nameOf ?_
  rw [List.perm_ext_iff_of_nodup (nodup_flatten_components hg) (nodup_vertices g)]
  exact fun v => mem_flatten_components hg

theorem condenses (hg : g.Proper) : Condenses g.names.names g.Links g.componentNames where
  perm := flatten_componentNames_perm hg
  together n hn m hm := by
    rw [← map_nameOf_vertices] at hn hm
    obtain ⟨v, hv, rfl⟩ := List.mem_map.mp hn
    obtain ⟨w, hw, rfl⟩ := List.mem_map.mp hm
    rw [leads_iff hg hv hw, leads_iff hg hw hv, ← Mutual, ← exists_component_iff hg hv]
    have hmem : ∀ members ∈ g.components, ∀ u ∈ g.vertices,
        g.nameOf u ∈ members.map g.nameOf ↔ u ∈ members := by
      intro members hmembers u hu
      refine ⟨fun h => ?_, fun h => List.mem_map_of_mem h⟩
      obtain ⟨u', hu', heq⟩ := List.mem_map.mp h
      rwa [← hg.nameOf_inj (mem_vertices_of_mem_components hg hmembers hu') hu heq]
    simp only [componentNames, List.mem_map, exists_exists_and_eq_and]
    refine exists_congr fun members => and_congr_right fun hmembers => ?_
    rw [← List.mem_map, ← List.mem_map, hmem members hmembers v hv, hmem members hmembers w hw]
  ordered := by
    rw [componentNames, List.pairwise_map]
    refine (components_condensed hg).ordered.imp_of_mem ?_
    rintro earlier later hearlier hlater ⟨-, hnone⟩ n hn m hm ⟨a, b, hedge, ha, hb⟩
    obtain ⟨v, hv, rfl⟩ := List.mem_map.mp hn
    obtain ⟨w, hw, rfl⟩ := List.mem_map.mp hm
    rw [hg.name?_inj ha (name?_eq_some (mem_vertices_of_mem_components hg hearlier hv)),
      hg.name?_inj hb (name?_eq_some (mem_vertices_of_mem_components hg hlater hw))] at hedge
    exact hnone v hv w hw hedge

/-- A cycle has its names in the order of the vertices. -/
theorem cycleNames_sublist {cycle : List String} (h : cycle ∈ g.cycleNames) :
    cycle.Sublist g.names.names := by
  obtain ⟨members, hmembers, rfl⟩ := List.mem_map.mp h
  obtain ⟨component, -, rfl⟩ := List.mem_map.mp hmembers
  rw [← map_nameOf_vertices]
  exact List.filter_sublist.map g.nameOf

/-- A cycle has the names of a component. -/
theorem exists_perm_of_mem_cycleNames (hg : g.Proper) {cycle : List String}
    (h : cycle ∈ g.cycleNames) : ∃ members ∈ g.componentNames, cycle.Perm members := by
  obtain ⟨members, hmembers, rfl⟩ := List.mem_map.mp h
  obtain ⟨component, hcomponent, rfl⟩ := List.mem_map.mp hmembers
  have hcomponent := (List.mem_filter.mp hcomponent).1
  refine ⟨_, List.mem_map_of_mem hcomponent, ?_⟩
  exact (perm_of_mem_components hg hcomponent).map g.nameOf

theorem cyclicNames_eq (g : NameGraph) : g.cyclicNames = g.cycleNames.flatten := by
  rw [cyclicNames, cycleNames, List.map_flatten]

theorem nodup_cyclicNames (hg : g.Proper) : g.cyclicNames.Nodup := by
  refine List.Nodup.map_on (fun v hv w hw heq => ?_) (nodup_flatten_cycles hg)
  exact hg.nameOf_inj ((mem_cycles hg).mp hv).1 ((mem_cycles hg).mp hw).1 heq

/-- However a graph is built, its components are those of the edges in the calls, each after those
that it leads to; its cyclic names are the names that lead back to themselves; and each cycle has
the names of a component in the order in which they came in. -/
theorem components_ofCalls (calls : List Call) :
    Condenses (insertionOrder calls) (Called calls) (ofCalls calls).componentNames ∧
      (insertionOrder calls).Nodup ∧
      (∀ n, n ∈ insertionOrder calls ↔ ∃ call ∈ calls, n ∈ call.names) ∧
      (ofCalls calls).cyclicNames.Nodup ∧
      (∀ n, n ∈ (ofCalls calls).cyclicNames ↔ Relation.TransGen (Called calls) n n) ∧
      (ofCalls calls).cyclicNames = (ofCalls calls).cycleNames.flatten ∧
      ∀ cycle ∈ (ofCalls calls).cycleNames, cycle.Sublist (insertionOrder calls) ∧
        ∃ members ∈ (ofCalls calls).componentNames, cycle.Perm members := by
  have hg := proper_ofCalls calls
  rw [← names_ofCalls, ← links_ofCalls]
  refine ⟨condenses hg, hg.nodup, fun n => ?_, nodup_cyclicNames hg, fun n => mem_cyclicNames hg,
    cyclicNames_eq _, fun cycle hcycle => ?_⟩
  · rw [names_ofCalls, insertionOrder, Text.mem_firstOccurrences, List.mem_flatMap]
  · exact ⟨cycleNames_sublist hcycle, exists_perm_of_mem_cycleNames hg hcycle⟩

end NameGraph

end StackTemplate
