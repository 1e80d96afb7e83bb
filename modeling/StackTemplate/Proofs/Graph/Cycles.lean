import StackTemplate.Proofs.Graph.Search

/-!
# Names on cycles

A component is a class of vertices that lead to each other, and it is a cycle just when its members
lead back to themselves along at least one edge. So the names on cycles are those from which the
edges lead back (`mem_cyclicNames`). Edges are stated between names (`Links`), which is how graphs
are built.
-/

namespace StackTemplate

/-! ### Interned names -/

namespace Interner

theorem names_intern (t : Interner) (name : String) :
    (t.intern name).2.names = if name ∈ t.names then t.names else t.names ++ [name] := by
  unfold intern
  cases hfind : t.names.findIdx? (· == name) with
  | none =>
    have hnot : name ∉ t.names := by
      intro hmem
      simpa using List.findIdx?_eq_none_iff.mp hfind name hmem
    simp [hnot]
  | some i =>
    obtain ⟨hlt, heq, -⟩ := List.findIdx?_eq_some_iff_getElem.mp hfind
    have hmem : name ∈ t.names := by
      rw [← eq_of_beq heq]
      exact List.getElem_mem hlt
    simp [hmem]

theorem name?_intern (t : Interner) (name : String) :
    (t.intern name).2.name? (t.intern name).1 = some name := by
  unfold intern name?
  cases hfind : t.names.findIdx? (· == name) with
  | none => simp
  | some i =>
    obtain ⟨hlt, heq, -⟩ := List.findIdx?_eq_some_iff_getElem.mp hfind
    simp [List.getElem?_eq_getElem hlt, eq_of_beq heq]

/-- Symbols keep their names. -/
theorem name?_intern_of_name? {t : Interner} {v : Symbol} {n : String} (name : String)
    (h : t.name? v = some n) : (t.intern name).2.name? v = some n := by
  have hlt : v.index < t.names.length := (List.getElem?_eq_some_iff.mp h).1
  rw [name?, names_intern]
  split
  · exact h
  · rw [List.getElem?_append_left hlt]
    exact h

theorem nodup_intern {t : Interner} (name : String) (h : t.names.Nodup) :
    (t.intern name).2.names.Nodup := by
  rw [names_intern]
  split
  · exact h
  · next hnot =>
    rw [List.nodup_append]
    refine ⟨h, List.nodup_singleton name, fun a ha b hb heq => hnot ?_⟩
    rwa [← List.mem_singleton.mp hb, ← heq]

end Interner

namespace NameGraph

variable {g : NameGraph} {v w : Symbol} {n m : String}

theorem isSome_name? : (g.names.name? v).isSome ↔ v ∈ g.vertices := by
  rw [mem_vertices, Interner.name?]
  simp

theorem Proper.name?_inj (hg : g.Proper) (hv : g.names.name? v = some n)
    (hw : g.names.name? w = some n) : v = w := by
  have hlt : v.index < g.names.names.length := (List.getElem?_eq_some_iff.mp hv).1
  have hindex : v.index = w.index :=
    (List.getElem?_inj hlt hg.nodup).mp (Eq.trans hv hw.symm)
  cases v
  cases w
  rw [Symbol.mk.injEq]
  exact hindex

/-! ### Edges between names -/

/-- There is an edge between the vertices of two names. -/
def Links (g : NameGraph) (n m : String) : Prop :=
  ∃ a b, (a, b) ∈ g.edges ∧ g.names.name? a = some n ∧ g.names.name? b = some m

theorem proper_empty : Proper {} where
  nodup := List.nodup_nil
  bounded _ _ h := absurd h List.not_mem_nil

theorem not_links_empty : ¬ Links {} n m := by
  rintro ⟨a, b, h, -⟩
  exact List.not_mem_nil h

/-- A vertex stays one when another is added. -/
theorem mem_vertices_addNode (name : String) (h : v ∈ g.vertices) :
    v ∈ (g.addNode name).2.vertices := by
  rw [← isSome_name?] at h ⊢
  obtain ⟨n, hn⟩ := Option.isSome_iff_exists.mp h
  exact Option.isSome_iff_exists.mpr ⟨n, Interner.name?_intern_of_name? name hn⟩

theorem Proper.addNode (hg : g.Proper) (name : String) : (g.addNode name).2.Proper where
  nodup := Interner.nodup_intern name hg.nodup
  bounded a b h := by
    obtain ⟨ha, hb⟩ := hg.bounded a b h
    exact ⟨mem_vertices_addNode name ha, mem_vertices_addNode name hb⟩

/-- A vertex without edges changes no edge. -/
theorem Proper.links_addNode (hg : g.Proper) (name : String) :
    (g.addNode name).2.Links n m ↔ g.Links n m := by
  constructor
  · rintro ⟨a, b, h, ha, hb⟩
    obtain ⟨ha', hb'⟩ := hg.bounded a b h
    obtain ⟨n', hn'⟩ := Option.isSome_iff_exists.mp (isSome_name?.mpr ha')
    obtain ⟨m', hm'⟩ := Option.isSome_iff_exists.mp (isSome_name?.mpr hb')
    have hn := Eq.trans (Interner.name?_intern_of_name? name hn').symm ha
    have hm := Eq.trans (Interner.name?_intern_of_name? name hm').symm hb
    rw [Option.some.inj hn] at hn'
    rw [Option.some.inj hm] at hm'
    exact ⟨a, b, h, hn', hm'⟩
  · rintro ⟨a, b, h, ha, hb⟩
    exact ⟨a, b, h, Interner.name?_intern_of_name? name ha,
      Interner.name?_intern_of_name? name hb⟩

/-- Adding an edge between named vertices that are there. -/
theorem addEdge_spec (hg : g.Proper) (source target : String) :
    (g.addEdge source target).Proper ∧
      ∀ n m, (g.addEdge source target).Links n m ↔ g.Links n m ∨ n = source ∧ m = target := by
  have hproper := (hg.addNode source).addNode target
  have hlinks : ∀ n m, ((g.addNode source).2.addNode target).2.Links n m ↔ g.Links n m :=
    fun n m => ((hg.addNode source).links_addNode target).trans (hg.links_addNode source)
  have hsource : ((g.addNode source).2.addNode target).2.names.name? (g.addNode source).1 =
      some source :=
    Interner.name?_intern_of_name? target (Interner.name?_intern g.names source)
  have htarget : ((g.addNode source).2.addNode target).2.names.name?
      ((g.addNode source).2.addNode target).1 = some target :=
    Interner.name?_intern (g.addNode source).2.names target
  -- An edge that is there already is not added again.
  unfold addEdge
  dsimp only
  split
  · next hedge =>
    refine ⟨hproper, fun n m => ?_⟩
    rw [hlinks]
    constructor
    · exact .inl
    · rintro (h | ⟨rfl, rfl⟩)
      · exact h
      · exact (hlinks n m).mp ⟨_, _, List.contains_iff_mem.mp hedge, hsource, htarget⟩
  · refine ⟨⟨hproper.nodup, fun a b h => ?_⟩, fun n m => ?_⟩
    · rcases List.mem_append.mp h with h | h
      · exact hproper.bounded a b h
      · obtain ⟨rfl, rfl⟩ := Prod.mk.inj (List.mem_singleton.mp h)
        exact ⟨isSome_name?.mp (Option.isSome_of_eq_some hsource),
          isSome_name?.mp (Option.isSome_of_eq_some htarget)⟩
    · rw [← hlinks]
      constructor
      · rintro ⟨a, b, h, ha, hb⟩
        rcases List.mem_append.mp h with h | h
        · exact .inl ⟨a, b, h, ha, hb⟩
        · obtain ⟨rfl, rfl⟩ := Prod.mk.inj (List.mem_singleton.mp h)
          exact .inr ⟨Option.some.inj (ha.symm.trans hsource),
            Option.some.inj (hb.symm.trans htarget)⟩
      · rintro (⟨a, b, h, ha, hb⟩ | ⟨rfl, rfl⟩)
        · exact ⟨a, b, List.mem_append_left _ h, ha, hb⟩
        · exact ⟨_, _, List.mem_append_right _ (List.mem_singleton.mpr rfl), hsource, htarget⟩

/-! ### Components -/

theorem mem_vertices_of_mem_components (hg : g.Proper) {members : List Symbol}
    (h : members ∈ g.components) (hv : v ∈ members) : v ∈ g.vertices :=
  (mem_flatten_components hg).mp (List.mem_flatten_of_mem h hv)

/-- A component is a cycle if its members return to themselves. -/
theorem isCycle_iff (hg : g.Proper) {members : List Symbol} (h : members ∈ g.components)
    (hv : v ∈ members) : g.isCycle members = true ↔ g.Returns v v := by
  have hcondensed := components_condensed hg
  have hnodup := hcondensed.nodup members h
  have hmem := hcondensed.classes members h v hv
  constructor
  · intro hcycle
    match members, hcycle with
    | [a], hcycle =>
      rw [List.mem_singleton.mp hv]
      exact .single (List.contains_iff_mem.mp hcycle)
    | a :: b :: rest, _ =>
      -- One of two members is not the vertex, and the way there and back has an edge.
      have hother : ∃ w, w ≠ v ∧ w ∈ a :: b :: rest := by
        by_cases ha : a = v
        · refine ⟨b, fun hb => ?_, by simp⟩
          exact (List.nodup_cons.mp hnodup).1 (by simp [ha, hb])
        · exact ⟨a, ha, List.mem_cons_self ..⟩
      obtain ⟨w, hne, hw⟩ := hother
      obtain ⟨hvw, hwv⟩ := (hmem w).mp hw
      rcases Relation.reflTransGen_iff_eq_or_transGen.mp hvw with heq | hvw
      · exact absurd heq hne
      · exact hvw.trans_left hwv
  · intro hreturns
    obtain ⟨w, hvw, hwv⟩ := Relation.TransGen.head'_iff.mp hreturns
    have hw : w ∈ members := (hmem w).mpr ⟨.single hvw, hwv⟩
    match members, hv with
    | [a], hv =>
      rw [List.mem_singleton.mp hw, List.mem_singleton.mp hv] at hvw
      exact List.contains_iff_mem.mpr hvw
    | a :: b :: rest, _ => rfl

/-! ### Names -/

/-- The vertices on cycles are those that lead back to themselves. -/
theorem mem_cycles (hg : g.Proper) :
    v ∈ g.cycles.flatten ↔ v ∈ g.vertices ∧ g.Returns v v := by
  rw [cycles, List.mem_flatten]
  constructor
  · rintro ⟨cycle, hcycle, hv⟩
    obtain ⟨members, hmembers, rfl⟩ := List.mem_map.mp hcycle
    obtain ⟨hcomponent, hiscycle⟩ := List.mem_filter.mp hmembers
    obtain ⟨hvertex, hv⟩ := List.mem_filter.mp hv
    exact ⟨hvertex, (isCycle_iff hg hcomponent (List.contains_iff_mem.mp hv)).mp hiscycle⟩
  · rintro ⟨hvertex, hreturns⟩
    obtain ⟨members, hcomponent, hv⟩ := List.mem_flatten.mp ((mem_flatten_components hg).mpr hvertex)
    refine ⟨_, List.mem_map.mpr ⟨members, List.mem_filter.mpr ⟨hcomponent, ?_⟩, rfl⟩, ?_⟩
    · exact (isCycle_iff hg hcomponent hv).mpr hreturns
    · exact List.mem_filter.mpr ⟨hvertex, List.contains_iff_mem.mpr hv⟩

/-- Ways between vertices are ways between their names. -/
theorem transGen_links (hg : g.Proper) (hv : g.names.name? v = some n)
    (hw : g.names.name? w = some m) :
    Relation.TransGen g.Links n m ↔ g.Returns v w := by
  constructor
  · intro h
    induction h generalizing w with
    | single hlink =>
      obtain ⟨a, b, hedge, ha, hb⟩ := hlink
      rw [hg.name?_inj hv ha, hg.name?_inj hw hb]
      exact .single hedge
    | tail _ hlink ih =>
      obtain ⟨a, b, hedge, ha, hb⟩ := hlink
      rw [hg.name?_inj hw hb]
      exact (ih ha).tail hedge
  · intro h
    induction h generalizing m with
    | single hedge => exact .single ⟨v, _, hedge, hv, hw⟩
    | @tail a b _ hedge ih =>
      obtain ⟨k, hk⟩ := Option.isSome_iff_exists.mp (isSome_name?.mpr (hg.bounded a b hedge).1)
      exact (ih hk).tail ⟨a, b, hedge, hk, hw⟩

/-- The names on cycles are those from which the edges lead back. -/
theorem mem_cyclicNames (hg : g.Proper) :
    n ∈ g.cyclicNames ↔ Relation.TransGen g.Links n n := by
  unfold cyclicNames
  rw [List.mem_map]
  constructor
  · rintro ⟨v, hv, rfl⟩
    obtain ⟨hvertex, hreturns⟩ := (mem_cycles hg).mp hv
    obtain ⟨n, hn⟩ := Option.isSome_iff_exists.mp (isSome_name?.mpr hvertex)
    rw [nameOf, hn, Option.getD_some]
    exact (transGen_links hg hn hn).mpr hreturns
  · intro h
    obtain ⟨m, ⟨a, b, hedge, ha, hb⟩, -⟩ := Relation.TransGen.head'_iff.mp h
    refine ⟨a, (mem_cycles hg).mpr ⟨(hg.bounded a b hedge).1, ?_⟩, ?_⟩
    · exact (transGen_links hg ha ha).mp h
    · rw [nameOf, ha, Option.getD_some]

end NameGraph

end StackTemplate
