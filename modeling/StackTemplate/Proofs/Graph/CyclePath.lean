import StackTemplate.Proofs.Graph.Predecessors

/-!
# Closed paths through cycles

The search by notes and the search with trails give the same path through a cycle (`exists_trace`).
So this path is closed, meets no vertex twice, and is as short as any closed walk through the first
member (`cyclePath_shortest`). Cycles are the components with several members or with an edge to
itself (`cyclicComponents`).
-/

namespace StackTemplate

namespace NameGraph

variable {g : NameGraph} {v w : Symbol} {members : List Symbol}

/-! ### The path through a cycle -/

/-- A search by notes finds the last vertex before the end of the path through a cycle, and following
the notes from there passes the vertices of the path, last to first. A search with trails finds the
same path. -/
theorem exists_trace (hg : g.Proper) (hedges : g.edges.Nodup) (h : members ∈ g.cycles) :
    ∃ start stop origins way, members.head? = some start ∧
      g.traceBack start members (g.names.names.length + 1) { queue := [start] } =
        some (stop, origins) ∧
      Backtracks origins stop way ∧ g.cyclePath members = (start :: way).reverse ∧
      g.wayBack start members (g.names.names.length + 1) [{ stop := start }] [] =
        some (g.cyclePath members) := by
  obtain ⟨start, path, hstart, hpath, -⟩ := exists_wayBack hg hedges h
  have hmember := List.mem_of_head? hstart
  obtain ⟨stop, origins, way, htrace, hway, rfl⟩ :=
    wayBack_noted hedges hmember _ (.begin start) (.begin start) hpath
  obtain ⟨hnodup, -⟩ := wayBack_shortest hmember _ (.begin g start members) (.begin start) hpath
  rw [List.reverse_cons, List.dropLast_concat, List.nodup_reverse] at hnodup
  have hcycle : g.cyclePath members = (start :: way).reverse := by
    cases members with
    | nil => cases hstart
    | cons first rest =>
      obtain rfl := Option.some.inj hstart
      simp only [cyclePath, htrace, hway.eq_backtrack _ (hway.length_le hnodup)]
  exact ⟨start, stop, origins, way, hstart, htrace, hway, hcycle, hcycle ▸ hpath⟩

/-- The path through a cycle is a closed path of its edges. -/
theorem cyclePath_closed (hg : g.Proper) (hedges : g.edges.Nodup) (h : members ∈ g.cycles) :
    ClosedPath g.Edge members (g.cyclePath members) := by
  obtain ⟨start, -, -, -, hstart, -, -, -, hpath⟩ := exists_trace hg hedges h
  obtain ⟨start', path, hstart', hpath', hclosed⟩ := exists_wayBack hg hedges h
  obtain rfl := Option.some.inj (hstart.symm.trans hstart')
  rwa [Option.some.inj (hpath.symm.trans hpath')]

/-! ### Cycles of names -/

/-- In every graph, the path through a cycle goes from the first member along edges between members
back to it. It meets no vertex twice but for its ends, and no closed walk through the first member is
shorter. A search by notes finds the last vertex before the end of the path; following the notes from
there ends, and passes the vertices of the path, last to first. -/
theorem cyclePath_shortest (calls : List Call) (members : List Symbol)
    (h : members ∈ (ofCalls calls).cycles) :
    ∃ start, members.head? = some start ∧
      ClosedPath (ofCalls calls).Edge members ((ofCalls calls).cyclePath members) ∧
      ((ofCalls calls).cyclePath members).dropLast.Nodup ∧
      (∀ walk, ClosedWalk (ofCalls calls).Edge walk → start ∈ walk →
        ((ofCalls calls).cyclePath members).length ≤ walk.length) ∧
      ∃ stop origins way,
        (ofCalls calls).traceBack start members ((ofCalls calls).names.names.length + 1)
          { queue := [start] } = some (stop, origins) ∧
        (∀ way', Backtracks origins stop way' ↔ way' = way) ∧
        (ofCalls calls).cyclePath members = (start :: way).reverse := by
  have hg := proper_ofCalls calls
  have hedges := nodup_edges_ofCalls calls
  obtain ⟨start, stop, origins, way, hstart, htrace, hway, heq, hpath⟩ := exists_trace hg hedges h
  have hmember := List.mem_of_head? hstart
  obtain ⟨hnodup, hshortest⟩ :=
    wayBack_shortest hmember _ (.begin _ start members) (.begin start) hpath
  refine ⟨start, hstart, cyclePath_closed hg hedges h, hnodup, fun walk hwalk hmem => ?_, stop,
    origins, way, htrace, fun way' => ⟨hway.unique, fun hsame => hsame ▸ hway⟩, heq⟩
  -- Walk the closed walk from the first member; it is then a trail with an edge back.
  obtain ⟨walk', hwalk', hhead, hlength⟩ := hwalk.from hmem
  obtain ⟨q, hq, hback, hq_length⟩ :=
    exists_trail_of_closedWalk hwalk' hhead (mem_of_closedWalk hg h hwalk' hhead hmember)
  rw [← hlength, hq_length]
  exact hshortest q hq hback

/-- A cycle of four names with a chord that cuts one of them short, a loop at that one, and an edge
out of the cycle that comes first. -/
def chorded : List Call := [.edge "B" "E", .edge "B" "C", .edge "C" "C", .edge "C" "D",
  .edge "B" "D", .edge "D" "A", .edge "A" "B"]

/-- The path goes from the first member along the chord. -/
theorem chorded_shortest :
    (ofCalls chorded).cycles = [[⟨0⟩, ⟨2⟩, ⟨3⟩, ⟨4⟩]] ∧
    (ofCalls chorded).cyclePath [⟨0⟩, ⟨2⟩, ⟨3⟩, ⟨4⟩] = [⟨0⟩, ⟨3⟩, ⟨4⟩, ⟨0⟩] ∧
    (∀ walk, ClosedWalk (ofCalls chorded).Edge walk → ⟨0⟩ ∈ walk → 4 ≤ walk.length) ∧
    (ofCalls chorded).traceBack ⟨0⟩ [⟨0⟩, ⟨2⟩, ⟨3⟩, ⟨4⟩] 6 { queue := [⟨0⟩] } =
      some (⟨4⟩, [(⟨2⟩, ⟨0⟩), (⟨3⟩, ⟨0⟩), (⟨4⟩, ⟨3⟩)]) ∧
    ∀ way, Backtracks [(⟨2⟩, ⟨0⟩), (⟨3⟩, ⟨0⟩), (⟨4⟩, ⟨3⟩)] ⟨4⟩ way ↔ way = [⟨4⟩, ⟨3⟩, ⟨0⟩] := by
  have hcycles : (ofCalls chorded).cycles = [[⟨0⟩, ⟨2⟩, ⟨3⟩, ⟨4⟩]] := by decide +kernel
  have hpath : (ofCalls chorded).cyclePath [⟨0⟩, ⟨2⟩, ⟨3⟩, ⟨4⟩] = [⟨0⟩, ⟨3⟩, ⟨4⟩, ⟨0⟩] := by
    decide +kernel
  have htraced : (ofCalls chorded).traceBack ⟨0⟩ [⟨0⟩, ⟨2⟩, ⟨3⟩, ⟨4⟩] 6 { queue := [⟨0⟩] } =
      some (⟨4⟩, [(⟨2⟩, ⟨0⟩), (⟨3⟩, ⟨0⟩), (⟨4⟩, ⟨3⟩)]) := by
    decide +kernel
  obtain ⟨start, hstart, -, -, hshortest, stop, origins, way, htrace, hway, heq⟩ :=
    cyclePath_shortest chorded [⟨0⟩, ⟨2⟩, ⟨3⟩, ⟨4⟩]
      (by rw [hcycles]; exact List.mem_singleton.mpr rfl)
  obtain rfl := Option.some.inj hstart
  rw [hpath] at hshortest heq
  obtain ⟨rfl, rfl⟩ := Prod.mk.inj (Option.some.inj (htraced.symm.trans htrace))
  obtain rfl : way = [⟨4⟩, ⟨3⟩, ⟨0⟩] := by
    have hreverse := congrArg List.reverse heq
    rw [List.reverse_reverse] at hreverse
    exact (List.cons.inj hreverse).2.symm
  exact ⟨hcycles, hpath, hshortest, htraced, hway⟩

end NameGraph

end StackTemplate
