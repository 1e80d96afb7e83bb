import StackTemplate.Graph.CyclePath
import StackTemplate.Proofs.Graph.Shortest

/-!
# Finding the way back by predecessors

The search for a path through a cycle keeps no trails. It has a queue of vertices, and notes for
every vertex that it sees for the first time from where.

The notes are the trails in another form (`Notes`): following them from the end of a trail passes the
vertices of the trail, last to first, and stops at the start, which has no note. Later notes do not
change that, because a vertex gets one note only (`Backtracks.append`). So the notes end and lead
along the path that the trails give (`wayBack_noted`).

`Backtracks` follows notes without a bound. A way that passes no vertex twice takes no more steps
than there are notes (`Backtracks.length_le`), so as many are enough for it
(`Backtracks.eq_backtrack`).
-/

namespace StackTemplate

namespace NameGraph

variable {g : NameGraph} {start v w : Symbol} {members seen path way ws : List Symbol}
  {queue : List Trail} {origins more : List (Symbol × Symbol)}

/-! ### Following notes -/

/-- Following the notes from a vertex passes the vertices of a list, and ends with the last of
them. -/
inductive Backtracks (origins : List (Symbol × Symbol)) : Symbol → List Symbol → Prop where
  | stop {v : Symbol} (none : origins.lookup v = none) : Backtracks origins v [v]
  | step {v u : Symbol} {way : List Symbol} (some : origins.lookup v = some u)
    (rest : Backtracks origins u way) : Backtracks origins v (v :: way)

/-- The notes of a vertex lead one way. -/
theorem Backtracks.unique {way' : List Symbol} (h : Backtracks origins v way)
    (h' : Backtracks origins v way') : way' = way := by
  induction h generalizing way' with
  | stop hnone =>
    cases h' with
    | stop => rfl
    | step hsome => rw [hnone] at hsome; cases hsome
  | step hsome _ ih =>
    cases h' with
    | stop hnone => rw [hnone] at hsome; cases hsome
    | step hsome' hrest =>
      rw [hsome] at hsome'
      obtain rfl := Option.some.inj hsome'
      rw [ih hrest]

theorem lookup_eq_none : origins.lookup v = none ↔ v ∉ origins.map Prod.fst := by
  rw [List.lookup_eq_none_iff, List.mem_map]
  constructor
  · rintro h ⟨e, he, rfl⟩
    exact absurd (beq_self_eq_true e.1) (by simpa using h e he)
  · intro h e he
    exact bne_iff_ne.mpr fun heq => h ⟨e, he, heq.symm⟩

theorem Backtracks.ne_nil (h : Backtracks origins v way) : way ≠ [] := by
  cases h <;> exact List.cons_ne_nil _ _

/-- With enough steps the whole way is followed. -/
theorem Backtracks.eq_backtrack (h : Backtracks origins v way) (steps : Nat)
    (hsteps : way.length ≤ steps + 1) : backtrack origins steps v = way := by
  induction h generalizing steps with
  | stop hnone =>
    cases steps with
    | zero => rfl
    | succ steps => simp only [backtrack, hnone]
  | @step v u way hsome hrest ih =>
    have hpos := List.length_pos_of_ne_nil hrest.ne_nil
    rw [List.length_cons] at hsteps
    cases steps with
    | zero => omega
    | succ steps => simp only [backtrack, hsome, ih steps (by omega)]

/-- All vertices on a way but the last have notes. -/
theorem Backtracks.dropLast_subset (h : Backtracks origins v way) :
    way.dropLast ⊆ origins.map Prod.fst := by
  induction h with
  | stop => exact List.nil_subset _
  | @step v u way hsome hrest ih =>
    rw [List.dropLast_cons_of_ne_nil hrest.ne_nil]
    refine List.cons_subset.mpr ⟨?_, ih⟩
    by_contra hnone
    rw [lookup_eq_none.mpr hnone] at hsome
    cases hsome

theorem Backtracks.length_le (h : Backtracks origins v way) (hnodup : way.Nodup) :
    way.length ≤ origins.length + 1 := by
  have hsubperm := (hnodup.sublist (List.dropLast_sublist way)).subperm h.dropLast_subset
  have hlength := hsubperm.length_le
  rw [List.length_dropLast, List.length_map] at hlength
  omega

theorem lookup_map_of_mem (h : w ∈ ws) : (ws.map (·, v)).lookup w = some v := by
  induction ws with
  | nil => cases h
  | cons u ws ih =>
    rw [List.map_cons, List.lookup_cons]
    split
    · rfl
    · next hne => exact ih ((List.mem_cons.mp h).resolve_left (ne_of_beq_false hne))

/-- New notes about other vertices leave a way as it is. -/
theorem Backtracks.append (h : Backtracks origins v way)
    (hmore : ∀ u ∈ way, u ∉ more.map Prod.fst) : Backtracks (origins ++ more) v way := by
  induction h with
  | @stop v hnone =>
    refine .stop ?_
    rw [List.lookup_append, hnone, Option.none_or]
    exact lookup_eq_none.mpr (hmore v (List.mem_cons_self ..))
  | step hsome _ ih =>
    refine .step ?_ (ih fun u hu => hmore u (List.mem_cons_of_mem _ hu))
    rw [List.lookup_append, hsome, Option.some_or]

/-! ### Looking along edges -/

/-- The vertices among those looked at that have no note yet. -/
def unnoted (members ws : List Symbol) (origins : List (Symbol × Symbol)) : List Symbol :=
  (ws.filter members.contains).filter (!(origins.map Prod.fst).contains ·)

theorem unnoted_cons_of_pos (hw : w ∈ members) (hnew : w ∉ origins.map Prod.fst) :
    unnoted members (w :: ws) origins = w :: unnoted members ws origins := by
  rw [unnoted, List.filter_cons_of_pos (List.contains_iff_mem.mpr hw), List.filter_cons_of_pos]
  · rfl
  · rwa [Bool.not_eq_true', ← Bool.not_eq_true, List.contains_iff_mem]

theorem unnoted_cons_of_neg (hw : w ∈ members → w ∈ origins.map Prod.fst) :
    unnoted members (w :: ws) origins = unnoted members ws origins := by
  by_cases hmember : w ∈ members
  · rw [unnoted, List.filter_cons_of_pos (List.contains_iff_mem.mpr hmember),
      List.filter_cons_of_neg]
    · rfl
    · rw [Bool.not_eq_true', ← Bool.not_eq_true, List.contains_iff_mem, not_not]
      exact hw hmember
  · rw [unnoted, List.filter_cons_of_neg (mt List.contains_iff_mem.mp hmember)]
    rfl

/-- A note about a vertex that does not come again changes nothing for those that come. -/
theorem unnoted_concat (hw : w ∉ ws) :
    unnoted members ws (origins ++ [(w, v)]) = unnoted members ws origins := by
  refine List.filter_congr fun u hu => ?_
  have hne : u ≠ w := fun heq => hw (heq ▸ (List.mem_filter.mp hu).1)
  simp [hne]

/-- As long as the start is not met, the look notes what has no note and puts it in the queue. -/
theorem look_of_not_mem (members : List Symbol) (s : Tracing) (hws : ws.Nodup)
    (hnot : start ∉ ws) :
    Tracing.look start members v ws s =
      (false, { queue := s.queue ++ unnoted members ws s.origins
                origins := s.origins ++ (unnoted members ws s.origins).map (·, v) }) := by
  fun_induction Tracing.look start members v ws s with
  | case1 s => simp [unnoted]
  | case2 w ws s hmember ih =>
    rw [ih (List.nodup_cons.mp hws).2 fun hmem => hnot (List.mem_cons_of_mem _ hmem),
      unnoted_cons_of_neg fun hw => absurd hw hmember]
  | case3 ws s hmember => exact absurd (List.mem_cons_self ..) hnot
  | case4 w ws s hmember hne hnoted ih =>
    rw [ih (List.nodup_cons.mp hws).2 fun hmem => hnot (List.mem_cons_of_mem _ hmem),
      unnoted_cons_of_neg fun _ => hnoted]
  | case5 w ws s hmember hne hnew ih =>
    obtain ⟨hw, hws⟩ := List.nodup_cons.mp hws
    rw [ih hws fun hmem => hnot (List.mem_cons_of_mem _ hmem), unnoted_concat hw,
      unnoted_cons_of_pos (not_not.mp hmember) hnew]
    simp only [List.append_assoc, List.cons_append, List.nil_append, List.map_cons]

/-- If the start is met, the notes so far are about other vertices that had none. -/
theorem look_of_mem (s : Tracing) (hstart : start ∈ members) (hmem : start ∈ ws) :
    ∃ s' more, Tracing.look start members v ws s = (true, s') ∧ s'.origins = s.origins ++ more ∧
      ∀ u ∈ more.map Prod.fst, u ≠ start ∧ u ∉ s.origins.map Prod.fst := by
  fun_induction Tracing.look start members v ws s with
  | case1 s => cases hmem
  | case2 w ws s hmember ih =>
    exact ih ((List.mem_cons.mp hmem).resolve_left fun heq => hmember (heq ▸ hstart))
  | case3 ws s hmember =>
    exact ⟨s, [], rfl, (List.append_nil _).symm, fun u hu => absurd hu List.not_mem_nil⟩
  | case4 w ws s hmember hne hnoted ih =>
    exact ih ((List.mem_cons.mp hmem).resolve_left (Ne.symm hne))
  | case5 w ws s hmember hne hnew ih =>
    obtain ⟨s', more, hlook, horigins, hmore⟩ :=
      ih ((List.mem_cons.mp hmem).resolve_left (Ne.symm hne))
    refine ⟨s', (w, v) :: more, hlook, ?_, fun u hu => ?_⟩
    · rw [horigins, List.append_assoc, List.singleton_append]
    · rcases List.mem_cons.mp hu with rfl | hu
      · exact ⟨hne, hnew⟩
      · obtain ⟨hother, hnot⟩ := hmore u hu
        rw [List.map_append, List.mem_append, not_or] at hnot
        exact ⟨hother, hnot.1⟩

/-! ### Notes instead of trails -/

/-- Notes that stand for the trails in a queue. -/
structure Notes (queue : List Trail) (seen : List Symbol) (s : Tracing) : Prop where
  queue_eq : s.queue = queue.map Trail.stop
  noted_eq : s.origins.map Prod.fst = seen
  ways : ∀ p ∈ queue, Backtracks s.origins p.stop p.backwards

theorem Notes.begin (start : Symbol) : Notes [{ stop := start }] [] { queue := [start] } where
  queue_eq := rfl
  noted_eq := rfl
  ways p hp := by
    obtain rfl := List.mem_singleton.mp hp
    exact .stop rfl

variable {p : Trail} {s : Tracing}

theorem Notes.step (h : Notes (p :: queue) seen s) (hloopless : Loopless start (p :: queue) seen)
    (hback : ¬ g.Edge p.stop start) :
    Notes (queue ++ (g.freshFrom members seen p).map p.extend) (seen ++ g.freshFrom members seen p)
      { queue := queue.map Trail.stop ++ g.freshFrom members seen p
        origins := s.origins ++ (g.freshFrom members seen p).map (·, p.stop) } where
  queue_eq := by
    rw [List.map_append, List.map_map]
    exact congrArg _ (List.map_id _).symm
  noted_eq := by
    rw [List.map_append, h.noted_eq, List.map_map]
    exact congrArg _ (List.map_id _)
  ways q hq := by
    -- New notes are of vertices that no trail has met, so the old ways stay.
    have hold : ∀ q ∈ p :: queue, Backtracks
        (s.origins ++ (g.freshFrom members seen p).map (·, p.stop)) q.stop q.backwards := by
      intro q hq
      refine (h.ways q hq).append fun u hu hmem => ?_
      obtain ⟨e, he, rfl⟩ := List.mem_map.mp hmem
      obtain ⟨w, hw, rfl⟩ := List.mem_map.mp he
      obtain ⟨hedge, -, hnew⟩ := mem_freshFrom.mp hw
      rcases hloopless.known q hq w hu with rfl | hseen
      · exact hback hedge
      · exact hnew hseen
    rcases List.mem_append.mp hq with hq | hq
    · exact hold q (List.mem_cons_of_mem _ hq)
    · obtain ⟨w, hw, rfl⟩ := List.mem_map.mp hq
      refine .step ?_ (hold p (List.mem_cons_self ..))
      have hnone : s.origins.lookup w = none := by
        rw [lookup_eq_none, h.noted_eq]
        exact (mem_freshFrom.mp hw).2.2
      rw [List.lookup_append]
      show (s.origins.lookup w).or _ = _
      rw [hnone, Option.none_or]
      exact lookup_map_of_mem hw

/-- A search by notes finds the vertex with an edge back whenever a search with trails does, and the
notes lead from there along the same path. -/
theorem wayBack_noted (hedges : g.edges.Nodup) (hstart : start ∈ members) (steps : Nat)
    (hnotes : Notes queue seen s) (hloopless : Loopless start queue seen)
    (hpath : g.wayBack start members steps queue seen = some path) :
    ∃ stop origins way, g.traceBack start members steps s = some (stop, origins) ∧
      Backtracks origins stop way ∧ path = (start :: way).reverse := by
  induction steps generalizing queue seen s with
  | zero => cases hpath
  | succ steps ih =>
    match queue with
    | [] => cases hpath
    | p :: queue =>
      rw [traceBack, hnotes.queue_eq, List.map_cons]
      by_cases hback : g.Edge p.stop start
      · rw [wayBack_of_edge hstart hback] at hpath
        obtain ⟨s', more, hlook, horigins, hmore⟩ := look_of_mem (v := p.stop)
          { s with queue := queue.map Trail.stop } hstart (mem_successors.mpr hback)
        simp only [hlook]
        refine ⟨_, _, p.backwards, rfl, ?_, (Option.some.inj hpath).symm⟩
        rw [horigins]
        -- The notes of this look are of vertices that are not on the trail.
        refine (hnotes.ways p (List.mem_cons_self ..)).append fun u hu hmem => ?_
        obtain ⟨hne, hnot⟩ := hmore u hmem
        rcases hloopless.known p (List.mem_cons_self ..) u hu with rfl | hseen
        · exact hne rfl
        · exact hnot (hnotes.noted_eq ▸ hseen)
      · rw [wayBack_of_not_edge hstart hback] at hpath
        -- Without an edge back the look notes all that is fresh, and both searches go on.
        have hlook := look_of_not_mem (v := p.stop) members
          { s with queue := queue.map Trail.stop } (nodup_successors hedges p.stop)
          (mt mem_successors.mp hback)
        have hfresh : unnoted members (g.successors p.stop) s.origins =
            g.freshFrom members seen p := by
          rw [unnoted, hnotes.noted_eq, freshFrom]
        rw [hfresh] at hlook
        simp only [hlook]
        exact ih (hnotes.step hloopless hback) (hloopless.step hback) hpath

end NameGraph

end StackTemplate
