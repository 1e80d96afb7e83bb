import StackTemplate.Proofs.Graph.Trails

/-!
# Shortest ways back

The search for a way back looks at trails in the order of their lengths: all that wait in the queue
differ by one edge at most, and a vertex is first seen at the end of a shortest trail to it. `Levels`
is the invariant that says so. A trail that was looked at has no edge back to the start and leads,
with one edge more, only to vertices that have a trail as short as that. So a trail that is shorter
than all that wait ends where the search has looked already (`Levels.reaches`), and the first trail
with an edge back is a shortest one (`Levels.shortest`).

No trail meets a vertex twice, since it is continued to vertices that were not seen before
(`Loopless`).
-/

namespace StackTemplate

/-! ### Closed walks -/

/-- A walk along `edge` of at least one edge that ends where it begins. -/
structure ClosedWalk {α : Type} (edge : α → α → Prop) (walk : List α) : Prop where
  two_le_length : 2 ≤ walk.length
  chain : walk.IsChain edge
  closed : walk.head? = walk.getLast?

/-- A closed walk can be walked from any vertex on it. -/
theorem ClosedWalk.from {α : Type} {edge : α → α → Prop} {walk : List α} {v : α}
    (h : ClosedWalk edge walk) (hv : v ∈ walk) :
    ∃ walk', ClosedWalk edge walk' ∧ walk'.head? = some v ∧ walk'.length = walk.length := by
  obtain ⟨before, after, rfl⟩ := List.append_of_mem hv
  cases before with
  | nil => exact ⟨_, h, rfl, rfl⟩
  | cons x before =>
    -- The walk goes from `x` to `v` and on to `x`; walk the second part first.
    obtain ⟨hfirst, hsecond⟩ := List.isChain_split.mp h.chain
    obtain ⟨front, hfront⟩ : ∃ front, v :: after = front ++ [x] := by
      refine List.getLast?_eq_some_iff.mp ?_
      rw [← List.getLast?_append_of_ne_nil (x :: before) (List.cons_ne_nil v after)]
      exact h.closed.symm
    have hhead : (front ++ x :: (before ++ [v])).head? = some v := by
      rw [List.append_cons, ← hfront]
      rfl
    refine ⟨front ++ x :: (before ++ [v]), ⟨?_, ?_, ?_⟩, hhead, ?_⟩
    · simp only [List.length_append, List.length_cons]
      omega
    · exact List.isChain_split.mpr ⟨hfront ▸ hsecond, hfirst⟩
    · rw [hhead, ← List.cons_append, ← List.append_assoc, List.getLast?_concat]
    · have hlength := congrArg List.length hfront
      simp only [List.length_append, List.length_cons, List.length_nil] at hlength ⊢
      omega

namespace NameGraph

variable {g : NameGraph} {start v w : Symbol} {members seen path : List Symbol} {p q : Trail}
  {queue looked : List Trail}

/-- The number of edges of a trail. -/
def Trail.length (p : Trail) : Nat := p.before.length

@[simp] theorem Trail.length_extend (p : Trail) (v : Symbol) :
    (p.extend v).length = p.length + 1 := rfl

/-! ### No vertex twice -/

/-- The trails in the queue meet no vertex twice, and beside the start only seen ones. -/
structure Loopless (start : Symbol) (queue : List Trail) (seen : List Symbol) : Prop where
  nodup : ∀ p ∈ queue, p.backwards.Nodup
  known : ∀ p ∈ queue, ∀ v ∈ p.backwards, v = start ∨ v ∈ seen

theorem Loopless.begin (start : Symbol) : Loopless start [{ stop := start }] [] where
  nodup p hp := by
    obtain rfl := List.mem_singleton.mp hp
    exact List.nodup_singleton start
  known p hp v hv := by
    obtain rfl := List.mem_singleton.mp hp
    exact .inl (List.mem_singleton.mp hv)

theorem Loopless.step (h : Loopless start (p :: queue) seen) (hback : ¬ g.Edge p.stop start) :
    Loopless start (queue ++ (g.freshFrom members seen p).map p.extend)
      (seen ++ g.freshFrom members seen p) where
  nodup q hq := by
    rcases List.mem_append.mp hq with hq | hq
    · exact h.nodup q (List.mem_cons_of_mem _ hq)
    · obtain ⟨v, hv, rfl⟩ := List.mem_map.mp hq
      obtain ⟨hedge, -, hnew⟩ := mem_freshFrom.mp hv
      refine List.nodup_cons.mpr ⟨fun hmem => ?_, h.nodup p (List.mem_cons_self ..)⟩
      rcases h.known p (List.mem_cons_self ..) v hmem with rfl | hseen
      · exact hback hedge
      · exact hnew hseen
  known q hq v hv := by
    rcases List.mem_append.mp hq with hq | hq
    · exact (h.known q (List.mem_cons_of_mem _ hq) v hv).imp_right (List.mem_append_left _)
    · obtain ⟨w, hw, rfl⟩ := List.mem_map.mp hq
      rcases List.mem_cons.mp hv with rfl | hv
      · exact .inr (List.mem_append_right _ hw)
      · exact (h.known p (List.mem_cons_self ..) v hv).imp_right (List.mem_append_left _)

/-! ### Level by level -/

/-- The progress of a search from `start`, trail by trail: those in `looked` were looked at, those in
the queue wait. Trails wait in the order of their lengths, and none is longer than one that waits by
more than an edge. -/
structure Levels (g : NameGraph) (start : Symbol) (members : List Symbol)
    (looked queue : List Trail) (seen : List Symbol) : Prop where
  begins : ∃ r ∈ looked ++ queue, r.stop = start ∧ r.length = 0
  found : ∀ v ∈ seen, ∃ r ∈ looked ++ queue, r.stop = v
  /-- What was looked at leads to no vertex for which it takes more than one edge more. -/
  onward : ∀ r ∈ looked, ¬ g.Edge r.stop start ∧ ∀ w ∈ members, g.Edge r.stop w →
    ∃ r' ∈ looked ++ queue, r'.stop = w ∧ r'.length ≤ r.length + 1
  ordered : queue.Pairwise fun a b => a.length ≤ b.length
  near : ∀ r ∈ looked ++ queue, ∀ q ∈ queue, r.length ≤ q.length + 1

theorem Levels.begin (g : NameGraph) (start : Symbol) (members : List Symbol) :
    Levels g start members [] [{ stop := start }] [] where
  begins := ⟨_, List.mem_singleton.mpr rfl, rfl, rfl⟩
  found v hv := absurd hv List.not_mem_nil
  onward r hr := absurd hr List.not_mem_nil
  ordered := List.pairwise_singleton _ _
  near r hr q _ := by
    obtain rfl := List.mem_singleton.mp hr
    exact Nat.zero_le _

/-- One look: the trail at the front is done with, and those that continue it wait behind all
others. -/
theorem Levels.step (h : Levels g start members looked (p :: queue) seen)
    (hback : ¬ g.Edge p.stop start) :
    Levels g start members (p :: looked) (queue ++ (g.freshFrom members seen p).map p.extend)
      (seen ++ g.freshFrom members seen p) := by
  -- The trails are those of before and those that continue the front.
  have hold : ∀ r ∈ looked ++ p :: queue, r ∈ (p :: looked) ++
      (queue ++ (g.freshFrom members seen p).map p.extend) := by
    intro r hr
    simp only [List.mem_append, List.mem_cons] at hr ⊢
    tauto
  have hnew : ∀ r ∈ (p :: looked) ++ (queue ++ (g.freshFrom members seen p).map p.extend),
      r ∈ looked ++ p :: queue ∨ ∃ v ∈ g.freshFrom members seen p, r = p.extend v := by
    intro r hr
    simp only [List.mem_append, List.mem_cons, List.mem_map] at hr ⊢
    rcases hr with (hr | hr) | hr | ⟨v, hv, rfl⟩
    · exact .inl (.inr (.inl hr))
    · exact .inl (.inl hr)
    · exact .inl (.inr (.inr hr))
    · exact .inr ⟨v, hv, rfl⟩
  have hfront : p ∈ looked ++ p :: queue := List.mem_append_right _ (List.mem_cons_self ..)
  have hahead : ∀ q ∈ queue, p.length ≤ q.length := (List.pairwise_cons.mp h.ordered).1
  have hnear : ∀ r ∈ looked ++ p :: queue, r.length ≤ p.length + 1 := fun r hr =>
    h.near r hr p (List.mem_cons_self ..)
  refine ⟨?_, fun v hv => ?_, fun r hr => ?_, ?_, fun r hr q hq => ?_⟩
  · obtain ⟨r, hr, hstop, hlength⟩ := h.begins
    exact ⟨r, hold r hr, hstop, hlength⟩
  · rcases List.mem_append.mp hv with hv | hv
    · obtain ⟨r, hr, hstop⟩ := h.found v hv
      exact ⟨r, hold r hr, hstop⟩
    · exact ⟨p.extend v, List.mem_append_right _ (List.mem_append_right _ (List.mem_map_of_mem hv)),
        rfl⟩
  · -- A member that the front has an edge to was found before, or it is fresh and waits now.
    rcases List.mem_cons.mp hr with rfl | hr
    · refine ⟨hback, fun w hw hedge => ?_⟩
      by_cases hseen : w ∈ seen
      · obtain ⟨r', hr', hstop⟩ := h.found w hseen
        exact ⟨r', hold r' hr', hstop, hnear r' hr'⟩
      · have hfresh : w ∈ g.freshFrom members seen r := mem_freshFrom.mpr ⟨hedge, hw, hseen⟩
        exact ⟨r.extend w,
          List.mem_append_right _ (List.mem_append_right _ (List.mem_map_of_mem hfresh)), rfl,
          Nat.le_refl _⟩
    · obtain ⟨hclosed, honward⟩ := h.onward r hr
      refine ⟨hclosed, fun w hw hedge => ?_⟩
      obtain ⟨r', hr', hr''⟩ := honward w hw hedge
      exact ⟨r', hold r' hr', hr''⟩
  · refine List.pairwise_append.mpr ⟨(List.pairwise_cons.mp h.ordered).2, ?_, fun q hq r hr => ?_⟩
    · exact List.pairwise_map.mpr (List.pairwise_of_forall fun v w => Nat.le_refl _)
    · obtain ⟨v, -, rfl⟩ := List.mem_map.mp hr
      exact h.near q (List.mem_append_right _ (List.mem_cons_of_mem _ hq)) p (List.mem_cons_self ..)
  · -- Both are old, or one of them has an edge more than the trail that is done with.
    rcases List.mem_append.mp hq with hq | hq
    · rcases hnew r hr with hr | ⟨v, -, rfl⟩
      · exact h.near r hr q (List.mem_cons_of_mem _ hq)
      · exact Nat.succ_le_succ (hahead q hq)
    · obtain ⟨v, -, rfl⟩ := List.mem_map.mp hq
      rcases hnew r hr with hr | ⟨w, -, rfl⟩
      · exact Nat.le_succ_of_le (hnear r hr)
      · exact Nat.le_succ _

/-- Any trail ends where the search has looked at one that is no longer, unless one that is no longer
waits. -/
theorem Levels.reaches (h : Levels g start members looked queue seen)
    (hq : q.Walks g start members) :
    (∃ r ∈ looked, r.stop = q.stop ∧ r.length ≤ q.length) ∨ ∃ r ∈ queue, r.length ≤ q.length := by
  obtain ⟨stop, before⟩ := q
  induction before generalizing stop with
  | nil =>
    obtain ⟨r, hr, hstop, hlength⟩ := h.begins
    have hstart : stop = start := Option.some.inj hq.getLast?_eq
    rcases List.mem_append.mp hr with hr | hr
    · exact .inl ⟨r, hr, hstop.trans hstart.symm, Nat.le_of_eq hlength⟩
    · exact .inr ⟨r, hr, Nat.le_of_eq hlength⟩
  | cons u before ih =>
    obtain ⟨hedge, hchain⟩ := List.isChain_cons_cons.mp hq.chain
    have hshorter : Trail.Walks g start members ⟨u, before⟩ :=
      ⟨by rw [← hq.getLast?_eq]; exact List.getLast?_cons_cons.symm, hchain,
        fun v hv => hq.inside v (List.mem_cons_of_mem _ hv)⟩
    rcases ih u hshorter with ⟨r, hr, hstop, hlength⟩ | ⟨r, hr, hlength⟩
    · have hstep : g.Edge r.stop stop := hstop ▸ hedge
      obtain ⟨r', hr', hstop', hlength'⟩ :=
        (h.onward r hr).2 stop (hq.inside stop (List.mem_cons_self ..)) hstep
      have hle : r'.length ≤ before.length + 1 :=
        Nat.le_trans hlength' (Nat.succ_le_succ hlength)
      rcases List.mem_append.mp hr' with hr' | hr'
      · exact .inl ⟨r', hr', hstop', hle⟩
      · exact .inr ⟨r', hr', hle⟩
    · exact .inr ⟨r, hr, Nat.le_succ_of_le hlength⟩

/-- No trail with an edge back to the start is shorter than the trail at the front. -/
theorem Levels.shortest (h : Levels g start members looked (p :: queue) seen)
    (hq : q.Walks g start members) (hback : g.Edge q.stop start) : p.length ≤ q.length := by
  rcases h.reaches hq with ⟨r, hr, hstop, -⟩ | ⟨r, hr, hlength⟩
  · exact absurd (hstop ▸ hback) (h.onward r hr).1
  · rcases List.mem_cons.mp hr with rfl | hr
    · exact hlength
    · exact Nat.le_trans ((List.pairwise_cons.mp h.ordered).1 r hr) hlength

/-- The way back that a search finds has no vertex twice, its ends apart, and is no longer than any
other. -/
theorem wayBack_shortest (hstart : start ∈ members) (steps : Nat)
    (hlevels : Levels g start members looked queue seen) (hloopless : Loopless start queue seen)
    (hpath : g.wayBack start members steps queue seen = some path) :
    path.dropLast.Nodup ∧ ∀ q : Trail, q.Walks g start members → g.Edge q.stop start →
      path.length ≤ q.length + 2 := by
  induction steps generalizing looked queue seen with
  | zero => cases hpath
  | succ steps ih =>
    match queue with
    | [] => cases hpath
    | p :: queue =>
      by_cases hback : g.Edge p.stop start
      · rw [wayBack_of_edge hstart hback] at hpath
        obtain rfl := Option.some.inj hpath
        rw [List.reverse_cons, List.dropLast_concat, List.nodup_reverse, List.length_append,
          List.length_reverse]
        refine ⟨hloopless.nodup p (List.mem_cons_self ..), fun q hq hclose => ?_⟩
        exact Nat.add_le_add_right (hlevels.shortest hq hclose) 2
      · rw [wayBack_of_not_edge hstart hback] at hpath
        exact ih (hlevels.step hback) (hloopless.step hback) hpath

/-! ### Closed walks and trails -/

/-- A closed walk through a member of a cycle stays inside the cycle. -/
theorem mem_of_closedWalk {walk : List Symbol} (hg : g.Proper) (h : members ∈ g.cycles)
    (hwalk : ClosedWalk g.Edge walk) (hhead : walk.head? = some start) (hstart : start ∈ members) :
    ∀ v ∈ walk, v ∈ members := by
  intro v hv
  obtain ⟨-, -, hmem⟩ := (cycle_spec hg h).2 start hstart
  obtain ⟨before, after, rfl⟩ := List.append_of_mem hv
  obtain ⟨hthere, hback⟩ := List.isChain_split.mp hwalk.chain
  have hlast := hwalk.closed
  rw [hhead, List.getLast?_append_of_ne_nil _ (List.cons_ne_nil v after)] at hlast
  refine (hmem v).mpr ⟨?_, ?_⟩
  · have hleads := List.relationReflTransGen_of_exists_isChain _ hthere (by simp)
    have hfirst : (before ++ [v]).head? = some start := by
      rw [← hhead]
      cases before <;> rfl
    rw [List.getLast_concat, List.head_of_head?_eq_some hfirst] at hleads
    exact hleads
  · have hleads := List.relationReflTransGen_of_exists_isChain _ hback (List.cons_ne_nil v after)
    rw [List.head_cons, List.getLast_of_getLast?_eq_some hlast.symm] at hleads
    exact hleads

/-- A closed walk is a trail with an edge back to its start. -/
theorem exists_trail_of_closedWalk {walk : List Symbol} (hwalk : ClosedWalk g.Edge walk)
    (hhead : walk.head? = some start) (hinside : ∀ v ∈ walk, v ∈ members) :
    ∃ q : Trail, q.Walks g start members ∧ g.Edge q.stop start ∧ walk.length = q.length + 2 := by
  obtain ⟨backwards, rfl⟩ : ∃ backwards : List Symbol, walk = backwards.reverse :=
    ⟨walk.reverse, (List.reverse_reverse walk).symm⟩
  have hchain := List.isChain_reverse.mp hwalk.chain
  have hclosed := hwalk.closed
  have hlength := hwalk.two_le_length
  rw [hhead, List.getLast?_reverse] at hclosed
  rw [List.head?_reverse] at hhead
  rw [List.length_reverse] at hlength
  match backwards with
  | [] => cases hhead
  | [x] => exact absurd hlength (by simp)
  | x :: u :: before =>
    obtain rfl := Option.some.inj hclosed
    obtain ⟨hedge, hrest⟩ := List.isChain_cons_cons.mp hchain
    rw [List.getLast?_cons_cons] at hhead
    refine ⟨⟨u, before⟩, ⟨hhead, hrest, fun v hv => ?_⟩, hedge, ?_⟩
    · exact hinside v (List.mem_reverse.mpr (List.mem_cons_of_mem _ hv))
    · rw [List.length_reverse]
      rfl

end NameGraph

end StackTemplate
