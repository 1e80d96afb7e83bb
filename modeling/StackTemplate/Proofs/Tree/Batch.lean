import Mathlib.Algebra.BigOperators.Group.Finset.Basic
import Mathlib.Data.Set.Card
import StackTemplate.Proofs.Tree.Counting

/-!
# Batches of replacements

The walk that applies a batch is a loop with a stack that changes the nodes it goes over (`Walks`).
Its recursive reading needs none of this: a slot holds afterwards what replacements lead to from
what it held (`Leads`). The two agree (`apply_recursive`) whenever the children and replacements of
the nodes that can be met form no circle, and then the loop ends.

Nodes may be shared here, so the walk can meet a node more than once. What a visit counts is what it
takes away from the number of slots still to be filled (`unfilled`), and a second visit finds none;
so the count is that of the changed slots, each counted once.
-/

namespace StackTemplate

namespace Tree

variable {t g s : Tree} {r : NodeId → Option NodeId} {x y z w : NodeId} {stack : List NodeId}
  {count : Nat} {result : Nat × Tree} {staged : Replacements}

/-! ### Where replacements lead -/

/-- Replacements lead from the first node to the second: to a final literal, or to a node that
nothing replaces. -/
inductive Leads (t : Tree) (r : NodeId → Option NodeId) : NodeId → NodeId → Prop where
  | stop {x : NodeId} (last : t.isFinal x = true ∨ r x = none) : Leads t r x x
  | step {x y z : NodeId} (notFinal : t.isFinal x = false) (next : r x = some y)
      (rest : Leads t r y z) : Leads t r x z

theorem Leads.unique (hy : t.Leads r x y) (hz : t.Leads r x z) : y = z := by
  induction hy with
  | stop last =>
    cases hz with
    | stop _ => rfl
    | step notFinal next rest => rcases last with hfinal | hnone <;> simp_all
  | step notFinal next rest ih =>
    cases hz with
    | stop last => rcases last with hfinal | hnone <;> simp_all
    | step notFinal' next' rest' =>
      obtain rfl := Option.some.inj (next.symm.trans next')
      exact ih rest'

theorem leads_follow (h : g.Settles r x) : g.Leads r x (g.follow r x) :=
  follow_induct h (fun _ _ hlast => .stop hlast) fun _ _ _ _ hr hfinal hrest =>
    .step hfinal hr hrest

/-! ### The walk as a loop -/

/-- The walk as a loop with a stack of nodes. The node on top gets its new slots, the slots that
change are counted, and what the slots then hold goes onto the stack. -/
inductive Walks (r : NodeId → Option NodeId) : List NodeId → Nat × Tree → Nat × Tree → Prop where
  | done {result : Nat × Tree} : Walks r [] result result
  | visit {x : NodeId} {stack : List NodeId} {count : Nat} {t : Tree} {result : Nat × Tree}
      (rest : Walks r (t.slotsAfter r x ++ stack)
        (count + changes (t.children x) (t.slotsAfter r x),
          t.replaceChildren x (t.slotsAfter r x)) result) :
      Walks r (x :: stack) (count, t) result

theorem walks_nil {start : Nat × Tree} : Walks r [] start result ↔ result = start := by
  constructor
  · intro h
    cases h
    rfl
  · rintro rfl
    exact .done

theorem walks_cons : Walks r (x :: stack) (count, t) result ↔
    Walks r (t.slotsAfter r x ++ stack) (count + changes (t.children x) (t.slotsAfter r x),
      t.replaceChildren x (t.slotsAfter r x)) result := by
  constructor
  · intro h
    cases h with
    | visit rest => exact rest
  · exact .visit

theorem walkAll_add (r : NodeId → Option NodeId) (depth : Nat) (nodes : List NodeId)
    (count more : Nat) (t : Tree) : walkAll r depth (count + more, t) nodes =
      (count + (walkAll r depth (more, t) nodes).1, (walkAll r depth (more, t) nodes).2) := by
  induction nodes generalizing more t with
  | nil => rfl
  | cons c nodes ih =>
    rw [walkAll_cons, walkAll_cons, Nat.add_assoc]
    exact ih _ _

/-- The loop takes nodes off the stack one after the other, as the walk goes below them. -/
theorem walks_append {depth : Nat} {new : List NodeId} (start : Nat × Tree)
    (hwalk : ∀ c ∈ new, ∀ count s, Progress g (g.follow r) s →
      Progress g (g.follow r) (substituteBelow r depth c s).2 ∧
        ∀ stack, Walks r (c :: stack) (count, s) result ↔
          Walks r stack (count + (substituteBelow r depth c s).1,
            (substituteBelow r depth c s).2) result)
    (hs : Progress g (g.follow r) start.2) (stack : List NodeId) :
    Walks r (new ++ stack) start result ↔ Walks r stack (walkAll r depth start new) result := by
  induction new generalizing start with
  | nil => exact Iff.rfl
  | cons c new ih =>
    obtain ⟨hc, hwalk⟩ := List.forall_mem_cons.mp hwalk
    obtain ⟨hprogress, hfirst⟩ := hc start.1 start.2 hs
    exact (hfirst (new ++ stack)).trans (ih (start.1 + (substituteBelow r depth c start.2).1,
      (substituteBelow r depth c start.2).2) hwalk hprogress)

/-- The loop and the walk below a node do the same. -/
theorem walks_substituteBelow (hroot : g.Settles r g.root) {depth : Nat}
    (hdepth : Within (g.slotsAfter r) g.size depth y) (hy : g.ReachesAfter r g.root y)
    (hs : Progress g (g.follow r) s) (count : Nat) (stack : List NodeId) :
    Walks r (y :: stack) (count, s) result ↔
      Walks r stack (count + (substituteBelow r depth y s).1,
        (substituteBelow r depth y s).2) result := by
  -- The stack and the tree so far are general: both change before the loop is done with a child.
  induction depth generalizing y s count stack with
  | zero => exact hdepth.elim
  | succ depth ih =>
    have hsettles := hy.settles hroot
    have hslots : s.slotsAfter r y = g.slotsAfter r y := hs.map_children hsettles
    obtain ⟨hs', -, -⟩ := hs.replaceChildren hsettles
    rw [walks_cons, hslots, walks_append _ (fun c hc count s hs => ?_) hs', walkAll_add]
    · rw [← hslots]
      rfl
    · refine ⟨?_, fun stack => ih (hdepth.2 c hc) (hy.tail hc) hs count stack⟩
      exact (substituteBelow_spec (Q := fun _ => True) hroot (fun _ _ _ _ _ => trivial)
        (hdepth.2 c hc) (hy.tail hc) hs trivial).1

theorem changes_self (cs : List NodeId) : changes cs cs = 0 := by
  induction cs with
  | nil => rfl
  | cons c cs ih =>
    rw [changes, List.zip_cons_cons, List.countP_cons, ← changes, ih]
    simp

/-- A walk that replaces nothing changes nothing. -/
theorem substituteBelow_none (depth : Nat) (x : NodeId) (t : Tree) :
    substituteBelow (fun _ => none) depth x t = (0, t) := by
  induction depth generalizing x with
  | zero => rfl
  | succ depth ih =>
    have hslots : t.slotsAfter (fun _ => none) x = t.children x := by
      rw [slotsAfter, follow_none, List.map_id]
    have hall : ∀ nodes, walkAll (fun _ => none) depth (0, t) nodes = (0, t) := by
      intro nodes
      induction nodes with
      | nil => rfl
      | cons c nodes ihnodes =>
        rw [walkAll_cons, ih]
        exact ihnodes
    show walkAll _ depth (changes (t.children x) (t.slotsAfter (fun _ => none) x),
      t.replaceChildren x (t.slotsAfter (fun _ => none) x)) _ = _
    rw [hslots, changes_self, replaceChildren_self]
    exact hall _

/-- Applying an empty batch is no exception. -/
theorem apply_eq_substitute (t : Tree) (staged : Replacements) :
    t.apply staged = t.substitute fun id => staged.lookup id := by
  rw [apply]
  split
  · next hempty =>
    rw [List.isEmpty_iff.mp hempty]
    exact (substituteBelow_none _ _ _).symm
  · rfl

/-- The loop that starts at the root ends, and with what applying the batch gives. -/
theorem walks_root (hroot : t.Settles (fun id => staged.lookup id) t.root) :
    Walks (fun id => staged.lookup id) [t.root] (0, t) result ↔ result = t.apply staged := by
  have hdepth := (within_of_grounded (grounded_slotsAfter hroot).1).mono (size_le_walkDepth t)
  rw [walks_substituteBelow hroot hdepth .refl (.start t _), walks_nil, Nat.zero_add,
    apply_eq_substitute]
  rfl

/-! ### How many slots change -/

open Classical in
/-- The nodes within reach after the substitution. -/
noncomputable def reachedAfter (g : Tree) (r : NodeId → Option NodeId) : Finset NodeId :=
  (Finset.range g.size).filter (g.ReachesAfter r g.root)

theorem mem_reachedAfter (hroot : g.Settles r g.root) :
    x ∈ g.reachedAfter r ↔ g.ReachesAfter r g.root x := by
  classical
  rw [reachedAfter, Finset.mem_filter, Finset.mem_range]
  exact ⟨fun h => h.2, fun h => ⟨Grounded.lt (h.settles hroot), h⟩⟩

/-- The number of slots that do not yet hold what they shall hold. -/
noncomputable def unfilled (g : Tree) (r : NodeId → Option NodeId) (s : Tree) : Nat :=
  ∑ x ∈ g.reachedAfter r, changes (s.children x) (g.slotsAfter r x)

/-- A step of the loop counts the slots that it fills. -/
theorem unfilled_replaceChildren (hroot : g.Settles r g.root) (hs : Progress g (g.follow r) s)
    (hy : g.ReachesAfter r g.root y) :
    changes (s.children y) (g.slotsAfter r y) +
      g.unfilled r (s.replaceChildren y (g.slotsAfter r y)) = g.unfilled r s := by
  classical
  obtain ⟨-, hself, hother⟩ := hs.replaceChildren (hy.settles hroot)
  have hmem := (mem_reachedAfter hroot).mpr hy
  -- The node has nothing left to fill, and every other node has what it had.
  rw [unfilled, unfilled, ← Finset.add_sum_erase _ _ hmem, ← Finset.add_sum_erase _ _ hmem,
    children_of_mapSlots hself, changes_self, Nat.zero_add]
  congr 1
  refine Finset.sum_congr rfl fun x hx => ?_
  rw [children_congr (hother x (Finset.ne_of_mem_erase hx))]

/-- Over the whole loop, what is counted is what was unfilled. -/
theorem Walks.count_add_unfilled {start : Nat × Tree} (h : Walks r stack start result)
    (hroot : g.Settles r g.root) (hs : Progress g (g.follow r) start.2)
    (hstack : ∀ y ∈ stack, g.ReachesAfter r g.root y) :
    result.1 + g.unfilled r result.2 = start.1 + g.unfilled r start.2 := by
  induction h with
  | done => rfl
  | @visit x stack count s result rest ih =>
    obtain ⟨hx, hstack⟩ := List.forall_mem_cons.mp hstack
    have hslots : s.slotsAfter r x = g.slotsAfter r x := hs.map_children (hx.settles hroot)
    rw [hslots] at ih
    have hrest := ih (hs.replaceChildren (hx.settles hroot)).1
      (List.forall_mem_append.mpr ⟨fun c hc => hx.tail hc, hstack⟩)
    rw [hrest, Nat.add_assoc, unfilled_replaceChildren hroot hs hx]

/-- The places in which two lists differ, one by one. -/
theorem changes_eq_card {old new : List NodeId} (hlength : new.length = old.length) :
    changes old new = ((Finset.range old.length).filter fun i => new[i]? ≠ old[i]?).card := by
  induction old generalizing new with
  | nil => rfl
  | cons a old ih =>
    cases new with
    | nil => cases hlength
    | cons b new =>
      have hrest := ih (Nat.succ.inj hlength)
      rw [Finset.card_filter] at hrest ⊢
      rw [List.length_cons, Finset.sum_range_succ', changes, List.zip_cons_cons, List.countP_cons,
        ← changes, hrest]
      simp only [List.getElem?_cons_succ, List.getElem?_cons_zero, Option.some.injEq, ne_eq,
        bne_iff_ne]
      simp only [eq_comm]

/-- The slots of nodes within reach that do not hold what they held before. -/
def changedSlots (before after : Tree) : Set (NodeId × Nat) :=
  { slot | after.Reaches after.root slot.1 ∧
    (after.children slot.1)[slot.2]? ≠ (before.children slot.1)[slot.2]? }

/-- The changed slots are as many as there were to fill. -/
theorem encard_changedSlots (hroot : g.Settles r g.root)
    (hreach : ∀ x, t.Reaches t.root x ↔ g.ReachesAfter r g.root x)
    (hslots : ∀ x, g.ReachesAfter r g.root x → t.children x = g.slotsAfter r x) :
    (changedSlots g t).encard = g.unfilled r g := by
  classical
  -- The changed slots, counted node by node.
  let places (x : NodeId) : Finset Nat := (Finset.range (g.children x).length).filter fun i =>
    (g.slotsAfter r x)[i]? ≠ (g.children x)[i]?
  let slots : Finset (NodeId × Nat) := (g.reachedAfter r).biUnion fun x =>
    (places x).map ⟨fun i => (x, i), fun _ _ h => (Prod.mk.inj h).2⟩
  have hset : changedSlots g t = slots := by
    ext ⟨x, i⟩
    simp only [changedSlots, Set.mem_ofPred_eq, Finset.mem_coe, slots, Finset.mem_biUnion,
      Finset.mem_map, mem_reachedAfter hroot, hreach]
    constructor
    · rintro ⟨hx, hne⟩
      rw [hslots x hx] at hne
      refine ⟨x, hx, i, Finset.mem_filter.mpr ⟨Finset.mem_range.mpr ?_, hne⟩, rfl⟩
      by_contra hle
      rw [Nat.not_lt] at hle
      rw [List.getElem?_eq_none hle, List.getElem?_eq_none (by simpa [slotsAfter] using hle)] at hne
      exact hne rfl
    · rintro ⟨_, hx, _, hi, heq⟩
      cases heq
      rw [hslots x hx]
      exact ⟨hx, (Finset.mem_filter.mp hi).2⟩
  have hcard : slots.card = g.unfilled r g := by
    rw [Finset.card_biUnion, unfilled]
    · refine Finset.sum_congr rfl fun x _ => ?_
      rw [Finset.card_map, changes_eq_card (by simp [slotsAfter])]
    · intro x _ y _ hxy
      refine Finset.disjoint_left.mpr fun slot hx hy => hxy ?_
      obtain ⟨_, _, rfl⟩ := Finset.mem_map.mp hx
      obtain ⟨_, _, heq⟩ := Finset.mem_map.mp hy
      exact (Prod.mk.inj heq).1.symm
  rw [hset, Set.encard_coe_eq_coe_finsetCard, hcard]

/-! ### The tree afterwards -/

/-- What a batch of replacements does to a tree. -/
structure Substituted (t : Tree) (r : NodeId → Option NodeId) (after : Tree) : Prop where
  root_eq : after.root = t.root
  size_eq : after.size = t.size
  span_eq : ∀ x, after.span x = t.span x
  /-- In the slots of a node within reach is what replacements lead to from what was there. -/
  leads : ∀ x, after.Reaches after.root x →
    List.Forall₂ (t.Leads r) (t.children x) (after.children x)
  /-- The node is otherwise what it was. -/
  refilled : ∀ x, after.Reaches after.root x →
    after.kind? x = (t.kind? x).map fun kind => kind.refill (after.children x)
  untouched : ∀ x, ¬ after.Reaches after.root x → after.kind? x = t.kind? x
  /-- Final literals stay in their slots, and stay what they are. -/
  final : ∀ (x : NodeId) (i : Nat) (c : NodeId), (t.children x)[i]? = some c → t.isFinal c →
    (after.children x)[i]? = some c ∧ after.kind? c = t.kind? c

/-- Two slots of nodes in a set lead to one node only if they are one slot. -/
def DistinctResults (t : Tree) (r : NodeId → Option NodeId) (nodes : NodeId → Prop) : Prop :=
  ∀ (p : NodeId) (i : Nat) (c q : NodeId) (j : Nat) (d w : NodeId),
    nodes p → (t.children p)[i]? = some c → nodes q → (t.children q)[j]? = some d →
    t.Leads r c w → t.Leads r d w → p = q ∧ i = j

section Apply

variable (hroot : t.Settles (fun id => staged.lookup id) t.root)

include hroot

/-- The walk leaves all nodes that are not within reach afterwards. -/
theorem kind?_apply_of_not_reaches
    (hx : ¬ t.ReachesAfter (fun id => staged.lookup id) t.root x) :
    (t.apply staged).2.kind? x = t.kind? x := by
  refine (apply_spec (Q := fun s => s.kind? x = t.kind? x) hroot
    (fun s y hy hs hq => ?_) rfl).2.1
  rw [(hs.replaceChildren (hy.settles hroot)).2.2 x fun heq => hx (heq ▸ hy), hq]

theorem kind?_apply_of_final (hfinal : t.isFinal x) :
    (t.apply staged).2.kind? x = t.kind? x := by
  by_cases hx : t.ReachesAfter (fun id => staged.lookup id) t.root x
  · rw [kind?_apply hroot hx]
    cases hkind : t.kind? x with
    | none => rfl
    | some kind =>
      rw [isFinal, expr?, hkind] at hfinal
      cases kind with
      | expr e =>
        cases e with
        | literal l => rfl
        | _ => cases hfinal
      | _ => cases hfinal
  · exact kind?_apply_of_not_reaches hroot hx

theorem substituted_apply :
    Substituted t (fun id => staged.lookup id) (t.apply staged).2 where
  root_eq := (progress_apply hroot).root_eq
  size_eq := (progress_apply hroot).size_eq
  span_eq := (progress_apply hroot).span_eq
  leads x hx := by
    have hx := (reaches_root_apply hroot).mp hx
    rw [children_apply hroot hx, slotsAfter, List.forall₂_map_right_iff, List.forall₂_same]
    exact fun c hc => leads_follow ((hx.settles hroot).child hc)
  refilled x hx := by
    have hx := (reaches_root_apply hroot).mp hx
    rw [children_apply hroot hx, kind?_apply hroot hx]
    cases hkind : t.kind? x with
    | none => rfl
    | some kind =>
      rw [Option.map_some, Option.map_some, slotsAfter, children_of_kind? hkind,
        NodeKind.refill_map]
  untouched x hx :=
    kind?_apply_of_not_reaches hroot fun hreaches => hx ((reaches_root_apply hroot).mpr hreaches)
  final x i c hc hfinal := by
    refine ⟨?_, kind?_apply_of_final hroot hfinal⟩
    by_cases hx : t.ReachesAfter (fun id => staged.lookup id) t.root x
    · have hsettles := (hx.settles hroot).child (List.mem_of_getElem? hc)
      rw [children_apply hroot hx, slotsAfter, List.getElem?_map, hc, Option.map_some,
        follow_of_final hsettles hfinal]
    · rw [children_congr (kind?_apply_of_not_reaches hroot hx), hc]

/-- The number that applying a batch returns is the number of changed slots. -/
theorem encard_changedSlots_apply :
    (changedSlots t (t.apply staged).2).encard = (t.apply staged).1 := by
  have hwalks := (walks_root hroot).mpr rfl
  have hcount := hwalks.count_add_unfilled hroot (.start t _) fun y hy => by
    rw [List.mem_singleton.mp hy]
    exact .refl
  have hfilled : t.unfilled (fun id => staged.lookup id) (t.apply staged).2 = 0 := by
    refine Finset.sum_eq_zero fun x hx => ?_
    rw [children_apply hroot ((mem_reachedAfter hroot).mp hx), changes_self]
  rw [hfilled, Nat.add_zero, Nat.zero_add] at hcount
  rw [hcount]
  exact encard_changedSlots hroot (fun x => reaches_root_apply hroot)
    fun x hx => children_apply hroot hx

/-- If results are distinct, what has come into a slot hangs below the node of the slot, and what
stays in its slot hangs where it hung. -/
theorem parent?_apply {p c c' : NodeId} {i : Nat}
    (hdistinct : DistinctResults t (fun id => staged.lookup id)
      ((t.apply staged).2.Reaches (t.apply staged).2.root))
    (hp : (t.apply staged).2.Reaches (t.apply staged).2.root p)
    (hc : (t.children p)[i]? = some c) (hc' : ((t.apply staged).2.children p)[i]? = some c') :
    (t.apply staged).2.parent? c' = if c' = c then t.parent? c else some p := by
  have hp' := (reaches_root_apply hroot).mp hp
  have hleads : ∀ {p c}, t.ReachesAfter (fun id => staged.lookup id) t.root p →
      c ∈ t.children p → t.Leads (fun id => staged.lookup id) c
        (t.follow (fun id => staged.lookup id) c) :=
    fun hp hc => leads_follow ((hp.settles hroot).child hc)
  have hapart : t.LeadsApart fun id => staged.lookup id := by
    intro p c q d hp hc hq hd heq
    obtain ⟨i, hi⟩ := List.mem_iff_getElem?.mp hc
    obtain ⟨j, hj⟩ := List.mem_iff_getElem?.mp hd
    obtain ⟨rfl, rfl⟩ := hdistinct p i c q j d _ ((reaches_root_apply hroot).mpr hp) hi
      ((reaches_root_apply hroot).mpr hq) hj (heq ▸ hleads hp hc) (hleads hq hd)
    exact ⟨rfl, Option.some.inj (hi.symm.trans hj)⟩
  have hhangs := hangs_apply hroot hapart
  have hmem := List.mem_of_getElem? hc
  rw [children_apply hroot hp', slotsAfter, List.getElem?_map, hc, Option.map_some,
    Option.some.injEq] at hc'
  subst hc'
  split
  · next hstays => rw [hstays, hhangs.stayed p c hp' hmem hstays]
  · next hmoved => exact hhangs.moved p c hp' hmem hmoved (children_apply hroot hp')

end Apply

/-- A batch of replacements does what its recursive reading says, if no way over children and
replacements from the root meets a node twice or leaves the tree: the loop ends with the result of
`apply`, slots within reach hold what replacements lead to, nothing else changes, and the number
returned is that of the slots that changed. If moreover no two slots lead to one node, what is new
in a slot hangs below the node of that slot. -/
theorem apply_recursive (t : Tree) (staged : Replacements)
    (hlt : ∀ x, Descends (t.onward fun id => staged.lookup id) t.root x → x < t.size)
    (hacyclic : ∀ x, Descends (t.onward fun id => staged.lookup id) t.root x →
      ¬ Relation.TransGen (fun p c => c ∈ t.onward (fun id => staged.lookup id) p) x x) :
    let r := fun id : NodeId => staged.lookup id
    let after := (t.apply staged).2
    (∀ result, Walks r [t.root] (0, t) result ↔ result = t.apply staged) ∧
    Substituted t r after ∧
    (changedSlots t after).encard = (t.apply staged).1 ∧
    (DistinctResults t r (after.Reaches after.root) →
      ∀ (p : NodeId) (i : Nat) (c c' : NodeId), after.Reaches after.root p →
        (t.children p)[i]? = some c → (after.children p)[i]? = some c' →
        (c' ≠ c → after.parent? c' = some p) ∧ (c' = c → after.parent? c' = t.parent? c) ∧
        (t.WellFormed → t.Reaches t.root p → after.parent? c' = some p)) := by
  intro r after
  have hroot : t.Settles r t.root := grounded_of_acyclic hlt hacyclic
  refine ⟨fun result => walks_root hroot, substituted_apply hroot,
    encard_changedSlots_apply hroot, fun hdistinct p i c c' hp hc hc' => ?_⟩
  have hparent := parent?_apply hroot hdistinct hp hc hc'
  refine ⟨fun hmoved => ?_, fun hstays => ?_, fun hwf hreach => ?_⟩
  · rw [hparent, if_neg hmoved]
  · rw [hparent, if_pos hstays]
  · rw [hparent, hwf.parent_eq p c hreach (List.mem_of_getElem? hc), ite_self]

theorem Substituted.getElem?_children {after : Tree} (h : Substituted t r after) {c : NodeId}
    {i : Nat} (hx : after.Reaches after.root x) (hc : (t.children x)[i]? = some c)
    (hw : t.Leads r c w) : (after.children x)[i]? = some w := by
  obtain ⟨hi, rfl⟩ := List.getElem?_eq_some_iff.mp hc
  obtain ⟨hlength, hleads⟩ := List.forall₂_iff_get.mp (h.leads x hx)
  rw [List.getElem?_eq_some_iff]
  exact ⟨hlength ▸ hi, (hleads i hi (hlength ▸ hi)).unique hw⟩

/-- In a well-formed tree no node is in two slots, so if the result is well-formed, no two slots
have led to one node. -/
theorem Substituted.distinctResults {after : Tree} (h : Substituted t r after)
    (hwf : after.WellFormed) : DistinctResults t r (after.Reaches after.root) := by
  intro p i c q j d w hp hc hq hd hcw hdw
  have hpw := h.getElem?_children hp hc hcw
  have hqw := h.getElem?_children hq hd hdw
  have hmem := List.mem_of_getElem? hpw
  have hne : w ≠ after.root := by
    rintro rfl
    exact nomatch hwf.root_parent.symm.trans (hwf.parent_eq p _ hp hmem)
  obtain ⟨slot, -, hunique⟩ := hwf.slot_unique w (hp.tail hmem) hne
  exact Prod.mk.inj ((hunique (p, i) ⟨hp, hpw⟩).trans (hunique (q, j) ⟨hq, hqw⟩).symm)

/-- A variable that joins a final literal with a reference, and beside it what the reference and, in
turn, what replaces it is replaced by. -/
def relayed : Tree where
  nodes := #[
    { kind := .expr (.literal { value := .string "x", isFinal := true }), span := default,
      parent := some 2 },
    { kind := .expr (.ref "A"), span := default, parent := some 2 },
    { kind := .expr (.join "-" [0, 1]), span := default, parent := some 3 },
    { kind := .decl { localName := "V", kind := .var none 2 }, span := default, parent := some 4 },
    { kind := .module { name := "relayed", items := [3] }, span := default },
    { kind := .expr (.ref "B"), span := default },
    { kind := .expr (.ref "C"), span := default, parent := some 7 },
    { kind := .expr (.list [6]), span := default },
    { kind := .expr (.literal (.string "y")), span := default }]
  root := 4

/-- Replacements in a chain, of an operand of a replacement, and of a final literal. -/
def relay : Replacements := [(1, 5), (5, 7), (6, 8), (0, 8)]

/-- The chain ends at the list, whose operand is replaced in turn; the final literal stays. -/
theorem relayed_recursive :
    (∀ result, Walks (fun id => relay.lookup id) [4] (0, relayed) result ↔
      result = relayed.apply relay) ∧
    (relayed.apply relay).2.children 2 = [0, 7] ∧ (relayed.apply relay).2.children 7 = [8] ∧
    (changedSlots relayed (relayed.apply relay).2).encard = 2 ∧
    [0, 7, 8].map (relayed.apply relay).2.parent? = [some 2, some 2, some 7] := by
  have hclosed : ∀ x < 9, ∀ y ∈ relayed.onward (fun id => relay.lookup id) x,
      y < 9 ∧ [1, 4, 5, 6, 7, 3, 1, 2, 0].getD y 0 < [1, 4, 5, 6, 7, 3, 1, 2, 0].getD x 0 := by
    decide +kernel
  have hlt : ∀ x, Descends (relayed.onward fun id => relay.lookup id) relayed.root x → x < 9 := by
    intro x hx
    induction hx with
    | refl => decide
    | tail _ hstep ih => exact (hclosed _ ih _ hstep).1
  -- Every step over children and replacements goes to a node of lower rank.
  have hacyclic : ∀ x, Descends (relayed.onward fun id => relay.lookup id) relayed.root x →
      ¬ Relation.TransGen (fun p c => c ∈ relayed.onward (fun id => relay.lookup id) p) x x :=
    not_transGen_of_rank ([1, 4, 5, 6, 7, 3, 1, 2, 0].getD · 0) fun p hp c hc =>
      (hclosed p (hlt p hp) c hc).2
  obtain ⟨hwalks, hsubstituted, hcount, hparent⟩ := apply_recursive relayed relay hlt hacyclic
  have hafter : (relayed.apply relay).1 = 2 ∧
      (relayed.apply relay).2.kind? 4 = some (.module { name := "relayed", items := [3] }) ∧
      [2, 3, 4, 7].map (relayed.apply relay).2.children = [[0, 7], [2], [3], [8]] := by
    decide +kernel
  obtain ⟨hnumber, hmodule, hchildren⟩ := hafter
  simp only [List.map_cons, List.map_nil, List.cons.injEq, and_true] at hchildren
  obtain ⟨hjoin, hvar, hitems, hlist⟩ := hchildren
  have hroot : (relayed.apply relay).2.root = 4 := hsubstituted.root_eq
  have hwf : (relayed.apply relay).2.WellFormed := by
    refine .ofAll (by rw [hroot, hmodule]) ?_ ?_ <;> decide +kernel
  have hstart : relayed.WellFormed := by
    refine .ofAll (m := { name := "relayed", items := [3] }) rfl rfl ?_
    decide +kernel
  have hdistinct := hsubstituted.distinctResults hwf
  have hreach : (relayed.apply relay).2.Reaches (relayed.apply relay).2.root 2 := by
    rw [hroot]
    exact (Reaches.refl.tail (by rw [hitems]; decide : 3 ∈ _)).tail (by rw [hvar]; decide)
  have hstays := (hparent hdistinct 2 0 0 0 hreach (by decide) (by rw [hjoin]; rfl)).2.2 hstart
    ((Reaches.refl.tail (by decide : 3 ∈ relayed.children 4)).tail (by decide))
  have hchain := (hparent hdistinct 2 1 1 7 hreach (by decide) (by rw [hjoin]; rfl)).1 (by decide)
  have hnested := (hparent hdistinct 7 0 6 8 (hreach.tail (by rw [hjoin]; decide)) (by decide)
    (by rw [hlist]; rfl)).1 (by decide)
  refine ⟨hwalks, hjoin, hlist, by rw [hcount, hnumber]; rfl, ?_⟩
  rw [List.map_cons, List.map_cons, List.map_cons, hstays, hchain, hnested]
  rfl

end Tree

end StackTemplate
