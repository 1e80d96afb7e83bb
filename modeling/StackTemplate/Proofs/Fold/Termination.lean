import Mathlib.Data.Prod.Lex
import StackTemplate.Fold.Evaluation
import StackTemplate.Proofs.Fold.Passing
import StackTemplate.Proofs.Fold.Reinlining
import StackTemplate.Proofs.Fold.Weight

/-!
# Folding ends

A pass that changes a slot makes the measure of the tree smaller: first how much the aliases
connect, then what all slots weigh together. So after some number of passes one changes nothing,
and from then on more fuel makes no difference.
-/

namespace StackTemplate

/-- The module and the declarations within reach. -/
def Tree.hosts (t : Tree) : Finset NodeId :=
  (t.reachable.filter fun x => (t.expr? x).isNone).toFinset

namespace Fold

open StackTemplate.Tree

variable {t t' : Tree} {directory : Directory} {cyclic : List String} {x c : NodeId}

theorem mem_hosts (hwf : t.WellFormed) :
    x ∈ t.hosts ↔ t.Reaches t.root x ∧ t.expr? x = none := by
  rw [hosts, List.mem_toFinset, List.mem_filter, reachable, mem_descendants hwf.grounded,
    Option.isNone_iff_eq_none]

/-! ### The measure -/

/-- The weight of a reference in a tree. -/
noncomputable def refWeight (t : Tree) (directory : Directory) : String → Nat :=
  (t.scope directory).cost (cyclicAliases t directory) (directory.names.toFinset.card + 1)

/-- What the slots of a node weigh. -/
noncomputable def slotsWeight (t : Tree) (c : String → Nat) (x : NodeId) : Nat :=
  ((t.exprSlots x).map fun id => (t.term id).weight c).sum

/-- How much the aliases connect, and what all slots weigh. -/
noncomputable def measure (t : Tree) (directory : Directory) : Nat ×ₗ Nat :=
  toLex ((t.scope directory).extent directory.names.toFinset,
    ∑ x ∈ t.hosts, slotsWeight t (refWeight t directory) x)

theorem names_of_source? {n : String} (h : ((t.scope directory).source? n).isSome) :
    n ∈ directory.names.toFinset := by
  obtain ⟨e, he⟩ := Option.isSome_iff_exists.mp h
  obtain ⟨source, hsource, -⟩ := Option.map_eq_some_iff.mp (Option.filter_eq_some_iff.mp he).1
  obtain ⟨d, hd, -⟩ := Option.bind_eq_some_iff.mp hsource
  obtain ⟨id, hid, -⟩ := Option.bind_eq_some_iff.mp hd
  rw [List.mem_toFinset]
  exact List.mem_map.mpr ⟨(n, id), Table.get?_eq_some.mp hid, rfl⟩

/-- An expression that can be folded makes every term around it one that can. -/
theorem reducible_term (hwf : t.WellFormed) (hbound : Bound t directory)
    (hc : t.Reaches t.root c) (hexpr : (t.expr? c).isSome) (hx : t.Reaches c x)
    (hreduct : (t.expr? x).bind (reduct? t directory cyclic) ≠ none) :
    (t.term c).Reducible (t.scope directory) cyclic := by
  induction hx using Relation.ReflTransGen.head_induction_on with
  | refl =>
    obtain ⟨e, he⟩ := Option.isSome_iff_exists.mp hexpr
    rw [he, Option.bind_some] at hreduct
    rw [term_eq (hwf.grounded_of_reaches hc) he]
    refine .here fun hnone => hreduct ?_
    have hcontract := contract?_term hwf hbound cyclic
      (fun id => (t.term id).pass (t.scope directory) cyclic) e
    rw [List.map_map] at hnone
    exact Option.map_eq_none_iff.mp (hcontract.symm.trans hnone)
  | @head c z hz _ ih =>
    obtain ⟨e, he⟩ := Option.isSome_iff_exists.mp hexpr
    have hmem : z ∈ e.children := by rwa [← children_of_expr? he]
    rw [term_eq (hwf.grounded_of_reaches hc) he]
    refine .operand ?_ (List.mem_map_of_mem hmem) (ih (hc.tail hz) (hwf.expr_of_child hc hexpr hz))
    intro name heq
    cases e <;> cases heq
    cases hmem

/-- What the slots of a node weigh after a pass. -/
theorem slotsWeight_pass {f : NodeId → NodeId} (h : Folded t t' directory cyclic f)
    (hwf : t.WellFormed) (hx : t.Reaches t.root x) (he : t.expr? x = none) (w : String → Nat) :
    slotsWeight t' w x = ((t.exprSlots x).map fun id =>
      ((t.term id).pass (t.scope directory) cyclic).weight w).sum := by
  rw [slotsWeight, (h.slots hwf hx he).1, List.map_map]
  congr 1
  refine List.map_congr_left fun id hid => ?_
  exact congrArg (Term.weight w) (h.term_eq x id hx he hid)

/-- If the aliases connect as much as before, references do not get heavier. -/
theorem refWeight_pass_le {f : NodeId → NodeId} (hwf : t.WellFormed) (hbound : Bound t directory)
    (h : Folded t t' directory (cyclicAliases t directory) f)
    (heq : (t'.scope directory).extent directory.names.toFinset =
      (t.scope directory).extent directory.names.toFinset) (n : String) :
    refWeight t' directory n ≤ refWeight t directory n := by
  have hscope := h.scope_eq hbound
  have hsubset : cyclicAliases t directory ⊆ cyclicAliases t' directory := by
    intro n hn
    have hcircular := (mem_cyclicAliases hwf hbound).mp hn
    obtain ⟨m, ⟨e, he, -⟩, -⟩ := Relation.TransGen.head'_iff.mp hcircular
    refine (mem_cyclicAliases h.wellFormed (bound_rewired hbound h.toRewired)).mpr ?_
    rw [hscope] at heq ⊢
    exact Scope.circular_pass heq (names_of_source? (Option.isSome_of_eq_some he)) hcircular
  rw [refWeight, refWeight, hscope]
  exact Scope.cost_pass_le (fun n => names_of_source?) (fun n => mem_cyclicAliases hwf hbound)
    hsubset _ n

/-- A pass that changes a slot makes the measure smaller. -/
theorem measure_pass_lt {s : Folding} (hwf : s.tree.WellFormed) (hbound : Bound s.tree directory)
    (hcount : (s.pass directory).1 ≠ 0) :
    measure (s.pass directory).2.tree directory < measure s.tree directory := by
  obtain ⟨f, hfolded, hnothing⟩ := pass_folded hwf hbound
  have hscope := hfolded.scope_eq hbound
  have hle : ((s.pass directory).2.tree.scope directory).extent directory.names.toFinset ≤
      (s.tree.scope directory).extent directory.names.toFinset := by
    rw [hscope]
    exact Scope.extent_pass_le _
  rw [measure, measure, Prod.Lex.toLex_lt_toLex]
  -- With the same extent the references weigh no more than before, so terms get lighter.
  rcases Nat.lt_or_eq_of_le hle with hlt | heq
  · exact .inl hlt
  refine .inr ⟨heq, ?_⟩
  have hweight := Term.weight_pass (refWeight_pass_le hwf hbound hfolded heq)
    fun n e hn he => Scope.weight_source_lt (fun n => names_of_source?)
      (fun n => mem_cyclicAliases hwf hbound) hn he
  have hhosts : (s.pass directory).2.tree.hosts = s.tree.hosts := by
    ext x
    rw [mem_hosts hwf, mem_hosts hfolded.wellFormed]
    constructor
    · exact fun h => hfolded.old_host x h.1 h.2
    · exact fun h => ⟨(hfolded.host x h.1 h.2).1, hfolded.expr_host h.1 h.2⟩
  dsimp only
  rw [hhosts]
  -- No slot weighs more, and one weighs less.
  refine Finset.sum_lt_sum (fun x hx => ?_) ?_
  · obtain ⟨hx, he⟩ := (mem_hosts hwf).mp hx
    rw [slotsWeight_pass hfolded hwf hx he, slotsWeight]
    exact List.sum_le_sum fun id _ => (hweight (s.tree.term id)).1
  · -- Something was folded, and it is below a slot.
    obtain ⟨z, hz, hreduct⟩ : ∃ z ∈ s.tree.exprs, (s.tree.expr? z).bind
        (reduct? s.tree directory (cyclicAliases s.tree directory)) ≠ none := by
      by_contra hnone
      push Not at hnone
      exact hcount (hnothing hnone)
    obtain ⟨hreach, hexpr⟩ := hwf.mem_exprs.mp hz
    obtain ⟨x, c, hx, he, hc, hcz⟩ := hwf.exists_slot hreach hexpr
    refine ⟨x, (mem_hosts hwf).mpr ⟨hx, he⟩, ?_⟩
    rw [slotsWeight_pass hfolded hwf hx he, slotsWeight]
    apply List.sum_lt_sum
    · exact fun id _ => (hweight (s.tree.term id)).1
    · refine ⟨c, hc, (hweight (s.tree.term c)).2 (reducible_term hwf hbound ?_ ?_ hcz hreduct)⟩
      · exact hx.tail (mem_children.mpr (.inl hc))
      · exact hwf.expr_slot x c hx hc

/-! ### Runs -/

/-- The number of slots that the pass after `n` passes changes. -/
def Folding.changes (directory : Directory) (s : Folding) (n : Nat) : Nat :=
  ((s.after directory n).pass directory).1

theorem Folding.after_pass (directory : Directory) (n : Nat) (s : Folding) :
    (s.pass directory).2.after directory n = s.after directory (n + 1) :=
  (Function.iterate_succ_apply _ n s).symm

/-- Some pass changes nothing. -/
theorem exists_changes_eq_zero {s : Folding} (hwf : s.tree.WellFormed)
    (hbound : Bound s.tree directory) : ∃ n, s.changes directory n = 0 := by
  induction hm : measure s.tree directory using WellFoundedLT.induction generalizing s with
  | ind m ih =>
    by_cases hcount : (s.pass directory).1 = 0
    · exact ⟨0, hcount⟩
    · obtain ⟨f, hfolded, -⟩ := pass_folded hwf hbound
      have hlt := measure_pass_lt hwf hbound hcount
      obtain ⟨n, hn⟩ := ih _ (hm ▸ hlt) hfolded.wellFormed
        (bound_rewired hbound hfolded.toRewired) rfl
      refine ⟨n + 1, ?_⟩
      rwa [Folding.changes, ← Folding.after_pass]

/-- While every pass changes something, a run goes on until the fuel is used up. -/
theorem Folding.run_of_changes {s : Folding} {fuel : Nat}
    (h : ∀ n < fuel, s.changes directory n ≠ 0) :
    s.run directory fuel = (false, s.after directory fuel) := by
  induction fuel generalizing s with
  | zero => rfl
  | succ fuel ih =>
    have hfirst : (s.pass directory).1 ≠ 0 := h 0 (Nat.succ_pos fuel)
    have hrest : ∀ n < fuel, (s.pass directory).2.changes directory n ≠ 0 := by
      intro n hn
      rw [changes, after_pass]
      exact h (n + 1) (Nat.succ_lt_succ hn)
    rw [run]
    simp only [hfirst, if_false]
    rw [ih hrest, after_pass]

/-- A run ends with the first pass that changes nothing. -/
theorem Folding.run_of_stop {s : Folding} {stop fuel : Nat} (hfuel : stop < fuel)
    (hstop : s.changes directory stop = 0) (h : ∀ n < stop, s.changes directory n ≠ 0) :
    s.run directory fuel = (true, s.after directory (stop + 1)) := by
  induction stop generalizing s fuel with
  | zero =>
    obtain ⟨fuel, rfl⟩ := Nat.exists_eq_succ_of_ne_zero (Nat.ne_of_gt hfuel)
    have hfirst : (s.pass directory).1 = 0 := hstop
    rw [run]
    simp only [hfirst, if_true]
    rfl
  | succ stop ih =>
    obtain ⟨fuel, rfl⟩ := Nat.exists_eq_succ_of_ne_zero (Nat.ne_of_gt (Nat.zero_lt_of_lt hfuel))
    have hfirst : (s.pass directory).1 ≠ 0 := h 0 (Nat.succ_pos stop)
    rw [run]
    simp only [hfirst, if_false]
    rw [ih (Nat.lt_of_succ_lt_succ hfuel), after_pass]
    · rwa [changes, after_pass]
    · intro n hn
      rw [changes, after_pass]
      exact h (n + 1) (Nat.succ_lt_succ hn)

theorem Folding.passes_after (directory : Directory) (n : Nat) (s : Folding) :
    (s.after directory n).passes = s.passes + n := by
  induction n with
  | zero => rfl
  | succ n ih =>
    rw [after_succ]
    show (s.after directory n).passes + 1 = _
    rw [ih, Nat.add_assoc]

theorem after_rewired {s : Folding} (hwf : s.tree.WellFormed) (hbound : Bound s.tree directory)
    (n : Nat) : ∃ f, Rewired s.tree (s.after directory n).tree f :=
  ⟨_, after_leads hwf hbound n⟩

/-- There is a number of passes after which folding is done. With that much fuel or more the answer
is always the same: the tree of these passes, with parameters back in their formats. All passes but
the last change something, and the last changes nothing. With less fuel, folding reports that the
fuel ran out and leaves the tree as the passes made it. -/
theorem evaluate_reaches_fixed_point (hwf : t.WellFormed) (hbound : Bound t directory) :
    ∃ N ≥ 1,
      (∃ after stats, after.outcome = .finished stats ∧ stats.passes = N ∧
        stats.substitutions = (Folding.after directory N { tree := t }).substitutions ∧
        reinline (Folding.after directory N { tree := t }).tree =
          .ok (stats.reinlined, after.tree) ∧
        ∀ fuel ≥ N, evaluate t directory fuel = .ok after) ∧
      (∀ n, n + 1 < N → Folding.changes directory { tree := t } n ≠ 0) ∧
      Folding.changes directory { tree := t } (N - 1) = 0 ∧
      ∀ fuel < N, ∃ after, evaluate t directory fuel = .ok after ∧
        after.outcome = .exhausted fuel ∧
        after.tree = (Folding.after directory fuel { tree := t }).tree := by
  have hexists := exists_changes_eq_zero (s := { tree := t }) hwf hbound
  let stop := Nat.find hexists
  have hstop : Folding.changes directory { tree := t } stop = 0 := Nat.find_spec hexists
  have hbefore : ∀ n < stop, Folding.changes directory { tree := t } n ≠ 0 :=
    fun n hn => Nat.find_min hexists hn
  refine ⟨stop + 1, Nat.succ_pos stop, ?_, fun n hn => hbefore n (Nat.lt_of_succ_lt_succ hn),
    hstop, ?_⟩
  · obtain ⟨f, hf⟩ := after_rewired (s := { tree := t }) hwf hbound (stop + 1)
    obtain ⟨after, f', hreinline, -⟩ := reinline_rewired hf.wellFormed
    let s := Folding.after directory (stop + 1) { tree := t }
    let stats : Stats :=
      { passes := s.passes, substitutions := s.substitutions, reinlined := after.1 }
    refine ⟨⟨after.2, s.diagnostics, .finished stats⟩, stats, rfl, ?_, rfl, hreinline,
      fun fuel hfuel => ?_⟩
    · exact (Folding.passes_after directory (stop + 1) { tree := t }).trans (Nat.zero_add _)
    · rw [evaluate, Folding.run_of_stop hfuel hstop hbefore]
      simp only [hreinline]
      rfl
  · intro fuel hfuel
    have hrun := Folding.run_of_changes
      fun n (hn : n < fuel) => hbefore n (Nat.lt_of_lt_of_le hn (Nat.le_of_lt_succ hfuel))
    refine ⟨_, by rw [evaluate, hrun]; rfl, ?_, rfl⟩
    exact congrArg Outcome.exhausted
      ((Folding.passes_after directory fuel { tree := t }).trans (Nat.zero_add fuel))

/-- A module with two aliases of each other, and a reference to a join. -/
def circular : Tree where
  nodes := #[
    { kind := .expr (.ref "B"), span := default, parent := some 1 },
    { kind := .decl { localName := "A", kind := .var none 0 }, span := default, parent := some 10 },
    { kind := .expr (.ref "A"), span := default, parent := some 3 },
    { kind := .decl { localName := "B", kind := .var none 2 }, span := default, parent := some 10 },
    { kind := .expr (.literal (.string "x")), span := default, parent := some 6 },
    { kind := .expr (.ref "A"), span := default, parent := some 6 },
    { kind := .expr (.join "-" [4, 5]), span := default, parent := some 7 },
    { kind := .decl { localName := "C", kind := .var none 6 }, span := default, parent := some 10 },
    { kind := .expr (.ref "C"), span := default, parent := some 9 },
    { kind := .decl { localName := "D", kind := .var none 8 }, span := default, parent := some 10 },
    { kind := .module { name := "circular", items := [1, 3, 7, 9] }, span := default }]
  root := 10

/-- The directory of that module. -/
def circularDirectory : Directory where
  items := ⟨[("A", 1), ("B", 3), ("C", 7), ("D", 9)], by decide⟩

theorem circular_reaches_fixed_point :
    ∃ N ≥ 1, (∃ after stats, after.outcome = .finished stats ∧ stats.passes = N ∧
      ∀ fuel ≥ N, evaluate circular circularDirectory fuel = .ok after) ∧
      Folding.changes circularDirectory { tree := circular } (N - 1) = 0 := by
  have hwf : circular.WellFormed := by
    refine .ofAll (m := { name := "circular", items := [1, 3, 7, 9] }) rfl rfl ?_
    decide +kernel
  have hbound : Bound circular circularDirectory := by
    refine .ofEntries fun entry hentry => ⟨Reaches.refl.tail ?_, ?_⟩ <;>
      revert entry <;> decide +kernel
  obtain ⟨N, hN, ⟨after, stats, houtcome, hpasses, -, -, hevaluate⟩, -, hlast, -⟩ :=
    evaluate_reaches_fixed_point hwf hbound
  exact ⟨N, hN, ⟨after, stats, houtcome, hpasses, hevaluate⟩, hlast⟩

end Fold

end StackTemplate
