import Mathlib.Algebra.Order.BigOperators.Group.Finset
import Mathlib.Algebra.Order.BigOperators.Group.List
import Mathlib.Algebra.Order.Ring.Nat
import Mathlib.Data.Finset.Prod
import StackTemplate.Proofs.Fold.Circular

/-!
# What folding uses up

Replacing a reference copies the expression that it stands for, so terms grow. Still something
shrinks. Let a reference weigh more than all of its source, which is possible for names that are not
circular, since their sources lead down; let every other expression that can be folded weigh more
than what is left of it. Then a term that can be folded gets lighter (`weight_pass`).

The weight of a reference depends on which names are circular, and that can change from pass to
pass. But the names that a source leads to only get fewer (`transGen_edge_pass`), so there is a last
change; and while nothing changes, references do not get heavier (`cost_pass_le`).
-/

namespace StackTemplate

/-! ### Weights -/

/-- The weight of a head, other than a reference, over so many operands. -/
def Head.weight (arity : Nat) : Head → Nat
  | .join _ | .sub .. => arity + 1
  | h => if h.isActive then 1 else 0

theorem Head.weight_pos {h : Head} (arity : Nat) (hactive : h.isActive) : 0 < h.weight arity := by
  cases h <;> simp_all [weight, isActive]

theorem Head.isActive_ref {h : Head} (hactive : h.isActive) (name : String) : h ≠ .ref name := by
  rintro rfl
  cases hactive

namespace Term

variable {scope : Scope} {cyclic : List String} {c c' : String → Nat}

/-- The weight of a term if a reference to a name weighs `c name`. -/
def weight (c : String → Nat) : Term → Nat :=
  fold fun h os =>
    match h with
    | .ref name => c name
    | _ => h.weight os.length + (os.map (·.2)).sum

theorem weight_ref (c : String → Nat) (name : String) (es : List Term) :
    (node (.ref name) es).weight c = c name := by
  rw [weight, fold_node]

theorem weight_node {h : Head} (c : String → Nat) (es : List Term) (hhead : ∀ name, h ≠ .ref name) :
    (node h es).weight c = h.weight es.length + (es.map (weight c)).sum := by
  rw [weight, fold_node]
  cases h with
  | ref name => exact absurd rfl (hhead name)
  | _ =>
    simp only [List.length_map, List.map_map]
    rfl

theorem ref_or (h : Head) : (∃ name, h = .ref name) ∨ ∀ name, h ≠ .ref name := by
  cases h with
  | ref name => exact .inl ⟨name, rfl⟩
  | _ => exact .inr fun name heq => by cases heq

theorem weight_of_isConstant : ∀ e : Term, e.isConstant → e.weight c = 0 := by
  refine Term.induct fun h es ih he => ?_
  obtain ⟨hdata, hes⟩ := isConstant_node.mp he
  have hsum : (es.map (weight c)).sum = 0 := by
    rw [List.sum_eq_zero_iff]
    intro n hn
    obtain ⟨e, hmem, rfl⟩ := List.mem_map.mp hn
    exact ih e hmem (hes e hmem)
  have hhead : ∀ name, h ≠ .ref name := by
    rintro name rfl
    cases hdata
  rw [weight_node c es hhead, hsum]
  cases h <;> simp_all [Head.isData, Head.weight, Head.isActive]

/-- Only the weights of the names in a term matter. -/
theorem weight_congr : ∀ e : Term, (∀ n ∈ e.refs, c' n = c n) → e.weight c' = e.weight c := by
  refine Term.induct fun h es ih hrefs => ?_
  rcases ref_or h with ⟨name, rfl⟩ | hhead
  · rw [weight_ref, weight_ref]
    exact hrefs name (by rw [refs_ref]; exact List.mem_singleton.mpr rfl)
  · rw [weight_node c' es hhead, weight_node c es hhead]
    have hmap : es.map (weight c') = es.map (weight c) := by
      refine List.map_congr_left fun e hmem => ih e hmem fun n hn => hrefs n ?_
      exact (mem_refs_node hhead).mpr ⟨e, hmem, hn⟩
    rw [hmap]

theorem weight_mono (hle : ∀ n, c' n ≤ c n) : ∀ e : Term, e.weight c' ≤ e.weight c := by
  refine Term.induct fun h es ih => ?_
  rcases ref_or h with ⟨name, rfl⟩ | hhead
  · rw [weight_ref, weight_ref]
    exact hle name
  · rw [weight_node c' es hhead, weight_node c es hhead]
    exact Nat.add_le_add_left (List.sum_le_sum ih) _

/-! ### Folding makes terms lighter -/

/-- Some expression of the term can be folded. -/
inductive Reducible (scope : Scope) (cyclic : List String) : Term → Prop where
  | here {h : Head} {es : List Term}
    (contracts : contract? scope cyclic h (es.map fun e => (e, e.pass scope cyclic)) ≠ none) :
    Reducible scope cyclic (.node h es)
  | operand {h : Head} {es : List Term} {e : Term} (head : ∀ name, h ≠ .ref name) (mem : e ∈ es)
    (reducible : Reducible scope cyclic e) : Reducible scope cyclic (.node h es)

/-- Merged literals weigh nothing. -/
theorem sum_weight_parts (c : String → Nat) (parts : List Part) :
    ((parts.map Part.term).map (weight c)).sum =
      ((parts.filterMap Sum.getRight?).map fun o => o.2.weight c).sum := by
  induction parts with
  | nil => rfl
  | cons part parts ih =>
    rw [List.map_cons, List.map_cons, List.sum_cons, ih]
    cases part with
    | inl l =>
      have hzero : (Part.term (.inl l)).weight c = 0 := weight_of_isConstant _ (isConstant_literal l)
      rw [hzero, Nat.zero_add, List.filterMap_cons_none rfl]
    | inr o => rfl

/-- What a folded expression weighs, if its operands do not get heavier. -/
theorem Contracts.weight_lt {h : Head} {es : List Term} {e' : Term}
    (hcontracts : Contracts scope cyclic (es.map fun e => (e, e.pass scope cyclic)) h e')
    (hle : ∀ n, c' n ≤ c n)
    (hsource : ∀ n e, n ∉ cyclic → scope.source? n = some e → e.weight c < c n)
    (ih : ∀ e ∈ es, (e.pass scope cyclic).weight c' ≤ e.weight c) :
    e'.weight c' < (node h es).weight c := by
  have hsum : ((es.map fun e => (e, e.pass scope cyclic)).map fun o => o.2.weight c').sum ≤
      (es.map (weight c)).sum := by
    rw [List.map_map]
    exact List.sum_le_sum ih
  cases hcontracts with
  -- An operand or a constant weighs less than the expression without its head.
  | operand active mem =>
    obtain ⟨e, hmem, rfl⟩ := List.mem_map.mp mem
    have hpos := Head.weight_pos es.length active
    have hone : e.weight c ≤ (es.map (weight c)).sum :=
      List.single_le_sum (fun _ _ => Nat.zero_le _) _ (List.mem_map_of_mem hmem)
    rw [weight_node c es (Head.isActive_ref active)]
    exact Nat.lt_of_le_of_lt ((ih e hmem).trans hone) (Nat.lt_add_of_pos_left hpos)
  | source free source =>
    rw [weight_ref]
    exact Nat.lt_of_le_of_lt (weight_mono hle e') (hsource _ _ free source)
  | constant active constant =>
    have hpos := Head.weight_pos es.length active
    rw [weight_of_isConstant e' constant, weight_node c es (Head.isActive_ref active)]
    exact Nat.add_pos_left hpos _
  -- What is made anew has the same head over fewer operands.
  | @join delimiter parts kept shorter =>
    have hparts := ((kept.map fun o => o.2.weight c').sum_le_sum
      fun _ _ => Nat.zero_le _).trans hsum
    rw [← sum_weight_parts] at hparts
    rw [List.length_map] at shorter
    rw [weight_node c' _ (by simp), weight_node c es (by simp), List.length_map]
    simp only [Head.weight]
    omega
  | @sub format format' names names' kept sublist shorter =>
    have hkept : (kept.map (weight c' ∘ Prod.snd)).sum ≤ (es.map (weight c)).sum :=
      ((sublist.map _).sum_le_sum fun _ _ => Nat.zero_le _).trans hsum
    rw [List.length_map] at shorter
    rw [weight_node c' _ (by simp), weight_node c es (by simp), List.length_map, List.map_map]
    simp only [Head.weight]
    omega

/-- Folding a term does not make it heavier, and lighter if there is anything to fold. -/
theorem weight_pass (hle : ∀ n, c' n ≤ c n)
    (hsource : ∀ n e, n ∉ cyclic → scope.source? n = some e → e.weight c < c n) :
    ∀ e : Term, (e.pass scope cyclic).weight c' ≤ e.weight c ∧
      (e.Reducible scope cyclic → (e.pass scope cyclic).weight c' < e.weight c) := by
  refine Term.induct fun h es ih => ?_
  have hes : ∀ e ∈ es, (e.pass scope cyclic).weight c' ≤ e.weight c := fun e hmem => (ih e hmem).1
  rw [pass_node]
  cases hc : contract? scope cyclic h (es.map fun e => (e, e.pass scope cyclic)) with
  | some e' =>
    have hlt := (contracts_of_contract? hc).weight_lt hle hsource hes
    exact ⟨Nat.le_of_lt hlt, fun _ => hlt⟩
  | none =>
    rw [Option.getD_none]
    rcases ref_or h with ⟨name, rfl⟩ | hhead
    · rw [weight_ref, weight_ref]
      refine ⟨hle name, fun hreducible => ?_⟩
      cases hreducible with
      | here contracts => exact absurd hc contracts
      | operand head => exact absurd rfl (head name)
    · rw [weight_node c' _ hhead, weight_node c es hhead, List.length_map, List.map_map]
      refine ⟨Nat.add_le_add_left (List.sum_le_sum hes) _, fun hreducible => ?_⟩
      refine Nat.add_lt_add_left (List.sum_lt_sum _ _ hes ?_) _
      cases hreducible with
      | here contracts => exact absurd hc contracts
      | operand head mem reducible => exact ⟨_, mem, (ih _ mem).2 reducible⟩

/-! ### Folding follows edges -/

theorem refs_of_isConstant : ∀ e : Term, e.isConstant → ∀ n, n ∉ e.refs := by
  refine Term.induct fun h es ih he n hn => ?_
  obtain ⟨hdata, hes⟩ := isConstant_node.mp he
  have hhead : ∀ name, h ≠ .ref name := by
    rintro name rfl
    cases hdata
  obtain ⟨e, hmem, hn⟩ := (mem_refs_node hhead).mp hn
  exact ih e hmem (hes e hmem) n hn

/-- A folded term refers to names that the term or the sources of its names refer to. -/
theorem mem_refs_pass {n : String} : ∀ e : Term, n ∈ (e.pass scope cyclic).refs →
    n ∈ e.refs ∨ ∃ k ∈ e.refs, ∃ e', scope.source? k = some e' ∧ n ∈ e'.refs := by
  refine Term.induct fun h es ih hn => ?_
  rcases ref_or h with ⟨name, rfl⟩ | hhead
  · rw [pass_node, contract?] at hn
    rw [refs_ref]
    have hname : name ∈ [name] := List.mem_singleton.mpr rfl
    split at hn
    · rw [Option.getD_none, refs_ref] at hn
      exact .inl hn
    · cases hsource : scope.source? name with
      | none =>
        rw [hsource, Option.getD_none, refs_ref] at hn
        exact .inl hn
      | some e' =>
        rw [hsource, Option.getD_some] at hn
        exact .inr ⟨name, hname, e', hsource, hn⟩
  · -- Apart from references, what is folded refers to nothing new.
    suffices h : ∃ e ∈ es, n ∈ (e.pass scope cyclic).refs by
      obtain ⟨e, hmem, hn⟩ := h
      rcases ih e hmem hn with hn | ⟨k, hk, hsource⟩
      · exact .inl ((mem_refs_node hhead).mpr ⟨e, hmem, hn⟩)
      · exact .inr ⟨k, (mem_refs_node hhead).mpr ⟨e, hmem, hk⟩, hsource⟩
    have hoperand : ∀ o ∈ es.map fun e => (e, e.pass scope cyclic), n ∈ o.2.refs →
        ∃ e ∈ es, n ∈ (e.pass scope cyclic).refs := by
      intro o ho hn
      obtain ⟨e, hmem, rfl⟩ := List.mem_map.mp ho
      exact ⟨e, hmem, hn⟩
    rw [pass_node] at hn
    cases hc : contract? scope cyclic h (es.map fun e => (e, e.pass scope cyclic)) with
    | none =>
      rw [hc, Option.getD_none, mem_refs_node hhead] at hn
      obtain ⟨e', hmem', hn⟩ := hn
      obtain ⟨e, hmem, rfl⟩ := List.mem_map.mp hmem'
      exact ⟨e, hmem, hn⟩
    | some e' =>
      rw [hc, Option.getD_some] at hn
      cases contracts_of_contract? hc with
      | operand active mem => exact hoperand _ mem hn
      | source free source => exact absurd rfl (hhead _)
      | constant active constant => exact absurd hn (refs_of_isConstant e' constant n)
      | join parts kept shorter =>
        obtain ⟨e, hmem, hn⟩ := (mem_refs_node hhead).mp hn
        obtain ⟨part, hpart, rfl⟩ := List.mem_map.mp hmem
        cases part with
        | inl l => exact absurd hn (refs_of_isConstant _ (isConstant_literal l) n)
        | inr o =>
          exact hoperand o (kept.mem (List.mem_filterMap.mpr ⟨.inr o, hpart, rfl⟩)) hn
      | sub kept sublist shorter =>
        obtain ⟨e, hmem, hn⟩ := (mem_refs_node (by simp)).mp hn
        obtain ⟨o, ho, rfl⟩ := List.mem_map.mp hmem
        exact hoperand o (sublist.mem ho) hn

end Term

namespace Scope

variable {scope : Scope} {cyclic cyclic' : List String} {n m : String}

/-- A name with a source in the folded scope has one before. -/
theorem isSome_source?_of_pass (h : ((scope.map (Term.pass scope cyclic)).source? n).isSome) :
    (scope.source? n).isSome := by
  obtain ⟨e', he'⟩ := Option.isSome_iff_exists.mp h
  obtain ⟨e, he, -⟩ := source?_pass he'
  exact Option.isSome_iff_exists.mpr ⟨e, he⟩

/-- An edge of the folded scope was a way of one or two edges. -/
theorem transGen_of_edge_pass (h : (scope.map (Term.pass scope cyclic)).Edge n m) :
    Relation.TransGen scope.Edge n m := by
  obtain ⟨e', he', hrefs, hm⟩ := h
  obtain ⟨e, he, rfl⟩ := source?_pass he'
  have hm := isSome_source?_of_pass hm
  rcases Term.mem_refs_pass e hrefs with hrefs | ⟨k, hk, e', he', hrefs⟩
  · exact .single ⟨e, he, hrefs, hm⟩
  · exact .tail (.single ⟨e, he, hk, Option.isSome_of_eq_some he'⟩) ⟨e', he', hrefs, hm⟩

/-- Folding connects no names that were not connected. -/
theorem transGen_edge_pass
    (h : Relation.TransGen (scope.map (Term.pass scope cyclic)).Edge n m) :
    Relation.TransGen scope.Edge n m := by
  induction h with
  | single hedge => exact transGen_of_edge_pass hedge
  | tail _ hedge ih => exact ih.trans (transGen_of_edge_pass hedge)

section Extent

open Classical in
/-- The names that a name leads to. -/
noncomputable def below (scope : Scope) (names : Finset String) (n : String) : Finset String :=
  names.filter fun m => Relation.TransGen scope.Edge n m

open Classical in
/-- The names with a source. -/
noncomputable def sources (scope : Scope) (names : Finset String) : Finset String :=
  names.filter fun n => (scope.source? n).isSome

/-- How much the scope connects: the names with a source, and what each name leads to. -/
noncomputable def extent (scope : Scope) (names : Finset String) : Nat :=
  (scope.sources names).card + ∑ n ∈ names, (scope.below names n).card

variable {names : Finset String}

theorem mem_below : m ∈ scope.below names n ↔ m ∈ names ∧ Relation.TransGen scope.Edge n m := by
  unfold below
  simp

theorem mem_sources : n ∈ scope.sources names ↔ n ∈ names ∧ (scope.source? n).isSome := by
  rw [sources, Finset.mem_filter]

theorem below_pass_subset (names : Finset String) (n : String) :
    (scope.map (Term.pass scope cyclic)).below names n ⊆ scope.below names n := by
  intro m hm
  obtain ⟨hmem, hm⟩ := mem_below.mp hm
  exact mem_below.mpr ⟨hmem, transGen_edge_pass hm⟩

theorem sources_pass_subset (names : Finset String) :
    (scope.map (Term.pass scope cyclic)).sources names ⊆ scope.sources names := by
  intro n hn
  obtain ⟨hmem, hn⟩ := mem_sources.mp hn
  exact mem_sources.mpr ⟨hmem, isSome_source?_of_pass hn⟩

theorem extent_pass_le (names : Finset String) :
    (scope.map (Term.pass scope cyclic)).extent names ≤ scope.extent names :=
  Nat.add_le_add (Finset.card_le_card (sources_pass_subset names))
    (Finset.sum_le_sum fun n _ => Finset.card_le_card (below_pass_subset names n))

/-- If a scope connects as much as before, circular names stay circular. -/
theorem circular_pass (h : (scope.map (Term.pass scope cyclic)).extent names = scope.extent names)
    (hn : n ∈ names) (hcircular : scope.Circular n) :
    (scope.map (Term.pass scope cyclic)).Circular n := by
  have hsources : ((scope.map (Term.pass scope cyclic)).sources names).card ≤
      (scope.sources names).card := Finset.card_le_card (sources_pass_subset names)
  have hbelow : ∀ n ∈ names, ((scope.map (Term.pass scope cyclic)).below names n).card ≤
      (scope.below names n).card :=
    fun n _ => Finset.card_le_card (below_pass_subset names n)
  have hsum := Finset.sum_le_sum hbelow
  have heq : ∑ n ∈ names, ((scope.map (Term.pass scope cyclic)).below names n).card =
      ∑ n ∈ names, (scope.below names n).card := by
    unfold extent at h
    omega
  have hcard := (Finset.sum_eq_sum_iff_of_le hbelow).mp heq n hn
  have hsame := Finset.eq_of_subset_of_card_le (below_pass_subset names n) hcard.ge
  have hmem : n ∈ scope.below names n := mem_below.mpr ⟨hn, hcircular⟩
  rw [← hsame] at hmem
  exact (mem_below.mp hmem).2

end Extent

/-! ### The weight of references -/

/-- The weight of a reference, by the weights of the references in its source, `depth` levels
down. Circular references are not replaced and weigh nothing. -/
def cost (scope : Scope) (cyclic : List String) : (depth : Nat) → String → Nat
  | 0, _ => 0
  | depth + 1, n =>
    if n ∈ cyclic then 0
    else
      match scope.source? n with
      | some e => e.weight (cost scope cyclic depth) + 1
      | none => 0

theorem cost_of_none (depth : Nat) (h : scope.source? n = none) : scope.cost cyclic depth n = 0 := by
  cases depth with
  | zero => rfl
  | succ depth =>
    rw [cost, h]
    split <;> rfl

theorem cost_of_mem (depth : Nat) (h : n ∈ cyclic) : scope.cost cyclic depth n = 0 := by
  cases depth with
  | zero => rfl
  | succ depth => rw [cost, if_pos h]

theorem cost_succ {e : Term} (depth : Nat) (hn : n ∉ cyclic) (he : scope.source? n = some e) :
    scope.cost cyclic (depth + 1) n = e.weight (scope.cost cyclic depth) + 1 := by
  rw [cost, if_neg hn, he]

variable {names : Finset String}

/-- An edge to a name that is not circular leads down. -/
theorem card_below_lt (h : scope.Edge n m) (hm : m ∈ names) (hcircular : ¬ scope.Circular m) :
    (scope.below names m).card < (scope.below names n).card := by
  refine Finset.card_lt_card ((Finset.ssubset_iff_of_subset ?_).mpr ⟨m, ?_, ?_⟩)
  · intro k hk
    obtain ⟨hmem, hk⟩ := mem_below.mp hk
    exact mem_below.mpr ⟨hmem, .head h hk⟩
  · exact mem_below.mpr ⟨hm, .single h⟩
  · exact fun hmem => hcircular (mem_below.mp hmem).2

section Cost

variable (hnames : ∀ n, (scope.source? n).isSome → n ∈ names)
  (hcyclic : ∀ n, n ∈ cyclic ↔ scope.Circular n)

include hnames hcyclic

/-- Deeper than there are names below a name, its weight does not depend on the depth. -/
theorem cost_stable (depth : Nat) (n : String) (h : (scope.below names n).card < depth) :
    scope.cost cyclic (depth + 1) n = scope.cost cyclic depth n := by
  induction depth generalizing n with
  | zero => omega
  | succ depth ih =>
    by_cases hn : n ∈ cyclic
    · rw [cost_of_mem _ hn, cost_of_mem _ hn]
    cases he : scope.source? n with
    | none => rw [cost_of_none _ he, cost_of_none _ he]
    | some e =>
      rw [cost_succ _ hn he, cost_succ _ hn he]
      congr 1
      refine Term.weight_congr e fun m hm => ?_
      by_cases hmc : m ∈ cyclic
      · rw [cost_of_mem _ hmc, cost_of_mem _ hmc]
      cases hme : scope.source? m with
      | none => rw [cost_of_none _ hme, cost_of_none _ hme]
      | some e' =>
        have hsome := Option.isSome_of_eq_some hme
        have hlt := card_below_lt ⟨e, he, hm, hsome⟩ (hnames m hsome)
          fun hcircular => hmc ((hcyclic m).mpr hcircular)
        exact ih m (by omega)

/-- A reference that is replaced weighs more than its source. -/
theorem weight_source_lt {e : Term} (hn : n ∉ cyclic) (he : scope.source? n = some e) :
    e.weight (scope.cost cyclic (names.card + 1)) < scope.cost cyclic (names.card + 1) n := by
  have hle : (scope.below names n).card ≤ names.card := by
    refine Finset.card_le_card fun m hm => ?_
    exact (mem_below.mp hm).1
  rw [← cost_stable hnames hcyclic (names.card + 1) n (Nat.lt_succ_of_le hle), cost_succ _ hn he]
  exact Nat.lt_succ_self _

/-- References do not get heavier in a pass in which no name stops being circular. -/
theorem cost_pass_le (hsubset : cyclic ⊆ cyclic') (depth : Nat) (n : String) :
    (scope.map (Term.pass scope cyclic)).cost cyclic' depth n ≤
      scope.cost cyclic (names.card + 1) n := by
  induction depth generalizing n with
  | zero => exact Nat.zero_le _
  | succ depth ih =>
    by_cases hn : n ∈ cyclic'
    · rw [cost_of_mem _ hn]
      exact Nat.zero_le _
    cases he' : (scope.map (Term.pass scope cyclic)).source? n with
    | none =>
      rw [cost_of_none _ he']
      exact Nat.zero_le _
    | some e' =>
      obtain ⟨e, he, rfl⟩ := source?_pass he'
      rw [cost_succ _ hn he']
      have hpass := (Term.weight_pass ih
        (fun m e hm he => weight_source_lt hnames hcyclic hm he) e).1
      have hlt := weight_source_lt hnames hcyclic (fun hmem => hn (hsubset hmem)) he
      exact Nat.lt_of_le_of_lt hpass hlt

end Cost

end Scope

end StackTemplate
