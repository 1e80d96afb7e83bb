import StackTemplate.Proofs.Fold.Passing
import StackTemplate.Proofs.Tree.Counting

/-!
# Two substitutions side by side

Two trees stage replacements that *match*: expressions with the same term are both left alone, or
both replaced, by expressions with the same term or by new nodes of the same shape over such
expressions. Then where two such expressions lead there are the same terms afterwards, and the walks
count the same number of changes on the way (`matches_follow`). Node ids play no part in it.
-/

namespace StackTemplate.Order

open StackTemplate.Tree Fold

variable {t g t' g' : Tree} {staged staged' : Replacements} {owner owner' : NodeId → NodeId}
  {y y' : NodeId}

/-- Contents of slots that say the same: expressions with the same term, or new nodes with the same
head over such contents. -/
inductive Matches (t g t' g' : Tree) : NodeId → NodeId → Prop where
  | old {x x' : NodeId} (mem : x ∈ t.exprs) (mem' : x' ∈ t'.exprs)
    (term_eq : t'.term x' = t.term x) : Matches t g t' g' x x'
  | new {y y' : NodeId} {e e' : Expr} (size_le : t.size ≤ y) (size_le' : t'.size ≤ y')
    (expr_eq : g.expr? y = some e) (expr_eq' : g'.expr? y' = some e') (head_eq : e'.head = e.head)
    (length_eq : e'.children.length = e.children.length)
    (below : ∀ pair ∈ e.children.zip e'.children, Matches t g t' g' pair.1 pair.2) :
    Matches t g t' g' y y'

/-- What is staged for expressions with the same term matches. -/
def Agree (t g t' g' : Tree) (staged staged' : Replacements) : Prop :=
  ∀ x ∈ t.exprs, ∀ x' ∈ t'.exprs, t'.term x' = t.term x →
    Option.Rel (Matches t g t' g') (staged.lookup x) (staged'.lookup x')

theorem zip_of_map_eq {α β γ : Type} {f : α → γ} {f' : β → γ} {as : List α} {bs : List β}
    (h : bs.map f' = as.map f) :
    bs.length = as.length ∧ ∀ pair ∈ as.zip bs, f' pair.2 = f pair.1 := by
  induction as generalizing bs with
  | nil =>
    obtain rfl := List.map_eq_nil_iff.mp h
    exact ⟨rfl, fun pair hpair => absurd hpair List.not_mem_nil⟩
  | cons a as ih =>
    obtain ⟨b, bs, rfl, hb, hbs⟩ := List.map_eq_cons_iff.mp h
    obtain ⟨hlength, hzip⟩ := ih hbs
    rw [List.length_cons, List.length_cons, hlength]
    exact ⟨rfl, List.forall_mem_cons.mpr ⟨hb, hzip⟩⟩

/-- Expressions with the same term have the same head, and operands with the same terms. -/
theorem operands_of_term_eq {x x' : NodeId} {e e' : Expr} (hx : t.Grounded x)
    (hx' : t'.Grounded x') (he : t.expr? x = some e) (he' : t'.expr? x' = some e')
    (h : t'.term x' = t.term x) :
    e'.head = e.head ∧ e'.children.length = e.children.length ∧
      ∀ pair ∈ e.children.zip e'.children, t'.term pair.2 = t.term pair.1 := by
  rw [term_eq hx he, term_eq hx' he'] at h
  obtain ⟨hhead, hoperands⟩ := Term.node.inj h
  exact ⟨hhead, zip_of_map_eq hoperands⟩

section Apply

variable (h : Staged t staged g owner) (hwf : t.WellFormed) (h' : Staged t' staged' g' owner')
  (hwf' : t'.WellFormed)

include h hwf h' hwf'

/-- Nodes that stay, with one head and operands that lead to the same. -/
theorem same_of_operands {e e' : Expr} (he : g.expr? y = some e) (he' : g'.expr? y' = some e')
    (hy : g.ReachesAfter (fun id => staged.lookup id) g.root y)
    (hy' : g'.ReachesAfter (fun id => staged'.lookup id) g'.root y')
    (hhead : e'.head = e.head) (hlength : e'.children.length = e.children.length)
    (hbelow : ∀ pair ∈ e.children.zip e'.children,
      (g'.apply staged').2.term (g'.follow (fun id => staged'.lookup id) pair.2) =
          (g.apply staged).2.term (g.follow (fun id => staged.lookup id) pair.1) ∧
        g'.slotWork (fun id => staged'.lookup id) pair.2 =
          g.slotWork (fun id => staged.lookup id) pair.1) :
    (g'.apply staged').2.term y' = (g.apply staged).2.term y ∧
      g'.work (fun id => staged'.lookup id) y' = g.work (fun id => staged.lookup id) y := by
  constructor
  · rw [term_apply h hwf hy he, term_apply h' hwf' hy' he', hhead]
    exact congrArg (Term.node e.head)
      (map_eq_map_of_zip hlength fun pair hpair => (hbelow pair hpair).1)
  · rw [work_eq (hy.settles (h.separates hwf).settles), children_of_expr? he,
      work_eq (hy'.settles (h'.separates hwf').settles), children_of_expr? he', totalOf_eq_sum,
      totalOf_eq_sum]
    exact congrArg List.sum (map_eq_map_of_zip hlength fun pair hpair => (hbelow pair hpair).2)

/-- Contents that match are both replaced, by contents that match, or both stay, with operands that
match. -/
theorem Matches.replaced_or_stays (hagree : Agree t g t' g' staged staged')
    (hmatches : Matches t g t' g' y y') :
    (∃ z z', staged.lookup y = some z ∧ staged'.lookup y' = some z' ∧ Matches t g t' g' z z') ∨
      g.follow (fun id => staged.lookup id) y = y ∧
        g'.follow (fun id => staged'.lookup id) y' = y' ∧
        ∃ e e', g.expr? y = some e ∧ g'.expr? y' = some e' ∧ e'.head = e.head ∧
          e'.children.length = e.children.length ∧
          ∀ pair ∈ e.children.zip e'.children, Matches t g t' g' pair.1 pair.2 := by
  cases hmatches with
  | new hle hle' he he' hhead hlength hbelow =>
    exact .inr ⟨h.follow_new hwf hle, h'.follow_new hwf' hle', _, _, he, he', hhead, hlength,
      hbelow⟩
  | old hx hx' hsame =>
    -- The two sides agree, so it cannot be that only one of them is replaced.
    have hrel := hagree y hx y' hx' hsame
    cases hlookup : staged.lookup y with
    | some z =>
      rw [hlookup] at hrel
      cases hlookup' : staged'.lookup y' with
      | none =>
        rw [hlookup'] at hrel
        cases hrel
      | some z' =>
        rw [hlookup'] at hrel
        obtain ⟨hmatches⟩ := hrel
        exact .inl ⟨z, z', rfl, rfl, hmatches⟩
    | none =>
      rw [hlookup] at hrel
      have hlookup' : staged'.lookup y' = none := by
        cases hz : staged'.lookup y' with
        | none => rfl
        | some z' =>
          rw [hz] at hrel
          cases hrel
      obtain ⟨hreach, hexpr⟩ := hwf.mem_exprs.mp hx
      obtain ⟨hreach', hexpr'⟩ := hwf'.mem_exprs.mp hx'
      obtain ⟨e, he⟩ := Option.isSome_iff_exists.mp hexpr
      obtain ⟨e', he'⟩ := Option.isSome_iff_exists.mp hexpr'
      obtain ⟨hhead, hlength, hzip⟩ := operands_of_term_eq (hwf.grounded_of_reaches hreach)
        (hwf'.grounded_of_reaches hreach') he he' hsame
      refine .inr ⟨(h.follow_eq_self_iff hwf hreach).mpr hlookup,
        (h'.follow_eq_self_iff hwf' hreach').mpr hlookup', e, e', ?_, ?_, hhead, hlength,
        fun pair hpair => ?_⟩
      · rw [expr?_congr (h.keeps.kind_eq y (hwf.lt_size hreach)), he]
      · rw [expr?_congr (h'.keeps.kind_eq y' (hwf'.lt_size hreach')), he']
      · obtain ⟨hc, hc'⟩ := List.of_mem_zip hpair
        rw [← children_of_expr? he] at hc
        rw [← children_of_expr? he'] at hc'
        exact .old (hwf.mem_exprs_of_child hx hc) (hwf'.mem_exprs_of_child hx' hc')
          (hzip pair hpair)

/-- Contents that match lead to the same terms, change or stay together, and make the same number of
changes on the way. -/
theorem matches_follow (hagree : Agree t g t' g' staged staged')
    (hy : g.Settles (fun id => staged.lookup id) y) (hmatches : Matches t g t' g' y y')
    (hafter : g.ReachesAfter (fun id => staged.lookup id) g.root
      (g.follow (fun id => staged.lookup id) y))
    (hafter' : g'.ReachesAfter (fun id => staged'.lookup id) g'.root
      (g'.follow (fun id => staged'.lookup id) y')) :
    (g'.apply staged').2.term (g'.follow (fun id => staged'.lookup id) y') =
        (g.apply staged).2.term (g.follow (fun id => staged.lookup id) y) ∧
      g'.work (fun id => staged'.lookup id) (g'.follow (fun id => staged'.lookup id) y') =
        g.work (fun id => staged.lookup id) (g.follow (fun id => staged.lookup id) y) ∧
      (g'.follow (fun id => staged'.lookup id) y' = y' ↔
        g.follow (fun id => staged.lookup id) y = y) := by
  -- The induction is over the ways that replacements and operands lead on the first side.
  induction hy generalizing y' with
  | @intro y lt below ih =>
    rcases hmatches.replaced_or_stays h hwf h' hwf' hagree with
      ⟨z, z', hlookup, hlookup', hmatches⟩ |
        ⟨hfixed, hfixed', e, e', he, he', hhead, hlength, hbelow⟩
    · -- Where the replacements lead, these lead. That they do not stay is all that is new.
      rw [h.follow_eq_self_iff hwf (h.reaches_of_key hwf hlookup),
        h'.follow_eq_self_iff hwf' (h'.reaches_of_key hwf' hlookup'), hlookup, hlookup']
      rw [h.follow_of_lookup hwf hlookup] at hafter ⊢
      rw [h'.follow_of_lookup hwf' hlookup'] at hafter' ⊢
      obtain ⟨hterm, hwork, -⟩ :=
        ih z (mem_onward_of_replacement hlookup) hmatches hafter hafter'
      exact ⟨hterm, hwork, iff_of_false (by simp) (by simp)⟩
    · rw [hfixed] at hafter ⊢
      rw [hfixed'] at hafter' ⊢
      obtain ⟨hterm, hwork⟩ := same_of_operands h hwf h' hwf' he he' hafter hafter' hhead hlength
        fun pair hpair => by
          obtain ⟨hc, hc'⟩ := List.of_mem_zip hpair
          have honward : pair.1 ∈ g.onward (fun id => staged.lookup id) y :=
            mem_onward_of_child (children_of_expr? he ▸ hc)
          obtain ⟨hterm, hwork, hself⟩ := ih pair.1 honward (hbelow pair hpair)
            (reachesAfter_child hafter he hc) (reachesAfter_child hafter' he' hc')
          exact ⟨hterm, slotWork_congr hwork hself⟩
      exact ⟨hterm, hwork, iff_of_true rfl rfl⟩

end Apply

end StackTemplate.Order
