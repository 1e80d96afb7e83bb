import StackTemplate.Proofs.Fold.Contraction
import StackTemplate.Proofs.Graph.Components

/-!
# Circular aliases

The graph of aliases has an edge from an alias to every alias in its expression. On terms these are
the edges of the scope (`Scope.Edge`), so a name is circular just when these edges lead from it back
to it (`mem_cyclicAliases`).
-/

namespace StackTemplate

/-- The second name has a source and occurs in the source of the first. -/
def Scope.Edge (scope : Scope) (n m : String) : Prop :=
  ∃ e, scope.source? n = some e ∧ m ∈ e.refs ∧ (scope.source? m).isSome

/-- The name leads back to itself. -/
def Scope.Circular (scope : Scope) (n : String) : Prop := Relation.TransGen scope.Edge n n

namespace Term

theorem refs_ref (name : String) (es : List Term) : (node (.ref name) es).refs = [name] := by
  rw [refs, fold_node]

theorem mem_refs_node {h : Head} {es : List Term} {n : String} (hhead : ∀ name, h ≠ .ref name) :
    n ∈ (node h es).refs ↔ ∃ e ∈ es, n ∈ e.refs := by
  rw [refs, fold_node]
  cases h with
  | ref name => exact absurd rfl (hhead name)
  | _ => simp

end Term

namespace Fold

open StackTemplate.Tree

variable {t : Tree} {directory : Directory} {x : NodeId} {n m : String}

/-- A term refers to what is referred to below its node. -/
theorem mem_refs_term (hx : t.Grounded x) (hexpr : ∀ z, t.Reaches x z → (t.expr? z).isSome) :
    n ∈ (t.term x).refs ↔ ∃ z, t.Reaches x z ∧ t.expr? z = some (.ref n) := by
  induction hx with
  | @intro x lt below ih =>
    obtain ⟨e, he⟩ := Option.isSome_iff_exists.mp (hexpr x .refl)
    have hchildren := children_of_expr? he
    rw [term_eq (.intro lt below) he]
    -- A reference refers to its own name only, and all else to what its operands refer to.
    by_cases href : ∃ name, e = .ref name
    · obtain ⟨name, rfl⟩ := href
      rw [Expr.head, Term.refs_ref, List.mem_singleton]
      constructor
      · rintro rfl
        exact ⟨x, .refl, he⟩
      · rintro ⟨z, hz, href⟩
        rcases Relation.ReflTransGen.cases_head hz with rfl | ⟨c, hc, -⟩
        · rw [he] at href
          cases href
          rfl
        · rw [hchildren] at hc
          cases hc
    · have hhead : ∀ name, e.head ≠ .ref name := by
        intro name heq
        cases e <;> cases heq
        exact href ⟨name, rfl⟩
      rw [Term.mem_refs_node hhead]
      simp only [List.mem_map, exists_exists_and_eq_and]
      constructor
      · rintro ⟨c, hc, hn⟩
        rw [← hchildren] at hc
        obtain ⟨z, hz, href⟩ := (ih c hc fun z hz => hexpr z (.head hc hz)).mp hn
        exact ⟨z, .head hc hz, href⟩
      · rintro ⟨z, hz, href'⟩
        rcases Relation.ReflTransGen.cases_head hz with rfl | ⟨c, hc, hcz⟩
        · rw [he] at href'
          exact absurd ⟨n, Option.some.inj href'⟩ href
        · exact ⟨c, hchildren ▸ hc, (ih c hc fun z hz => hexpr z (.head hc hz)).mpr ⟨z, hcz, href'⟩⟩

theorem mem_aliasTargets (hx : t.Grounded x)
    (hexpr : ∀ z, t.Reaches x z → (t.expr? z).isSome) :
    m ∈ aliasTargets t directory x ↔
      m ∈ (t.term x).refs ∧ ((t.scope directory).source? m).isSome := by
  have hsource : ((t.scope directory).source? m).isSome =
      (substitutionSource? t directory m).isSome := by
    rw [source?_scope, Option.isSome_map]
  rw [aliasTargets, List.mem_filterMap, mem_refs_term hx hexpr, hsource]
  constructor
  · rintro ⟨z, hz, hm⟩
    rw [mem_descendants hx] at hz
    split at hm
    · next target he =>
      split at hm
      · next hsome =>
        obtain rfl := Option.some.inj hm
        exact ⟨⟨z, hz, he⟩, hsome⟩
      · cases hm
    · cases hm
  · rintro ⟨⟨z, hz, he⟩, hsome⟩
    refine ⟨z, (mem_descendants hx).mpr hz, ?_⟩
    rw [he]
    simp [hsome]

/-! ### The graph -/

/-- The calls that add an item, if it is an alias. -/
def aliasCalls (t : Tree) (directory : Directory) (item : String × NodeId) :
    List NameGraph.Call :=
  match (t.decl? item.2).bind Decl.aliasSource? with
  | none => []
  | some source => NameGraph.Call.item item.1 (aliasTargets t directory source)

theorem aliasGraph_eq (t : Tree) (directory : Directory) :
    aliasGraph t directory =
      NameGraph.ofCalls (directory.entries.flatMap (aliasCalls t directory)) := by
  have hstep : addAlias t directory = fun g item =>
      (aliasCalls t directory item).foldl NameGraph.Call.apply g := by
    funext g item
    unfold addAlias aliasCalls
    cases (t.decl? item.2).bind Decl.aliasSource? with
    | none => rfl
    | some source => exact (NameGraph.foldl_item g item.1 (aliasTargets t directory source)).symm
  rw [aliasGraph, hstep, NameGraph.ofCalls, List.foldl_flatMap]

theorem edge_mem_aliasCalls {item : String × NodeId} {n m : String} :
    .edge n m ∈ aliasCalls t directory item ↔
      n = item.1 ∧ ∃ source, (t.decl? item.2).bind Decl.aliasSource? = some source ∧
        m ∈ aliasTargets t directory source := by
  unfold aliasCalls
  cases (t.decl? item.2).bind Decl.aliasSource? with
  | none => simp
  | some source => simp [NameGraph.edge_mem_item]

/-- The edges of the graph are those of the scope. -/
theorem aliasGraph_spec (hwf : t.WellFormed) (hbound : Bound t directory) :
    (aliasGraph t directory).Proper ∧
      ∀ n m, (aliasGraph t directory).Links n m ↔ (t.scope directory).Edge n m := by
  rw [aliasGraph_eq, NameGraph.links_ofCalls]
  refine ⟨NameGraph.proper_ofCalls _, fun n m => ?_⟩
  have hdeclared : ∀ source, declared? t directory Decl.aliasSource? n = some source →
      (m ∈ aliasTargets t directory source ↔
        m ∈ (t.term source).refs ∧ ((t.scope directory).source? m).isSome) := by
    intro source hsource
    obtain ⟨hreach, hexpr⟩ := expr_of_declared? hwf hbound isField_aliasSource? hsource
    exact mem_aliasTargets (hwf.grounded_of_reaches hreach)
      fun z hz => hwf.expr_of_reaches hreach hexpr hz
  have hsource : ∀ source, declared? t directory Decl.aliasSource? n = some source ↔
      ∃ id, (n, id) ∈ directory.entries ∧ (t.decl? id).bind Decl.aliasSource? = some source := by
    intro source
    rw [declared?, Option.bind_assoc, Option.bind_eq_some_iff]
    exact exists_congr fun id => and_congr_left fun _ => Table.get?_eq_some
  constructor
  · intro hcall
    obtain ⟨⟨name, id⟩, hid, hcall⟩ := List.mem_flatMap.mp hcall
    obtain ⟨rfl, source, hdecl, hm⟩ := edge_mem_aliasCalls.mp hcall
    have hfound := (hsource source).mpr ⟨id, hid, hdecl⟩
    obtain ⟨hrefs, hsome⟩ := (hdeclared source hfound).mp hm
    refine ⟨t.term source, ?_, hrefs, hsome⟩
    -- An item that stands for itself refers to no name with a source.
    show ((declared? t directory Decl.aliasSource? n).map t.term).filter _ = _
    rw [hfound, Option.map_some, Option.filter_some]
    split
    · rfl
    · next hself =>
      rw [Bool.not_eq_true, Bool.not_eq_false'] at hself
      have hnone : (t.scope directory).source? n = none := by
        show ((declared? t directory Decl.aliasSource? n).map t.term).filter _ = _
        rw [hfound, Option.map_some, Option.filter_some, hself]
        rfl
      obtain ⟨es, heq⟩ := Term.eq_of_isRefTo hself
      rw [heq, Term.refs_ref, List.mem_singleton] at hrefs
      rw [hrefs, hnone] at hsome
      cases hsome
  · rintro ⟨e, he, hrefs, hsome⟩
    obtain ⟨source, hfound, rfl⟩ := Option.map_eq_some_iff.mp (Option.filter_eq_some_iff.mp he).1
    obtain ⟨id, hid, hdecl⟩ := (hsource source).mp hfound
    refine List.mem_flatMap.mpr ⟨(n, id), hid, edge_mem_aliasCalls.mpr ⟨rfl, source, hdecl, ?_⟩⟩
    exact (hdeclared source hfound).mpr ⟨hrefs, hsome⟩

/-- The circular aliases are those that lead back to themselves. -/
theorem mem_cyclicAliases (hwf : t.WellFormed) (hbound : Bound t directory) :
    n ∈ cyclicAliases t directory ↔ (t.scope directory).Circular n := by
  obtain ⟨hproper, hlinks⟩ := aliasGraph_spec hwf hbound
  have hedge : (aliasGraph t directory).Links = (t.scope directory).Edge :=
    funext fun n => funext fun m => propext (hlinks n m)
  rw [cyclicAliases, NameGraph.mem_cyclicNames hproper, hedge]
  rfl

end Fold

end StackTemplate
