import StackTemplate.Fold.Evaluation
import StackTemplate.Proofs.Fold.Contraction

/-!
# Passes over trees

A pass over a well-formed tree gives a well-formed tree, leaves the module and the declarations in
their places, and folds the term in every expression slot: `Folded` says this of two trees, and
`pass_folded` that a pass does it.
-/

namespace StackTemplate

theorem Expr.head_mapSlots (f : NodeId → NodeId) (e : Expr) : (e.mapSlots f).head = e.head := by
  cases e <;> simp [mapSlots, head]

namespace Fold

open StackTemplate.Tree

variable {t g : Tree} {directory : Directory} {cyclic : List String} {staged : Replacements}
  {owner : NodeId → NodeId} {x y z : NodeId}

section Apply

variable (h : Staged t staged g owner) (hwf : t.WellFormed)

include h hwf

/-! ### Terms after a substitution -/

theorem grounded_apply (hz : g.ReachesAfter (fun id => staged.lookup id) g.root z) :
    (g.apply staged).2.Grounded z :=
  (h.wellFormed_apply hwf).grounded_of_reaches ((h.reaches_apply hwf).mpr hz)

omit h hwf in
theorem reachesAfter_child {e : Expr} {c : NodeId}
    (hz : g.ReachesAfter (fun id => staged.lookup id) g.root z) (he : g.expr? z = some e)
    (hc : c ∈ e.children) :
    g.ReachesAfter (fun id => staged.lookup id) g.root
      (g.follow (fun id => staged.lookup id) c) := by
  rw [← children_of_expr? he] at hc
  exact hz.tail (mem_slotsAfter.mpr ⟨c, hc, rfl⟩)

/-- The term of a node within reach afterwards. -/
theorem term_apply {e : Expr}
    (hz : g.ReachesAfter (fun id => staged.lookup id) g.root z) (he : g.expr? z = some e) :
    (g.apply staged).2.term z = .node e.head (e.children.map fun c =>
      (g.apply staged).2.term (g.follow (fun id => staged.lookup id) c)) := by
  rw [term_eq (grounded_apply h hwf hz) (h.expr?_apply hwf hz he), Expr.head_mapSlots,
    Expr.children_mapSlots, List.map_map]
  rfl

/-- Substitution leaves copies as they were made. -/
theorem mirrors_apply (hmirrors : Mirrors t g x y)
    (hy : g.ReachesAfter (fun id => staged.lookup id) g.root y) :
    Mirrors t (g.apply staged).2 x y := by
  induction hmirrors with
  | @intro x y kind ys hnew hx hlength hkind hspan below ih =>
    have hfixed : ys.map (g.follow fun id => staged.lookup id) = ys := by
      conv_rhs => rw [← List.map_id ys]
      refine List.map_congr_left fun c hc => ?_
      obtain ⟨b, hb⟩ := exists_mem_zip hlength hc
      exact h.follow_new hwf (below _ hb).size_le
    have hchildren : (kind.refill ys).children = ys := NodeKind.children_refill hlength
    refine .intro hnew hx hlength ?_ ?_ fun pair hpair => ih pair hpair ?_
    · have hsame := NodeKind.refill_children (kind.refill ys)
      rw [hchildren] at hsame
      rw [h.kind_apply hwf hy, hkind, Option.map_some, ← NodeKind.refill_map, hchildren, hfixed,
        hsame]
    · rw [(h.separates hwf).apply.1.span_eq, hspan]
    · have hc : pair.2 ∈ g.children y := by
        rw [children_of_kind? hkind, hchildren]
        exact (List.of_mem_zip hpair).2
      refine hy.tail (mem_slotsAfter.mpr ⟨pair.2, hc, ?_⟩)
      exact h.follow_new hwf (below pair hpair).size_le

/-- What was made to replace an expression is, after the substitution, the term that folding
gives. -/
theorem term_realised {r : Reduct} {new : NodeId → Term} (hfits : r.Fits t x)
    (hr : r.Realised t g y)
    (hy : g.ReachesAfter (fun id => staged.lookup id) g.root
      (g.follow (fun id => staged.lookup id) y))
    (hnew : ∀ c ∈ t.children x, g.ReachesAfter (fun id => staged.lookup id) g.root
        (g.follow (fun id => staged.lookup id) c) →
      (g.apply staged).2.term (g.follow (fun id => staged.lookup id) c) = new c) :
    (g.apply staged).2.term (g.follow (fun id => staged.lookup id) y) = r.term t new := by
  cases r with
  -- What is new stays where it is; only operands are replaced in their turn.
  | existing id =>
    obtain rfl : y = id := hr
    exact hnew y hfits hy
  | copied id =>
    rw [h.follow_new hwf (Mirrors.size_le hr)] at hy ⊢
    exact term_of_mirrors (mirrors_apply h hwf hr hy) (hwf.grounded_of_reaches hfits.1)
      (fun z hz => hwf.expr_of_reaches hfits.1 hfits.2 hz) (grounded_apply h hwf hy)
  | constant l =>
    rw [h.follow_new hwf hr.1] at hy ⊢
    exact term_apply h hwf hy hr.2
  | strings parts =>
    obtain ⟨hle, ids, he, hlength, hparts⟩ := hr
    rw [h.follow_new hwf hle] at hy ⊢
    rw [term_apply h hwf hy he]
    refine congrArg (Term.node .list) (map_eq_map_of_zip hlength fun pair hpair => ?_)
    obtain ⟨hle', he'⟩ := hparts pair hpair
    have hafter := reachesAfter_child hy he (List.of_mem_zip hpair).2
    rw [h.follow_new hwf hle'] at hafter ⊢
    exact term_apply h hwf hafter he'
  | joined delimiter parts =>
    obtain ⟨hle, ids, he, hlength, hparts⟩ := hr
    rw [h.follow_new hwf hle] at hy ⊢
    rw [term_apply h hwf hy he]
    refine congrArg (Term.node (.join delimiter)) (map_eq_map_of_zip hlength fun pair hpair => ?_)
    have hpart := hparts pair hpair
    have hafter := reachesAfter_child hy he (List.of_mem_zip hpair).2
    obtain ⟨part, id⟩ := pair
    cases part with
    | kept id' =>
      obtain rfl : id = id' := hpart
      refine hnew id (hfits.mem ?_) hafter
      exact List.mem_filterMap.mpr ⟨.kept id, (List.of_mem_zip hpair).1, rfl⟩
    | merged text span =>
      simp only at hafter ⊢
      rw [h.follow_new hwf hpart.1] at hafter ⊢
      exact term_apply h hwf hafter hpart.2
  | interpolated format parameters =>
    obtain ⟨hle, he⟩ := hr
    rw [h.follow_new hwf hle] at hy ⊢
    rw [term_apply h hwf hy he]
    refine congrArg (Term.node _) (List.map_congr_left fun c hc => ?_)
    exact hnew c (hfits.mem hc) (reachesAfter_child hy he hc)

/-- Wherever an expression leads after a pass, there is its folded term. -/
theorem term_follow (hbound : Bound t directory)
    (hanswers : ∀ x ∈ t.exprs, Answers t directory cyclic g x (staged.lookup x))
    (hx : t.Reaches t.root x) (he : (t.expr? x).isSome)
    (hafter : g.ReachesAfter (fun id => staged.lookup id) g.root
      (g.follow (fun id => staged.lookup id) x)) :
    (g.apply staged).2.term (g.follow (fun id => staged.lookup id) x) =
      (t.term x).pass (t.scope directory) cyclic := by
  have hgrounded := hwf.grounded_of_reaches hx
  induction hgrounded with
  | @intro x lt below ih =>
    obtain ⟨e, hexpr⟩ := Option.isSome_iff_exists.mp he
    have hchildren := children_of_expr? hexpr
    have hchild : ∀ c ∈ t.children x, g.ReachesAfter (fun id => staged.lookup id) g.root
        (g.follow (fun id => staged.lookup id) c) →
        (g.apply staged).2.term (g.follow (fun id => staged.lookup id) c) =
          (t.term c).pass (t.scope directory) cyclic :=
      fun c hc => ih c hc (hx.tail hc) (hwf.expr_of_child hx he hc)
    have hanswer := hanswers x (hwf.mem_exprs.mpr ⟨hx, he⟩)
    have hcontract := contract?_term hwf hbound cyclic
      (fun c => (t.term c).pass (t.scope directory) cyclic) e
    rw [term_eq (.intro lt below) hexpr, Term.pass_node, List.map_map, List.map_map]
    simp only [Function.comp_def]
    rw [hcontract]
    -- Nothing was staged for `x` if folding gives nothing; else `x` leads to what was made for it.
    cases hr : staged.lookup x with
    | none =>
      rw [hr, Answers, hexpr, Option.bind_some] at hanswer
      have hself := follow_of_none (h.settles hwf hx) hr
      have hexpr' : g.expr? x = some e := by
        rw [expr?_congr (h.keeps.kind_eq x lt), hexpr]
      rw [hself] at hafter ⊢
      rw [hanswer, term_apply h hwf hafter hexpr']
      refine congrArg (Term.node _) (List.map_congr_left fun c hc => ?_)
      exact hchild c (hchildren ▸ hc) (reachesAfter_child hafter hexpr' hc)
    | some y =>
      rw [hr] at hanswer
      obtain ⟨r, hr', hrealised⟩ := hanswer
      rw [hexpr, Option.bind_some] at hr'
      rw [h.follow_of_lookup hwf hr] at hafter ⊢
      rw [hr']
      exact term_realised h hwf (reduct?_fits hwf hbound hexpr hr') hrealised hafter hchild

end Apply

/-! ### A pass -/

/-- The second tree is the first after a pass: every expression slot of the module and the
declarations holds the folded term. -/
structure Folded (t t' : Tree) (directory : Directory) (cyclic : List String)
    (f : NodeId → NodeId) : Prop extends Rewired t t' f where
  term_eq : ∀ x c, t.Reaches t.root x → t.expr? x = none → c ∈ t.exprSlots x →
    t'.term (f c) = (t.term c).pass (t.scope directory) cyclic

/-- A pass folds what names mean. -/
theorem Folded.scope_eq {t' : Tree} {f : NodeId → NodeId} (h : Folded t t' directory cyclic f)
    (hbound : Bound t directory) :
    t'.scope directory =
      (t.scope directory).map (Term.pass (t.scope directory) cyclic) := by
  have hfield : ∀ field, IsField field → ∀ name,
      (declared? t' directory field name).map t'.term =
        ((declared? t directory field name).map t.term).map
          (Term.pass (t.scope directory) cyclic) := by
    intro field hfield name
    rw [declared?_rewired hbound hfield h.toRewired]
    cases hid : declared? t directory field name with
    | none => rfl
    | some id =>
      obtain ⟨d, hd, hmem⟩ := Option.bind_eq_some_iff.mp hid
      obtain ⟨x, hx, hdecl⟩ := Option.bind_eq_some_iff.mp hd
      have hexpr : t.expr? x = none := expr?_of_decl? hdecl
      have hslot : id ∈ t.exprSlots x := by
        rw [exprSlots, decl?_eq_some.mp hdecl]
        exact hfield.mem d id hmem
      simp only [Option.map_some, h.term_eq x id (hbound name x hx).1 hexpr hslot]
  have halias := funext (hfield _ isField_aliasSource?)
  have hcondition := funext (hfield _ isField_conditionValue?)
  have hmapping := funext (hfield _ isField_mappingValue?)
  rw [Tree.scope, Tree.scope, Scope.map, halias, hcondition, hmapping]
  rfl

/-- Where an expression leads in a pass: the node that stands in its place afterwards. -/
def Folding.follow (directory : Directory) (s : Folding) : NodeId → NodeId :=
  (stageAll s.tree directory (cyclicAliases s.tree directory)).2.follow fun id =>
    (stageAll s.tree directory (cyclicAliases s.tree directory)).1.lookup id

/-- A pass folds the tree. -/
theorem folded_follow {s : Folding} (hwf : s.tree.WellFormed) (hbound : Bound s.tree directory) :
    Folded s.tree (s.pass directory).2.tree directory (cyclicAliases s.tree directory)
      (s.follow directory) := by
  obtain ⟨owner, hstaged, hanswers⟩ :=
    stageAll_spec hwf hbound (cyclicAliases s.tree directory)
  refine ⟨hstaged.rewired hwf, fun x c hx he hc => ?_⟩
  have hreach := hx.tail (mem_children.mpr (.inl hc))
  refine term_follow hstaged hwf hbound hanswers hreach (hwf.expr_slot x c hx hc) ?_
  have hchild : c ∈ (stageAll s.tree directory (cyclicAliases s.tree directory)).2.children x := by
    rw [hstaged.children_old hwf hx]
    exact mem_children.mpr (.inl hc)
  exact (hstaged.reaches_host hwf hx he).tail (mem_slotsAfter.mpr ⟨c, hchild, rfl⟩)

/-- A pass folds the tree; and it changes nothing if nothing can be folded. -/
theorem pass_folded {s : Folding} (hwf : s.tree.WellFormed) (hbound : Bound s.tree directory) :
    ∃ f, Folded s.tree (s.pass directory).2.tree directory (cyclicAliases s.tree directory) f ∧
      ((∀ x ∈ s.tree.exprs, (s.tree.expr? x).bind
        (reduct? s.tree directory (cyclicAliases s.tree directory)) = none) →
        (s.pass directory).1 = 0) := by
  refine ⟨_, folded_follow hwf hbound, fun hnone => ?_⟩
  show ((stageAll s.tree directory (cyclicAliases s.tree directory)).2.apply
    (stageAll s.tree directory (cyclicAliases s.tree directory)).1).1 = 0
  rw [stageAll_of_none hnone]
  rfl

/-! ### Several passes -/

/-- The state after `n` passes. -/
def Folding.after (directory : Directory) (n : Nat) (s : Folding) : Folding :=
  (fun s => (s.pass directory).2)^[n] s

theorem Folding.after_succ (directory : Directory) (n : Nat) (s : Folding) :
    s.after directory (n + 1) = ((s.after directory n).pass directory).2 :=
  Function.iterate_succ_apply' _ n s

/-- Where an expression leads in `n` passes. -/
def Folding.leads (directory : Directory) (s : Folding) : Nat → NodeId → NodeId
  | 0, x => x
  | n + 1, x => (s.after directory n).follow directory (s.leads directory n x)

/-- Passes leave the module and the declarations in their places, and their slots lead on. -/
theorem after_leads {s : Folding} (hwf : s.tree.WellFormed) (hbound : Bound s.tree directory)
    (n : Nat) : Rewired s.tree (s.after directory n).tree (s.leads directory n) := by
  induction n with
  | zero => exact .refl hwf
  | succ n ih =>
    rw [Folding.after_succ]
    exact ih.trans (folded_follow ih.wellFormed (bound_rewired hbound ih)).toRewired

/-- A run is some number of passes. -/
theorem Folding.exists_run_eq (directory : Directory) (fuel : Nat) (s : Folding) :
    ∃ n ≤ fuel, (s.run directory fuel).2 = s.after directory n := by
  induction fuel generalizing s with
  | zero => exact ⟨0, le_rfl, rfl⟩
  | succ fuel ih =>
    rw [run]
    split
    next count s' heq =>
    split
    · exact ⟨1, by omega, by rw [after, Function.iterate_one, heq]⟩
    · obtain ⟨n, hn, hrun⟩ := ih s'
      refine ⟨n + 1, by omega, ?_⟩
      rw [hrun, after, after, Function.iterate_succ_apply, heq]

/-- Folding ends where the fuel has run out, or turns parameters back after its last pass. -/
theorem evaluate_cases {fuel : Nat} {e : Evaluation} (h : evaluate t directory fuel = .ok e) :
    ∃ s, (({ tree := t } : Folding).run directory fuel = (false, s) ∧
        e = { tree := s.tree, diagnostics := s.diagnostics, outcome := .exhausted s.passes }) ∨
      ∃ reinlined tree, ({ tree := t } : Folding).run directory fuel = (true, s) ∧
        reinline s.tree = .ok (reinlined, tree) ∧
        e =
          { tree
            diagnostics := s.diagnostics
            outcome := .finished
              { passes := s.passes, substitutions := s.substitutions, reinlined } } := by
  unfold evaluate at h
  split at h
  · next s hrun => exact ⟨s, .inl ⟨hrun, (Except.ok.inj h).symm⟩⟩
  · next s hrun =>
    cases hreinline : reinline s.tree with
    | error fault =>
      rw [hreinline] at h
      cases h
    | ok result =>
      rw [hreinline] at h
      exact ⟨s, .inr ⟨result.1, result.2, hrun, hreinline, (Except.ok.inj h).symm⟩⟩

end Fold

end StackTemplate
