import StackTemplate.Proofs.Fold.Passing

/-!
# Where the expressions after a pass come from

After a pass an expression within reach is an old one that nothing replaced, a node of a copy, or
one that was made for a replacement; and what is made is a literal, a list, a join or an
interpolated string, never a choice between two branches (`Emerges`, `pass_emerges`). So a choice
after some passes can be traced back to one of the module, whose place in the source it has.

In the other direction `Folding.leads` follows an expression through the passes to the node that
stands in its place.
-/

namespace StackTemplate.Fold

open StackTemplate.Tree

variable {t g : Tree} {directory : Directory} {cyclic : List String} {staged : Replacements}
  {owner : NodeId → NodeId} {x y z c : NodeId}

/-- Whether the node is a choice between two branches. -/
def IsChoice (t : Tree) (x : NodeId) : Prop :=
  ∃ condition ifTrue ifFalse, t.expr? x = some (.ifElse condition ifTrue ifFalse)

theorem isChoice_of_mapSlots {t' : Tree} {f : NodeId → NodeId}
    (h : t'.expr? z = (t.expr? x).map (Expr.mapSlots f)) (hz : IsChoice t' z) : IsChoice t x := by
  obtain ⟨condition, ifTrue, ifFalse, he⟩ := hz
  obtain ⟨e, he', hslots⟩ := Option.map_eq_some_iff.mp (h.symm.trans he)
  cases e <;> cases hslots
  exact ⟨_, _, _, he'⟩

/-! ### Before the substitution -/

/-- Where a node comes from that is within reach after a substitution. -/
inductive Origin (t : Tree) (staged : Replacements) (g : Tree) : NodeId → Prop where
  | stayed {z : NodeId} (reach : t.Reaches t.root z) (stays : staged.lookup z = none) :
    Origin t staged g z
  | copied {y z : NodeId} (reach : t.Reaches t.root y) (expr : (t.expr? y).isSome)
    (mirrors : Mirrors t g y z) : Origin t staged g z
  | made {z : NodeId} (new : t.size ≤ z) (plain : ¬ IsChoice g z)
    (below : ∀ c ∈ g.children z, t.Reaches t.root c ∨
      t.size ≤ c ∧ ∃ l, g.expr? c = some (.literal l)) : Origin t staged g z

/-- A made expression that is no choice. -/
theorem Origin.ofExpr {e : Expr} (hnew : t.size ≤ z) (he : g.expr? z = some e)
    (hplain : ∀ condition ifTrue ifFalse, e ≠ .ifElse condition ifTrue ifFalse)
    (hbelow : ∀ c ∈ e.children, t.Reaches t.root c ∨
      t.size ≤ c ∧ ∃ l, g.expr? c = some (.literal l)) : Origin t staged g z := by
  refine .made hnew ?_ fun c hc => hbelow c (children_of_expr? he ▸ hc)
  rintro ⟨condition, ifTrue, ifFalse, he'⟩
  exact hplain condition ifTrue ifFalse (Option.some.inj (he.symm.trans he'))

theorem Origin.ofLiteral {l : Literal} (hnew : t.size ≤ z) (he : g.expr? z = some (.literal l)) :
    Origin t staged g z :=
  .ofExpr hnew he (fun _ _ _ h => nomatch h) fun _ hc => absurd hc List.not_mem_nil

/-- What was made to replace an expression, unless it is an operand. -/
theorem origin_realised {r : Reduct} (hx : t.Reaches t.root x) (hfits : r.Fits t x)
    (hr : r.Realised t g y) (hnew : t.size ≤ y) (hwf : t.WellFormed) : Origin t staged g y := by
  cases r with
  | existing id =>
    obtain rfl : y = id := hr
    exact absurd (hwf.lt_size (hx.tail hfits)) (Nat.not_lt.mpr hnew)
  | copied id => exact .copied hfits.1 hfits.2 hr
  | constant l => exact .ofLiteral hnew hr.2
  | strings parts =>
    obtain ⟨-, ids, he, hlength, hparts⟩ := hr
    refine .ofExpr hnew he (fun _ _ _ h => nomatch h) fun c hc => .inr ?_
    obtain ⟨part, hpart⟩ := exists_mem_zip hlength hc
    exact ⟨(hparts _ hpart).1, _, (hparts _ hpart).2⟩
  | joined delimiter parts =>
    obtain ⟨-, ids, he, hlength, hparts⟩ := hr
    refine .ofExpr hnew he (fun _ _ _ h => nomatch h) fun c hc => ?_
    obtain ⟨part, hpart⟩ := exists_mem_zip hlength hc
    have hrealised := hparts _ hpart
    cases part with
    | kept id =>
      obtain rfl : c = id := hrealised
      refine .inl (hx.tail (hfits.mem ?_))
      exact List.mem_filterMap.mpr ⟨.kept c, (List.of_mem_zip hpart).1, rfl⟩
    | merged text span => exact .inr ⟨hrealised.1, _, hrealised.2⟩
  | interpolated format parameters =>
    exact .ofExpr hnew hr.2 (fun _ _ _ h => nomatch h) fun c hc => .inl (hx.tail (hfits.mem hc))

section Pass

variable (h : Staged t staged g owner) (hwf : t.WellFormed) (hbound : Bound t directory)
  (hanswers : ∀ x ∈ t.exprs, Answers t directory cyclic g x (staged.lookup x))

include h hwf hbound hanswers

theorem origin_follow (hc : t.Reaches t.root c) :
    Origin t staged g (g.follow (fun id => staged.lookup id) c) := by
  obtain ⟨w, -, hw, ⟨hnone, hfollow⟩ | ⟨y, hlookup, hnew, -, -, hfollow⟩⟩ := h.follow_old hwf hc
  · rw [hfollow]
    exact .stayed hw hnone
  · have hanswer := hanswers w (h.key w y hlookup).1
    rw [hlookup] at hanswer
    obtain ⟨r, hr, hrealised⟩ := hanswer
    obtain ⟨e, he, hr⟩ := Option.bind_eq_some_iff.mp hr
    rw [hfollow]
    exact origin_realised hw (reduct?_fits hwf hbound he hr) hrealised hnew hwf

/-- Every node within reach afterwards has an origin. -/
theorem origin_of_reaches (hz : g.ReachesAfter (fun id => staged.lookup id) g.root z) :
    Origin t staged g z := by
  induction hz with
  | refl =>
    rw [h.keeps.root_eq]
    exact .stayed .refl (h.lookup_of_not_expr hwf hwf.expr?_root)
  | @tail p z _ hstep ih =>
    obtain ⟨c, hc, rfl⟩ := mem_slotsAfter.mp hstep
    cases ih with
    | stayed reach stays =>
      rw [h.children_old hwf reach] at hc
      exact origin_follow h hwf hbound hanswers (reach.tail hc)
    | @copied y _ reach expr mirrors =>
      cases mirrors with
      | @intro _ _ kind ys hnew hkind hlength hkind' hspan below =>
        rw [children_of_kind? hkind', NodeKind.children_refill hlength] at hc
        obtain ⟨b, hb⟩ := exists_mem_zip hlength hc
        have hchild : b ∈ t.children y := by
          rw [children_of_kind? hkind]
          exact (List.of_mem_zip hb).1
        rw [h.follow_new hwf (below _ hb).size_le]
        exact .copied (reach.tail hchild) (hwf.expr_of_child reach expr hchild) (below _ hb)
    | made new plain below =>
      obtain hold | ⟨hnew, l, hl⟩ := below c hc
      · exact origin_follow h hwf hbound hanswers hold
      · rw [h.follow_new hwf hnew]
        exact .ofLiteral hnew hl

omit hbound hanswers in
/-- Afterwards an expression has its operands where they lead. -/
theorem expr?_apply_eq (hz : g.ReachesAfter (fun id => staged.lookup id) g.root z) :
    (g.apply staged).2.expr? z =
      (g.expr? z).map (Expr.mapSlots (g.follow fun id => staged.lookup id)) := by
  rw [expr?, h.kind_apply hwf hz, expr?]
  cases g.kind? z with
  | none => rfl
  | some kind => exact NodeKind.expr?_mapSlots _ kind

end Pass

/-! ### After a pass -/

/-- Where an expression comes from that is within reach after a pass: it stayed, with its operands
folded, or it is part of a copy, or it was made. -/
inductive Emerges (t t' : Tree) (directory : Directory) (cyclic : List String)
    (f : NodeId → NodeId) : NodeId → Prop where
  | stayed {z : NodeId} (mem : z ∈ t.exprs)
    (stuck : (t.expr? z).bind (reduct? t directory cyclic) = none) (lead : f z = z)
    (expr : t'.expr? z = (t.expr? z).map (Expr.mapSlots f))
    (term : t'.term z = (t.term z).pass (t.scope directory) cyclic)
    (span : t'.span z = t.span z) : Emerges t t' directory cyclic f z
  | copied {y z : NodeId} (new : t.size ≤ z) (mem : y ∈ t.exprs) (term : t'.term z = t.term y)
    (span : t'.span z = t.span y) : Emerges t t' directory cyclic f z
  | made {z : NodeId} (new : t.size ≤ z) (plain : ¬ IsChoice t' z) :
    Emerges t t' directory cyclic f z

theorem emerges_apply (h : Staged t staged g owner) (hwf : t.WellFormed)
    (hbound : Bound t directory)
    (hanswers : ∀ x ∈ t.exprs, Answers t directory cyclic g x (staged.lookup x))
    (hz : z ∈ (g.apply staged).2.exprs) :
    Emerges t (g.apply staged).2 directory cyclic (g.follow fun id => staged.lookup id) z := by
  obtain ⟨hreach, hexpr⟩ := (h.wellFormed_apply hwf).mem_exprs.mp hz
  have hafter := (h.reaches_apply hwf).mp hreach
  have heq := expr?_apply_eq h hwf hafter
  cases origin_of_reaches h hwf hbound hanswers hafter with
  | stayed reach stays =>
    rw [expr?_congr (h.keeps.kind_eq z (hwf.lt_size reach))] at heq
    have hsome : (t.expr? z).isSome := by rwa [heq, Option.isSome_map] at hexpr
    have hmem := hwf.mem_exprs.mpr ⟨reach, hsome⟩
    have hanswer := hanswers z hmem
    rw [stays] at hanswer
    have hlead := follow_of_none (h.settles hwf reach) stays
    have hterm := term_follow h hwf hbound hanswers reach hsome (by rwa [hlead])
    rw [hlead] at hterm
    exact .stayed hmem hanswer hlead heq hterm
      ((h.span_apply hwf z).trans (h.keeps.span_eq z (hwf.lt_size reach)))
  | copied reach expr mirrors =>
    have hmirrors := mirrors_apply h hwf mirrors hafter
    refine .copied mirrors.size_le (hwf.mem_exprs.mpr ⟨reach, expr⟩) ?_ ?_
    · exact term_of_mirrors hmirrors (hwf.grounded_of_reaches reach)
        (fun w hw => hwf.expr_of_reaches reach expr hw) (grounded_apply h hwf hafter)
    · cases hmirrors with
      | intro hnew hx hlength hy hspan below => exact hspan
  | made new plain below => exact .made new fun hchoice => plain (isChoice_of_mapSlots heq hchoice)

theorem pass_emerges {s : Folding} (hwf : s.tree.WellFormed) (hbound : Bound s.tree directory)
    (hz : z ∈ (s.pass directory).2.tree.exprs) :
    Emerges s.tree (s.pass directory).2.tree directory (cyclicAliases s.tree directory)
      (s.follow directory) z := by
  obtain ⟨owner, h, hanswers⟩ := stageAll_spec hwf hbound (cyclicAliases s.tree directory)
  exact emerges_apply h hwf hbound hanswers hz

/-- Passes make nodes and never delete any. -/
theorem size_le_pass {s : Folding} (hwf : s.tree.WellFormed) (hbound : Bound s.tree directory) :
    s.tree.size ≤ (s.pass directory).2.tree.size := by
  obtain ⟨owner, h, -⟩ := stageAll_spec hwf hbound (cyclicAliases s.tree directory)
  have hsize := (h.separates hwf).apply.1.size_eq
  exact Nat.le_trans h.keeps.size_le (Nat.le_of_eq hsize.symm)

/-- What cannot be folded leads to itself. -/
theorem follow_of_stuck {s : Folding} (hwf : s.tree.WellFormed) (hbound : Bound s.tree directory)
    (hx : x ∈ s.tree.exprs) (hstuck : (s.tree.expr? x).bind
      (reduct? s.tree directory (cyclicAliases s.tree directory)) = none) :
    s.follow directory x = x := by
  obtain ⟨owner, h, hanswers⟩ := stageAll_spec hwf hbound (cyclicAliases s.tree directory)
  have hanswer := hanswers x hx
  cases hlookup : (stageAll s.tree directory (cyclicAliases s.tree directory)).1.lookup x with
  | none => exact follow_of_none (h.settles hwf (hwf.mem_exprs.mp hx).1) hlookup
  | some y =>
    rw [hlookup] at hanswer
    obtain ⟨r, hr, -⟩ := hanswer
    rw [hstuck] at hr
    cases hr

/-- A choice whose condition is known leads to where the branch leads that it selects. -/
theorem follow_choice {s : Folding} {condition ifTrue ifFalse : NodeId} {b : Bool}
    (hwf : s.tree.WellFormed) (hbound : Bound s.tree directory) (hx : x ∈ s.tree.exprs)
    (he : s.tree.expr? x = some (.ifElse condition ifTrue ifFalse))
    (hb : s.tree.bool? condition = some b) :
    s.follow directory x = s.follow directory (if b then ifTrue else ifFalse) := by
  obtain ⟨owner, h, hanswers⟩ := stageAll_spec hwf hbound (cyclicAliases s.tree directory)
  have hanswer := hanswers x hx
  have hreduct : (s.tree.expr? x).bind (reduct? s.tree directory (cyclicAliases s.tree directory)) =
      some (.existing (if b then ifTrue else ifFalse)) := by
    rw [he, Option.bind_some, reduct?, hb]
    rfl
  cases hlookup : (stageAll s.tree directory (cyclicAliases s.tree directory)).1.lookup x with
  | none =>
    rw [hlookup, Answers, hreduct] at hanswer
    cases hanswer
  | some y =>
    rw [hlookup] at hanswer
    obtain ⟨r, hr, hrealised⟩ := hanswer
    obtain rfl := Option.some.inj (hreduct.symm.trans hr)
    obtain rfl : y = if b then ifTrue else ifFalse := hrealised
    exact h.follow_of_lookup hwf hlookup

end StackTemplate.Fold
