import StackTemplate.Proofs.Resolution.Guards
import StackTemplate.Proofs.Resolution.Wiring

/-!
# Names in expressions

A reference, an attribute, a condition and a look-up each name an item. `NamesBelow` says that a
name occurs in the expression at a node. It is read off the content of the nodes below, so changes
elsewhere leave it alone, a copy names what its original names, and a graft adds what it hangs in.

The walk of the resolver comes to every name: each one below a field of a declaration is mentioned
by the declaration (`exists_mention`).
-/

namespace StackTemplate

/-- The item that an expression itself names. -/
def Expr.named? : Expr → Option String
  | .ref name | .getAtt name _ | .conditionRef name => some name
  | .findInMap mapName _ _ => some mapName
  | _ => none

/-- Other operands leave the name. -/
theorem Expr.named?_refill (e : Expr) (ids : List NodeId) : (e.refill ids).named? = e.named? := by
  unfold refill
  split <;> rfl

namespace Tree

variable {t g g' s : Tree} {p x y z : NodeId} {name : String}

/-- The item that the expression at a node itself names. -/
def named? (t : Tree) (x : NodeId) : Option String := (t.expr? x).bind Expr.named?

/-- A name occurs in the expression at a node. -/
def NamesBelow (t : Tree) (p : NodeId) (name : String) : Prop :=
  ∃ z, t.Reaches p z ∧ t.named? z = some name

theorem named?_of_expr? {e : Expr} (h : t.expr? x = some e) : t.named? x = e.named? := by
  rw [named?, h, Option.bind_some]

theorem named?_congr (h : g'.kind? x = g.kind? x) : g'.named? x = g.named? x := by
  rw [named?, named?, expr?_congr h]

/-- A name occurs at the top or below a child. -/
theorem namesBelow_iff :
    t.NamesBelow p name ↔ t.named? p = some name ∨ ∃ c ∈ t.children p, t.NamesBelow c name := by
  constructor
  · rintro ⟨z, hz, hname⟩
    rcases Relation.ReflTransGen.cases_head hz with rfl | ⟨c, hc, hcz⟩
    · exact .inl hname
    · exact .inr ⟨c, hc, z, hcz, hname⟩
  · rintro (hname | ⟨c, hc, z, hz, hname⟩)
    · exact ⟨p, .refl, hname⟩
    · exact ⟨z, .head hc hz, hname⟩

/-- Where the content of all nodes below is the same, the same nodes are below. -/
theorem reaches_congr (h : ∀ z, g.Reaches p z → g'.kind? z = g.kind? z) :
    g'.Reaches p z ↔ g.Reaches p z :=
  descends_congr fun z hz => children_congr (h z hz)

theorem namesBelow_congr (h : ∀ z, g.Reaches p z → g'.kind? z = g.kind? z) :
    g'.NamesBelow p name ↔ g.NamesBelow p name := by
  constructor
  · rintro ⟨z, hz, hname⟩
    rw [reaches_congr h] at hz
    exact ⟨z, hz, by rwa [named?_congr (h z hz)] at hname⟩
  · rintro ⟨z, hz, hname⟩
    exact ⟨z, (reaches_congr h).mpr hz, by rwa [named?_congr (h z hz)]⟩

/-- A copy names what its original names. -/
theorem Mirrors.namesBelow (h : Mirrors g s x y) : s.NamesBelow y name ↔ g.NamesBelow x name := by
  induction h with
  | @intro x y kind ys hnew hx hlength hy hspan below ih =>
    have hself : s.named? y = g.named? x := by
      rw [named?, named?, expr?, expr?, hx, hy]
      cases kind with
      | expr e => exact Expr.named?_refill e ys
      | decl d => rfl
      | module m => rfl
    rw [namesBelow_iff, namesBelow_iff, hself, children_of_kind? hx, children_of_kind? hy,
      NodeKind.children_refill hlength]
    refine or_congr_right ⟨?_, ?_⟩
    · rintro ⟨c, hc, hname⟩
      obtain ⟨b, hb⟩ := exists_mem_zip hlength hc
      exact ⟨b, (List.of_mem_zip hb).1, (ih _ hb).mp hname⟩
    · rintro ⟨c, hc, hname⟩
      obtain ⟨i, hi⟩ := List.mem_iff_getElem?.mp hc
      have hlt : i < ys.length := hlength ▸ (List.getElem?_eq_some_iff.mp hi).1
      have hpair : (c, ys.get ⟨i, hlt⟩) ∈ kind.children.zip ys := by
        refine List.mem_iff_getElem?.mpr ⟨i, ?_⟩
        rw [List.getElem?_zip_eq_some]
        exact ⟨hi, by simp⟩
      exact ⟨_, (List.of_mem_zip hpair).2, (ih _ hpair).mpr hname⟩

/-- What a graft brings to the names at its node, it brings to those of every node above. -/
theorem Grafts.namesBelow {N : NodeId → Prop} {Q : Prop} (h : Grafts g g' x N) (hwf : g.WellFormed)
    (hself : g'.NamesBelow x name ↔ g.NamesBelow x name ∨ Q) (hp : g.Reaches g.root p) :
    g'.NamesBelow p name ↔ g.NamesBelow p name ∨ g.Reaches p x ∧ Q := by
  by_cases hpx : g.Reaches p x
  rotate_left
  · rw [namesBelow_congr fun z hz => h.kind_eq z (hp.trans hz) fun heq => hpx (heq ▸ hz)]
    simp [hpx]
  -- By induction from the node of the graft up: beside the way up nothing changes.
  have hup : g'.NamesBelow p name ↔ g.NamesBelow p name ∨ Q := by
    induction hpx using Relation.ReflTransGen.head_induction_on with
    | refl => exact hself
    | @head p c hc hcx ih =>
      have hne : p ≠ x := by
        rintro rfl
        exact hwf.acyclic hp (.head' hc hcx)
      have hkind := h.kind_eq p hp hne
      have hside : ∀ b ∈ g.children p, b ≠ c → (g'.NamesBelow b name ↔ g.NamesBelow b name) := by
        intro b hb hbc
        refine namesBelow_congr fun z hz => h.kind_eq z ((hp.tail hb).trans hz) ?_
        rintro rfl
        rcases hwf.reaches_or_reaches (hp.tail hb) (hp.tail hc) hz hcx with hbc' | hcb
        · exact hwf.not_reaches_sibling hp hb hc hbc hbc'
        · exact hwf.not_reaches_sibling hp hc hb hbc.symm hcb
      have hway := ih (hp.tail hc)
      rw [namesBelow_iff, namesBelow_iff (t := g), named?_congr hkind, children_congr hkind]
      constructor
      · rintro (hname | ⟨b, hb, hname⟩)
        · exact .inl (.inl hname)
        · by_cases hbc : b = c
          · subst hbc
            exact (hway.mp hname).imp_left fun hname => .inr ⟨b, hb, hname⟩
          · exact .inl (.inr ⟨b, hb, (hside b hb hbc).mp hname⟩)
      · rintro ((hname | ⟨b, hb, hname⟩) | hQ)
        · exact .inl hname
        · by_cases hbc : b = c
          · subst hbc
            exact .inr ⟨b, hb, hway.mpr (.inl hname)⟩
          · exact .inr ⟨b, hb, (hside b hb hbc).mpr hname⟩
        · exact .inr ⟨c, hc, hway.mpr (.inr hQ)⟩
  rw [hup]
  simp [hpx]

/-! ### Names and mentions -/

theorem mem_mentionedNames {e : Expr} (directory : Directory) (h : e.named? = some name) :
    name ∈ mentionedNames directory e := by
  cases e <;> simp_all [Expr.named?, mentionedNames]

/-- An edge of a child is an edge of the expression, under some guards. -/
theorem exists_mention_of_child {directory : Directory} {e : Expr} {c : NodeId}
    (hgrounded : t.Grounded p) (he : t.expr? p = some e) (hc : c ∈ e.children)
    (hbelow : ∀ guards, ∃ edge ∈ t.mentions directory guards c, edge.target = name)
    (guards : List Guard) : ∃ edge ∈ t.mentions directory guards p, edge.target = name := by
  obtain ⟨depth, hsize, hwithin⟩ := hgrounded.exists_within
  rw [children_of_expr? he] at hwithin
  have hbelow : ∀ guards, ∃ edge ∈ t.mentionsWithin directory depth guards c,
      edge.target = name := by
    intro guards
    rw [mentionsWithin_congr (hwithin c hc) (within_of_grounded (hgrounded.child
      (by rwa [children_of_expr? he])))]
    exact hbelow guards
  show ∃ edge ∈ t.mentionsWithin directory t.size guards p, edge.target = name
  rw [hsize]
  by_cases hchoice : ∃ condition ifTrue ifFalse, e = .ifElse condition ifTrue ifFalse
  · obtain ⟨condition, ifTrue, ifFalse, rfl⟩ := hchoice
    rw [mentionsWithin_ifElse he]
    simp only [List.mem_append]
    simp only [Expr.children, List.mem_cons, List.not_mem_nil, or_false] at hc
    rcases hc with rfl | rfl | rfl
    · obtain ⟨edge, hedge, htarget⟩ := hbelow guards
      exact ⟨edge, .inl (.inl hedge), htarget⟩
    · obtain ⟨edge, hedge, htarget⟩ := hbelow (guards ++ [t.guardFor condition])
      exact ⟨edge, .inl (.inr hedge), htarget⟩
    · obtain ⟨edge, hedge, htarget⟩ := hbelow (guards ++ [(t.guardFor condition).negate])
      exact ⟨edge, .inr hedge, htarget⟩
  · push Not at hchoice
    rw [mentionsWithin_other he hchoice]
    obtain ⟨edge, hedge, htarget⟩ := hbelow guards
    exact ⟨edge, List.mem_append_right _ (List.mem_flatMap.mpr ⟨c, hc, hedge⟩), htarget⟩

/-- The resolver comes to every name below an expression. -/
theorem exists_mention (directory : Directory) (hwf : t.WellFormed) (hp : t.Reaches t.root p)
    (he : (t.expr? p).isSome) (hname : t.NamesBelow p name)
    (hpseudo : isPseudoParameter name = false) (guards : List Guard) :
    ∃ edge ∈ t.mentions directory guards p, edge.target = name := by
  obtain ⟨z, hz, hname⟩ := hname
  induction hz using Relation.ReflTransGen.head_induction_on generalizing guards with
  | refl =>
    obtain ⟨e, he⟩ := Option.isSome_iff_exists.mp he
    rw [named?_of_expr? he] at hname
    have hother : ∀ condition ifTrue ifFalse, e ≠ .ifElse condition ifTrue ifFalse := by
      rintro condition ifTrue ifFalse rfl
      cases hname
    obtain ⟨depth, hsize, -⟩ := (hwf.grounded_of_reaches hp).exists_within
    refine ⟨Dependency.under guards name z, ?_, rfl⟩
    rw [mentions, hsize, mentionsWithin_other he hother]
    refine List.mem_append_left _ (List.mem_map_of_mem (List.mem_filter.mpr ⟨?_, ?_⟩))
    · exact mem_mentionedNames directory hname
    · rw [hpseudo]
      rfl
  | @head p c hc _ ih =>
    obtain ⟨e, he'⟩ := Option.isSome_iff_exists.mp he
    refine exists_mention_of_child (hwf.grounded_of_reaches hp) he' ?_
      (ih (hp.tail hc) (hwf.expr_of_child hp he hc)) guards
    rwa [← children_of_expr? he']

/-- A declaration mentions every name below its fields. -/
theorem exists_declMention (directory : Directory) {d : Decl} (hwf : t.WellFormed)
    (hx : t.Reaches t.root x) (hd : t.decl? x = some d) (hp : p ∈ d.kind.fields)
    (hname : t.NamesBelow p name) (hpseudo : isPseudoParameter name = false) :
    ∃ edge ∈ t.declMentions directory x d, edge.target = name := by
  have hslot : p ∈ t.exprSlots x := by
    rw [exprSlots, decl?_eq_some.mp hd]
    exact List.mem_append_left _ hp
  have hmention := exists_mention directory hwf
    (hx.tail (mem_children.mpr (.inl hslot))) (hwf.expr_slot x p hx hslot) hname hpseudo
  simp only [declMentions, List.mem_append, List.mem_flatMap]
  by_cases hcondition : some p = d.ifCondition?
  · obtain ⟨edge, hedge, htarget⟩ := hmention []
    exact ⟨edge, .inl (.inl ⟨p, Option.mem_toList.mpr hcondition.symm, hedge⟩), htarget⟩
  · obtain ⟨edge, hedge, htarget⟩ := hmention (t.fieldGuards d)
    have hfield : p ∈ d.kind.fields.filter fun field => some field ≠ d.ifCondition? :=
      List.mem_filter.mpr ⟨hp, decide_eq_true hcondition⟩
    exact ⟨edge, .inl (.inr ⟨p, hfield, hedge⟩), htarget⟩

end Tree

end StackTemplate
