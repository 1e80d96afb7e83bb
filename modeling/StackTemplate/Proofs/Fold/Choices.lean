import StackTemplate.Proofs.Fold.Irreducible
import StackTemplate.Proofs.Fold.Queries
import StackTemplate.Proofs.Fold.Tracing

/-!
# Choices on queries

A choice between two branches whose condition is a query stays in its place, pass after pass, until
the query is known (`choice_after`), and then gives way to the branch that the truth value selects
(`leads_branch`). Copies of it are choices on the same query, perhaps some steps behind (`Traces`),
and none is left when nothing can be folded any more (`Traces.not_isChoice`).
-/

namespace StackTemplate

/-- What an existence check answers. -/
def Directory.defines (directory : Directory) (name : String) : Bool :=
  directory.contains name || isPseudoParameter name

namespace Fold

open StackTemplate.Tree

variable {t t' : Tree} {directory : Directory} {cyclic : List String} {f : NodeId → NodeId}
  {x z p condition ifTrue ifFalse : NodeId} {q : Query} {span : Span} {n : Nat}

/-- The node is a choice on the query. -/
def ChoosesOn (t : Tree) (q : Query) (x : NodeId) : Prop :=
  ∃ condition ifTrue ifFalse, t.expr? x = some (.ifElse condition ifTrue ifFalse) ∧
    t.term condition = q.term

theorem grounded_of_mem_exprs (hwf : t.WellFormed) (hx : x ∈ t.exprs) : t.Grounded x :=
  hwf.grounded_of_reaches (hwf.mem_exprs.mp hx).1

theorem term_choice (hx : t.Grounded x) (he : t.expr? x = some (.ifElse condition ifTrue ifFalse)) :
    t.term x = .node .ifElse [t.term condition, t.term ifTrue, t.term ifFalse] :=
  term_eq hx he

/-- A choice can be told by its term. -/
theorem isChoice_iff : IsChoice t x ↔ ∃ operands, t.term x = .node .ifElse operands := by
  obtain ⟨operands, hterm⟩ := head_term (t := t) x
  rw [hterm]
  constructor
  · rintro ⟨condition, ifTrue, ifFalse, he⟩
    rw [he]
    exact ⟨operands, rfl⟩
  · rintro ⟨operands', heq⟩
    cases he : t.expr? x with
    | none =>
      rw [he] at heq
      cases heq
    | some e =>
      rw [he] at heq
      cases e <;> cases heq
      exact ⟨_, _, _, he⟩

/-! ### Whether the query is known -/

theorem ChoosesOn.bool?_eq (hterm : t.term condition = q.term) :
    t.bool? condition = q.constant?.map Prod.fst := by
  rw [← bool?_term, hterm, q.bool?_eq]

/-- A choice can be folded just when its query is known. -/
theorem stuck_iff (he : t.expr? x = some (.ifElse condition ifTrue ifFalse))
    (hterm : t.term condition = q.term) :
    (t.expr? x).bind (reduct? t directory cyclic) = none ↔ q.constant? = none := by
  rw [he, Option.bind_some, reduct?, ChoosesOn.bool?_eq hterm, Option.map_eq_none_iff,
    Option.map_eq_none_iff]

/-- A warning is due if the query is known and its constant is not marked. -/
theorem ChoosesOn.constantCondition?_eq (h : ChoosesOn t q x) :
    constantCondition? t x =
      q.constant?.bind fun known => if known.2 then none else some known.1 := by
  obtain ⟨condition, ifTrue, ifFalse, he, hterm⟩ := h
  have hliteral : t.literal? condition = q.term.literal? := by rw [← hterm, literal?_term]
  rw [constantCondition?, he]
  simp only [hliteral]
  obtain ⟨b, isFinal, marked, rfl⟩ | ⟨hnone, hliteral⟩ := q.constant?_cases
  · rfl
  · rw [hnone, hliteral]
    rfl

/-! ### One pass -/

/-- The condition of a choice that stays takes a step. -/
theorem term_condition (hz : t.Grounded z) (hz' : t'.Grounded z)
    (he : t.expr? z = some (.ifElse condition ifTrue ifFalse)) (hq : t.term condition = q.term)
    (hstuck : (t.expr? z).bind (reduct? t directory cyclic) = none)
    (he' : t'.expr? z = (t.expr? z).map (Expr.mapSlots f))
    (hterm : t'.term z = (t.term z).pass (t.scope directory) cyclic) :
    t'.term (f condition) = (q.step directory.defines).term := by
  have hopen : q.term.bool? = none := by
    rw [q.bool?_eq, (stuck_iff he hq).mp hstuck]
    rfl
  rw [he, Option.map_some] at he'
  rw [term_choice hz' he', term_choice hz he, Term.pass_node, hq] at hterm
  simp only [List.map_cons, List.map_nil, Term.contract?, hopen, Option.map_none,
    Option.getD_none, Term.node.injEq, List.cons.injEq] at hterm
  rw [hterm.2.1, Query.pass_term]
  rfl

/-- A copy chooses on what the original chooses on. -/
theorem ChoosesOn.of_term {y : NodeId} (h : ChoosesOn t q y) (hy : t.Grounded y)
    (hz : t'.Grounded z) (hchoice : IsChoice t' z) (hterm : t'.term z = t.term y) :
    ChoosesOn t' q z := by
  obtain ⟨condition, ifTrue, ifFalse, he, hq⟩ := h
  obtain ⟨condition', ifTrue', ifFalse', he'⟩ := hchoice
  rw [term_choice hy he, term_choice hz he'] at hterm
  simp only [Term.node.injEq, List.cons.injEq] at hterm
  exact ⟨condition', ifTrue', ifFalse', he', hterm.2.1.trans hq⟩

/-- All choices at a place in the source are choices on the query, some steps on. -/
def Traces (t : Tree) (directory : Directory) (q : Query) (span : Span) : Prop :=
  ∀ z ∈ t.exprs, t.span z = span → IsChoice t z →
    ∃ n, ChoosesOn t ((Query.step directory.defines)^[n] q) z

theorem Traces.pass {s : Folding} (h : Traces s.tree directory q span) (hwf : s.tree.WellFormed)
    (hbound : Bound s.tree directory) : Traces (s.pass directory).2.tree directory q span := by
  intro z hz hspan hchoice
  have hz' := grounded_of_mem_exprs (folded_follow hwf hbound).wellFormed hz
  cases pass_emerges hwf hbound hz with
  | stayed mem stuck lead expr term span =>
    obtain ⟨n, condition, ifTrue, ifFalse, he, hq⟩ :=
      h z mem (span.symm.trans hspan) (isChoice_of_mapSlots expr hchoice)
    have hcondition := term_condition (grounded_of_mem_exprs hwf mem) hz' he hq stuck expr term
    rw [he] at expr
    refine ⟨n + 1, _, _, _, expr, ?_⟩
    rw [hcondition, Function.iterate_succ_apply']
  | @copied y _ new mem term span =>
    have hy : IsChoice s.tree y := isChoice_iff.mpr (term ▸ isChoice_iff.mp hchoice)
    obtain ⟨n, hchooses⟩ := h y mem (span.symm.trans hspan) hy
    exact ⟨n, hchooses.of_term (grounded_of_mem_exprs hwf mem) hz' hchoice term⟩
  | made new plain => exact absurd hchoice plain

/-- Where nothing can be folded there is no choice on a query. -/
theorem not_choosesOn_of_irreducible (hwf : t.WellFormed) (hbound : Bound t directory)
    (hirreducible : Irreducible t directory) (hz : z ∈ t.exprs) : ¬ ChoosesOn t q z := by
  have hgrounded := grounded_of_mem_exprs hwf hz
  have hstuck := hirreducible z hz
  -- a pass takes the query a step further, and yet it is the same tree
  induction hrounds : q.rounds directory.defines generalizing q with
  | zero =>
    rintro ⟨condition, ifTrue, ifFalse, he, hq⟩
    have hopen := (stuck_iff he hq).mp hstuck
    rw [q.constant?_eq directory.defines, if_pos hrounds] at hopen
    cases hopen
  | succ rounds ih =>
    rintro ⟨condition, ifTrue, ifFalse, he, hq⟩
    obtain ⟨-, hsame⟩ := pass_of_irreducible (s := { tree := t }) hirreducible
    have hz' : z ∈ (Folding.pass directory { tree := t }).2.tree.exprs := by rwa [hsame]
    have hemerges := pass_emerges hwf hbound hz'
    rw [hsame] at hemerges
    have hlt := hgrounded.lt
    cases hemerges with
    | stayed mem stuck lead expr term span =>
      have hcondition := term_condition hgrounded hgrounded he hq stuck expr term
      rw [he] at expr
      refine ih (q := q.step directory.defines) ?_ ⟨_, _, _, he.trans expr, hcondition⟩
      rw [(q.step_spec directory.defines).2.2, hrounds, Nat.add_sub_cancel]
    | copied new mem term span => exact absurd hlt (Nat.not_lt.mpr new)
    | made new plain => exact absurd hlt (Nat.not_lt.mpr new)

/-! ### Several passes -/

theorem Traces.after {s : Folding} (h : Traces s.tree directory q span) (hwf : s.tree.WellFormed)
    (hbound : Bound s.tree directory) (n : Nat) :
    Traces (s.after directory n).tree directory q span := by
  induction n with
  | zero => exact h
  | succ n ih =>
    have hrewired := after_leads hwf hbound n
    rw [Folding.after_succ]
    exact ih.pass hrewired.wellFormed (bound_rewired hbound hrewired)

/-- When nothing can be folded any more, none of the choices is left. -/
theorem Traces.not_isChoice (h : Traces t directory q span) (hwf : t.WellFormed)
    (hbound : Bound t directory) (hirreducible : Irreducible t directory) (hz : z ∈ t.exprs)
    (hspan : t.span z = span) : ¬ IsChoice t z := by
  intro hchoice
  obtain ⟨n, hchooses⟩ := h z hz hspan hchoice
  exact not_choosesOn_of_irreducible hwf hbound hirreducible hz hchooses

/-- Passes over a tree in which nothing can be folded leave it as it is. -/
theorem after_of_irreducible {s : Folding} {stop : Nat}
    (h : Irreducible (s.after directory stop).tree directory) (hn : stop ≤ n) :
    (s.after directory n).tree = (s.after directory stop).tree := by
  induction n, hn using Nat.le_induction with
  | base => rfl
  | succ n _ ih => rw [Folding.after_succ, (pass_of_irreducible (ih.symm ▸ h)).2, ih]

theorem size_le_after {s : Folding} (hwf : s.tree.WellFormed) (hbound : Bound s.tree directory)
    (n : Nat) : s.tree.size ≤ (s.after directory n).tree.size := by
  induction n with
  | zero => exact le_rfl
  | succ n ih =>
    have hrewired := after_leads hwf hbound n
    rw [Folding.after_succ]
    exact ih.trans (size_le_pass hrewired.wellFormed (bound_rewired hbound hrewired))

section Choice

variable {s : Folding} (hwf : s.tree.WellFormed) (hbound : Bound s.tree directory)
  (hx : x ∈ s.tree.exprs) (he : s.tree.expr? x = some (.ifElse condition ifTrue ifFalse))
  (hq : s.tree.term condition = q.term)

include hwf hbound hx he hq

/-- As long as a choice is within reach, its query is not known or just has become so, and its
condition and its branches are what they have led to. -/
theorem choice_after (hn : x ∈ (s.after directory n).tree.exprs) :
    n ≤ q.rounds directory.defines ∧ s.leads directory n x = x ∧
    (s.after directory n).tree.expr? x = some (.ifElse (s.leads directory n condition)
      (s.leads directory n ifTrue) (s.leads directory n ifFalse)) ∧
    (s.after directory n).tree.term (s.leads directory n condition) =
      ((Query.step directory.defines)^[n] q).term ∧
    (s.after directory n).tree.span x = s.tree.span x := by
  induction n with
  | zero => exact ⟨Nat.zero_le _, rfl, he, hq, rfl⟩
  | succ n ih =>
    have hrewired := after_leads hwf hbound n
    have hrewired' := after_leads hwf hbound (n + 1)
    have hgrounded' := grounded_of_mem_exprs hrewired'.wellFormed hn
    have hlt := (grounded_of_mem_exprs hwf hx).lt.trans_le (size_le_after hwf hbound n)
    rw [Folding.after_succ] at hn hgrounded' ⊢
    cases pass_emerges hrewired.wellFormed (bound_rewired hbound hrewired) hn with
    | stayed mem stuck lead expr term span =>
      obtain ⟨hle, hlead, he, hq, hspan⟩ := ih mem
      have hopen := (stuck_iff he hq).mp stuck
      rw [Query.constant?_iterate] at hopen
      have hcondition := term_condition (grounded_of_mem_exprs hrewired.wellFormed mem) hgrounded'
        he hq stuck expr term
      rw [he] at expr
      refine ⟨?_, ?_, expr, ?_, span.trans hspan⟩
      · by_contra hgt
        rw [if_pos (by omega)] at hopen
        cases hopen
      · rw [Folding.leads, hlead, lead]
      · rw [Function.iterate_succ_apply']
        exact hcondition
    | copied new mem term span => exact absurd hlt (Nat.not_lt.mpr new)
    | made new plain => exact absurd hlt (Nat.not_lt.mpr new)

theorem choosesOn_after (hn : x ∈ (s.after directory n).tree.exprs) :
    ChoosesOn (s.after directory n).tree ((Query.step directory.defines)^[n] q) x := by
  obtain ⟨-, -, he, hq, -⟩ := choice_after hwf hbound hx he hq hn
  exact ⟨_, _, _, he, hq⟩

/-- A choice that is within reach when its query becomes known gives way to the branch that the
truth value selects. -/
theorem leads_branch
    (hreach : x ∈ (s.after directory (q.rounds directory.defines)).tree.exprs)
    (hn : q.rounds directory.defines < n) :
    s.leads directory n x =
      s.leads directory n (if q.truth directory.defines then ifTrue else ifFalse) := by
  induction n, hn using Nat.le_induction with
  | base =>
    have hrewired := after_leads hwf hbound (q.rounds directory.defines)
    obtain ⟨-, hlead, he, hq, -⟩ := choice_after hwf hbound hx he hq hreach
    have hknown := ChoosesOn.bool?_eq hq
    rw [Query.constant?_iterate, if_pos le_rfl] at hknown
    rw [Folding.leads, hlead,
      follow_choice hrewired.wellFormed (bound_rewired hbound hrewired) hreach he hknown]
    simp only [Folding.leads]
    split <;> rfl
  | succ n _ ih => rw [Folding.leads, ih, Folding.leads]

/-- Nothing takes a choice out of reach that a declaration or the module holds itself. -/
theorem choice_reaches (hp : s.tree.Reaches s.tree.root p) (hhost : s.tree.expr? p = none)
    (hslot : x ∈ s.tree.exprSlots p) (hn : n ≤ q.rounds directory.defines) :
    x ∈ (s.after directory n).tree.exprs := by
  induction n with
  | zero => exact hx
  | succ n ih =>
    have hrewired := after_leads hwf hbound n
    have hreach := ih (Nat.le_of_succ_le hn)
    obtain ⟨-, hlead, he, hq, -⟩ := choice_after hwf hbound hx he hq hreach
    have hopen : ((Query.step directory.defines)^[n] q).constant? = none := by
      rw [Query.constant?_iterate, if_neg (by omega)]
    have hfollow := follow_of_stuck hrewired.wellFormed (bound_rewired hbound hrewired) hreach
      ((stuck_iff he hq).mpr hopen)
    have hrewired' := after_leads hwf hbound (n + 1)
    have hp' := (hrewired'.host p hp hhost).1
    have hslot' : x ∈ (s.after directory (n + 1)).tree.exprSlots p := by
      rw [(hrewired'.slots hwf hp hhost).1, List.mem_map]
      exact ⟨x, hslot, by rw [Folding.leads, hlead, hfollow]⟩
    exact hrewired'.wellFormed.mem_exprs.mpr ⟨hp'.tail (mem_children.mpr (.inl hslot')),
      hrewired'.wellFormed.expr_slot p x hp' hslot'⟩

/-- Its query is known when nothing can be folded any more. -/
theorem rounds_le_of_irreducible {stop : Nat}
    (hreach : x ∈ (s.after directory (q.rounds directory.defines)).tree.exprs)
    (hirreducible : Irreducible (s.after directory stop).tree directory) :
    q.rounds directory.defines ≤ stop := by
  by_contra hlt
  have hsame := after_of_irreducible hirreducible (Nat.le_of_not_le hlt)
  have hreach' : x ∈ (s.after directory stop).tree.exprs := by rwa [← hsame]
  have hrewired := after_leads hwf hbound stop
  exact not_choosesOn_of_irreducible hrewired.wellFormed (bound_rewired hbound hrewired)
    hirreducible hreach' (choosesOn_after hwf hbound hx he hq hreach')

end Choice

end Fold

end StackTemplate
