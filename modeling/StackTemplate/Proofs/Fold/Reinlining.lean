import StackTemplate.Proofs.Fold.Settling
import StackTemplate.Proofs.Tree.Rewiring

/-!
# Turning parameters back

On a well-formed tree turning parameters back meets no fault, since the parameters of an
interpolated string are expressions. It changes interpolated strings only, each into the one that
`inlined` gives, over some of its parameters; every other expression keeps its sort and its operands
(`Inlined`).
-/

namespace StackTemplate.Fold

open StackTemplate.Tree

variable {t s s' t' g : Tree} {staged : Replacements} {owner f : NodeId → NodeId} {x c : NodeId}
  {e : Expr} {format : String} {parameters : Table NodeId}

/-- What replaces a string is a string over some of its parameters. -/
theorem children_reinlined? {targets : List (String × String)}
    (h : reinlined? format parameters targets = some e) :
    e.children.Sublist parameters.values := by
  obtain ⟨-, -, newFormat, -, rfl⟩ := reinlined?_eq_some.mp h
  exact List.filter_sublist.map Prod.snd

/-! ### Expressions with parameters turned back -/

/-- What an expression is when its parameters are turned back. -/
def inlined (t : Tree) : Expr → Expr
  | .sub format parameters =>
    (reinlined? format parameters (inlinable t parameters)).getD (.sub format parameters)
  | e => e

theorem inlined_of_ne_sub (h : ∀ format parameters, e ≠ .sub format parameters) :
    inlined t e = e := by
  cases e with
  | sub format parameters => exact absurd rfl (h format parameters)
  | _ => rfl

/-- An expression stays as it is, or it is a string that is replaced. -/
theorem inlined_cases (t : Tree) (e : Expr) :
    (inlined t e = e ∧ ∀ format parameters, e = .sub format parameters →
      reinlined? format parameters (inlinable t parameters) = none) ∨
    ∃ format parameters, e = .sub format parameters ∧
      reinlined? format parameters (inlinable t parameters) = some (inlined t e) := by
  cases e with
  | sub format parameters =>
    rw [inlined]
    cases h : reinlined? format parameters (inlinable t parameters) with
    | none =>
      refine .inl ⟨rfl, fun _ _ heq => ?_⟩
      cases heq
      exact h
    | some e => exact .inr ⟨format, parameters, rfl, h⟩
  | _ => exact .inl ⟨rfl, fun _ _ heq => by cases heq⟩

theorem children_inlined (t : Tree) (e : Expr) : (inlined t e).children.Sublist e.children := by
  rcases inlined_cases t e with ⟨hsame, -⟩ | ⟨format, parameters, rfl, hinlined⟩
  · rw [hsame]
  · exact children_reinlined? hinlined

/-- A string stays a string. -/
theorem inlined_sub (t : Tree) (format : String) (parameters : Table NodeId) :
    ∃ newFormat left, inlined t (.sub format parameters) = .sub newFormat left := by
  rcases inlined_cases t (.sub format parameters) with ⟨hsame, -⟩ | ⟨_, _, -, hinlined⟩
  · exact ⟨format, parameters, hsame⟩
  · obtain ⟨-, -, newFormat, -, heq⟩ := reinlined?_eq_some.mp hinlined
    exact ⟨newFormat, _, heq⟩

theorem inlinable_congr (h : ∀ entry ∈ parameters.entries, s.expr? entry.2 = t.expr? entry.2) :
    inlinable s parameters = inlinable t parameters :=
  List.filterMap_congr fun entry hentry => by rw [h entry hentry]

theorem expr_of_parameter (hwf : t.WellFormed) (hx : x ∈ t.exprs)
    (he : t.expr? x = some (.sub format parameters)) :
    ∀ entry ∈ parameters.entries, t.Reaches t.root entry.2 ∧ (t.expr? entry.2).isSome := by
  intro entry hentry
  obtain ⟨hreach, hsome⟩ := hwf.mem_exprs.mp hx
  have hmem : entry.2 ∈ t.children x := by
    rw [children_of_expr? he]
    exact List.mem_map_of_mem hentry
  exact ⟨hreach.tail hmem, hwf.expr_of_child hreach hsome hmem⟩

/-! ### The pass -/

/-- The expression is a string with parameters that can be turned back. -/
def Reinlinable (t : Tree) (e : Expr) : Prop :=
  ∃ format parameters, e = .sub format parameters ∧
    (reinlined? format parameters (inlinable t parameters)).isSome

theorem inlined_of_not_reinlinable (h : ¬ Reinlinable t e) : inlined t e = e := by
  rcases inlined_cases t e with ⟨hsame, -⟩ | ⟨format, parameters, he, hinlined⟩
  · exact hsame
  · exact absurd ⟨format, parameters, he, Option.isSome_of_eq_some hinlined⟩ h

/-- What is known of an expression when it is staged: it is left alone, or its new node is what
turning back gives. -/
def Reinlines (t s : Tree) (x : NodeId) : Option NodeId → Prop
  | none => ∀ e, t.expr? x = some e → ¬ Reinlinable t e
  | some y => t.size ≤ y ∧
      ∃ e, t.expr? x = some e ∧ Reinlinable t e ∧ s.expr? y = some (inlined t e)

theorem Reinlines.keep {y : Option NodeId} (h : Reinlines t s x y) (hs : Keeps s s') :
    Reinlines t s' x y := by
  cases y with
  | none => exact h
  | some y =>
    obtain ⟨hle, e, he, hstring, hy⟩ := h
    exact ⟨hle, e, he, hstring, by rw [expr?_congr (hs.kind_eq y (lt_size_of_expr? hy)), hy]⟩

/-- Staging one expression. -/
theorem stageReinline_spec (hwf : t.WellFormed) {sofar : Replacements × Tree}
    (hs : Staged t sofar.1 sofar.2 owner) (hx : x ∈ t.exprs) (hfresh : sofar.1.lookup x = none) :
    ∃ after, stageReinline sofar x = .ok after ∧ Stages t (Reinlines t) sofar after x := by
  have hreach := (hwf.mem_exprs.mp hx).1
  have hexpr : sofar.2.expr? x = t.expr? x :=
    expr?_congr (hs.keeps.kind_eq x (hwf.lt_size hreach))
  unfold stageReinline
  split
  · next format parameters he =>
    rw [hexpr] at he
    have hchildren : t.children x = parameters.values := children_of_expr? he
    have hparameters := expr_of_parameter hwf hx he
    have hold : ∀ entry ∈ parameters.entries, sofar.2.expr? entry.2 = t.expr? entry.2 :=
      fun entry hentry =>
        expr?_congr (hs.keeps.kind_eq _ (hwf.lt_size (hparameters entry hentry).1))
    have hsome : ∀ entry ∈ parameters.entries, (sofar.2.expr? entry.2).isSome :=
      fun entry hentry => hold entry hentry ▸ (hparameters entry hentry).2
    -- What is staged for other strings does not matter: the operands are those of `t`.
    rw [reinline?_eq format hsome, inlinable_congr hold]
    cases hanswer : reinlined? format parameters (inlinable t parameters) with
    | none =>
      refine ⟨sofar, rfl, .inl ⟨rfl, ?_⟩⟩
      rintro e he' ⟨format, parameters, rfl, hsome⟩
      cases he.symm.trans he'
      rw [hanswer] at hsome
      cases hsome
    | some e =>
      have hsub := children_reinlined? hanswer
      rw [← hchildren] at hsub
      refine ⟨_, rfl, .inr ⟨_, rfl, ?_, ?_, ?_, _, he,
        ⟨format, parameters, rfl, Option.isSome_of_eq_some hanswer⟩, ?_⟩⟩
      · rw [isFinal, he]
        rfl
      · exact hs.block_cap hwf hx hfresh (.refl _ _) (.refl _) _
          (hsub.nodup (hwf.nodup hreach)) fun c hc => .inr (hsub.mem hc)
      · exact hs.keeps.size_le
      · rw [inlined, hanswer, Option.getD_some]
        exact expr?_addExpr _ _ _
  · next hne =>
    refine ⟨sofar, rfl, .inl ⟨rfl, ?_⟩⟩
    rintro e he ⟨format, parameters, rfl, -⟩
    exact hne format parameters (hexpr.trans he)

/-- The second tree is the first with parameters turned back. -/
structure Inlined (t t' : Tree) (f : NodeId → NodeId) : Prop extends Rewired t t' f where
  /-- Expressions within reach come from expressions within reach. -/
  old_expr : ∀ z ∈ t'.exprs, ∃ x ∈ t.exprs, f x = z
  expr_eq : ∀ x e, t.expr? x = some e → f x ∈ t'.exprs → x ∈ t.exprs →
    t'.expr? (f x) = some ((inlined t e).mapSlots f)

section Apply

variable (hs : Staged t staged g owner) (hwf : t.WellFormed)
  (hanswers : ∀ x ∈ t.exprs, Reinlines t g x (staged.lookup x))

include hs hwf hanswers

/-- A string leads to its new node at once. -/
theorem follow_reinlined (hx : t.Reaches t.root x) :
    g.follow (fun id => staged.lookup id) x = (staged.lookup x).getD x := by
  obtain ⟨w, hlifts, -, hend⟩ := hs.follow_old hwf hx
  -- A replacement may be an operand of what it replaces; here it is always a new node.
  have hw : w = x := by
    rcases Relation.ReflTransGen.cases_head hlifts with heq | ⟨y, ⟨hlookup, hy⟩, -⟩
    · exact heq.symm
    · have hanswer := hanswers x (hs.key x y hlookup).1
      rw [hlookup] at hanswer
      exact absurd (hwf.lt_size (hx.tail hy)) (Nat.not_lt.mpr hanswer.1)
  subst hw
  rcases hend with ⟨hnone, hfollow⟩ | ⟨y, hsome, -, -, -, hfollow⟩
  · rw [hfollow, hnone, Option.getD_none]
  · rw [hfollow, hsome, Option.getD_some]

/-- The node that an expression leads to holds its inlined form. -/
theorem expr?_follow_reinlined (hx : x ∈ t.exprs) (he : t.expr? x = some e) :
    g.expr? (g.follow (fun id => staged.lookup id) x) = some (inlined t e) := by
  have hreach := (hwf.mem_exprs.mp hx).1
  have hanswer := hanswers x hx
  rw [follow_reinlined hs hwf hanswers hreach]
  cases hlookup : staged.lookup x with
  | none =>
    rw [hlookup] at hanswer
    rw [Option.getD_none, inlined_of_not_reinlinable (hanswer e he),
      expr?_congr (hs.keeps.kind_eq x (hwf.lt_size hreach)), he]
  | some y =>
    rw [hlookup] at hanswer
    obtain ⟨-, e', he', -, hy⟩ := hanswer
    obtain rfl := Option.some.inj (he.symm.trans he')
    rw [Option.getD_some, hy]

/-- Nothing comes within reach but what old nodes within reach lead to. -/
theorem exists_follow_reinlined {z : NodeId}
    (hz : g.ReachesAfter (fun id => staged.lookup id) g.root z) :
    ∃ x, t.Reaches t.root x ∧ g.follow (fun id => staged.lookup id) x = z := by
  have hhost : ∀ x, t.Reaches t.root x → t.expr? x = none →
      g.follow (fun id => staged.lookup id) x = x := fun x hx he =>
    follow_of_none (hs.settles hwf hx) (hs.lookup_of_not_expr hwf he)
  induction hz with
  | refl =>
    refine ⟨t.root, .refl, ?_⟩
    rw [hhost t.root .refl hwf.expr?_root, hs.keeps.root_eq]
  | tail _ hstep ih =>
    obtain ⟨x, hx, rfl⟩ := ih
    obtain ⟨c, hc, rfl⟩ := mem_slotsAfter.mp hstep
    refine ⟨c, hx.tail ?_, rfl⟩
    cases he : t.expr? x with
    | none => rwa [hhost x hx he, hs.children_old hwf hx] at hc
    | some e =>
      have hmem := hwf.mem_exprs.mpr ⟨hx, Option.isSome_of_eq_some he⟩
      rw [children_of_expr? (expr?_follow_reinlined hs hwf hanswers hmem he)] at hc
      rw [children_of_expr? he]
      exact (children_inlined t e).mem hc

theorem inlined_apply : Inlined t (g.apply staged).2 (g.follow fun id => staged.lookup id) where
  toRewired := hs.rewired hwf
  old_expr z hz := by
    have hrewired := hs.rewired hwf
    obtain ⟨hreach, hexpr⟩ := hrewired.wellFormed.mem_exprs.mp hz
    obtain ⟨x, hx, rfl⟩ :=
      exists_follow_reinlined hs hwf hanswers ((hs.reaches_apply hwf).mp hreach)
    refine ⟨x, hwf.mem_exprs.mpr ⟨hx, ?_⟩, rfl⟩
    rw [Option.isSome_iff_ne_none]
    intro hnone
    rw [follow_of_none (hs.settles hwf hx) (hs.lookup_of_not_expr hwf hnone),
      hrewired.expr_host hx hnone] at hexpr
    cases hexpr
  expr_eq x e he hz hx := by
    have hreach := ((hs.rewired hwf).wellFormed.mem_exprs.mp hz).1
    exact hs.expr?_apply hwf ((hs.reaches_apply hwf).mp hreach)
      (expr?_follow_reinlined hs hwf hanswers hx he)

end Apply

/-- The replacements of all strings can be made. -/
theorem stageReinline_staged (hwf : t.WellFormed) :
    ∃ after owner, t.exprs.foldlM stageReinline ([], t) = .ok after ∧
      Staged t after.1 after.2 owner ∧
      ∀ x ∈ t.exprs, Reinlines t after.2 x (after.1.lookup x) :=
  Staged.foldlM hwf (fun _ _ _ _ _ _ hs h => h.keep hs) fun _ _ _ hs hx hfresh =>
    stageReinline_spec hwf hs hx hfresh

/-- Turning parameters back succeeds and changes interpolated strings only. -/
theorem reinline_inlined (hwf : t.WellFormed) :
    ∃ after f, reinline t = .ok after ∧ Inlined t after.2 f := by
  obtain ⟨after, owner, hrun, hs, hanswers⟩ := stageReinline_staged hwf
  refine ⟨after.2.apply after.1, _, ?_, inlined_apply hs hwf hanswers⟩
  rw [reinline, hrun]
  rfl

theorem reinline_rewired (hwf : t.WellFormed) :
    ∃ after f, reinline t = .ok after ∧ Rewired t after.2 f := by
  obtain ⟨after, f, hreinline, hinlined⟩ := reinline_inlined hwf
  exact ⟨after, f, hreinline, hinlined.toRewired⟩

/-- Where no string has parameters that can go back, nothing changes. -/
theorem reinline_of_none
    (h : ∀ x ∈ t.exprs, ∀ format parameters, t.expr? x = some (.sub format parameters) →
      reinline? t format parameters = .ok none) :
    reinline t = .ok (0, t) := by
  have hstep : ∀ x ∈ t.exprs, stageReinline ([], t) x = .ok ([], t) := by
    intro x hx
    unfold stageReinline
    split
    · next format parameters he =>
      rw [h x hx format parameters he]
      rfl
    · rfl
  rw [reinline, foldlM_of_fixed hstep]
  rfl

theorem reinline_of_no_sub
    (h : ∀ x ∈ t.exprs, ∀ format parameters, t.expr? x ≠ some (.sub format parameters)) :
    reinline t = .ok (0, t) :=
  reinline_of_none fun x hx format parameters he => absurd he (h x hx format parameters)

end StackTemplate.Fold
