import StackTemplate.Proofs.Fold.Irreducible
import StackTemplate.Proofs.Fold.Reinlining
import StackTemplate.Proofs.Fold.Termination

/-!
# Folding twice

Turning parameters back changes interpolated strings only, so all that the other expressions are
folded by stays the same (`Inlined.literal?_eq`, `Inlined.conditionValue?_eq`,
`Inlined.mapped?_eq`), and what was settled once stays settled (`Inlined.reinline_eq`). But two
things come about that no pass looks at any more:

* A string whose parameters no placeholder names loses them all the same. It may be left with
  neither parameters nor placeholders, and such a string is folded into a literal.
* A parameter that goes back is a reference no longer. If it closed a circle of aliases, then these
  are not circular any more, and references to them are folded.

Folding again changes nothing just when neither has happened (`evaluate_again_iff`).
-/

namespace StackTemplate.Fold

open StackTemplate.Tree

variable {t t' : Tree} {directory : Directory} {f : NodeId → NodeId} {x c : NodeId} {e : Expr}
  {format : String} {parameters : Table NodeId}

/-! ### What turning back keeps -/

/-- An expression within reach that is within reach afterwards. -/
def Remains (t t' : Tree) (f : NodeId → NodeId) (x : NodeId) : Prop :=
  x ∈ t.exprs ∧ f x ∈ t'.exprs

section Inlined

variable (h : Inlined t t' f) (hwf : t.WellFormed)

include h hwf

theorem Inlined.remains_child (hx : Remains t t' f x) (he : t.expr? x = some e)
    (hc : c ∈ (inlined t e).children) : Remains t t' f c := by
  obtain ⟨hreach, hsome⟩ := hwf.mem_exprs.mp hx.1
  obtain ⟨hreach', hsome'⟩ := h.wellFormed.mem_exprs.mp hx.2
  have hmem : c ∈ t.children x := by
    rw [children_of_expr? he]
    exact (children_inlined t e).mem hc
  have hmem' : f c ∈ t'.children (f x) := by
    rw [children_of_expr? (h.expr_eq x e he hx.2 hx.1), Expr.children_mapSlots]
    exact List.mem_map_of_mem hc
  exact ⟨hwf.mem_exprs.mpr ⟨hreach.tail hmem, hwf.expr_of_child hreach hsome hmem⟩,
    h.wellFormed.mem_exprs.mpr
      ⟨hreach'.tail hmem', h.wellFormed.expr_of_child hreach' hsome' hmem'⟩⟩

theorem Inlined.remains_declared {field : Decl → Option NodeId} {name : String} {id : NodeId}
    (hbound : Bound t directory) (hfield : IsField field)
    (hid : declared? t directory field name = some id) : Remains t t' f id := by
  have hid' : declared? t' directory field name = some (f id) := by
    rw [declared?_rewired hbound hfield h.toRewired, hid, Option.map_some]
  exact ⟨hwf.mem_exprs.mpr (expr_of_declared? hwf hbound hfield hid),
    h.wellFormed.mem_exprs.mpr
      (expr_of_declared? h.wellFormed (bound_rewired hbound h.toRewired) hfield hid')⟩

/-- Afterwards an expression is its inlined form over where the operands lead. -/
theorem Inlined.exists_expr (hx : Remains t t' f x) :
    ∃ e, t.expr? x = some e ∧ t'.expr? (f x) = some ((inlined t e).mapSlots f) := by
  obtain ⟨e, he⟩ := Option.isSome_iff_exists.mp (hwf.mem_exprs.mp hx.1).2
  exact ⟨e, he, h.expr_eq x e he hx.2 hx.1⟩

theorem Inlined.literal?_eq (hx : Remains t t' f x) : t'.literal? (f x) = t.literal? x := by
  obtain ⟨e, he, he'⟩ := h.exists_expr hwf hx
  rw [Tree.literal?, Tree.literal?, he, he']
  cases e with
  | sub format parameters =>
    obtain ⟨newFormat, left, heq⟩ := inlined_sub t format parameters
    rw [heq]
    rfl
  | _ => rfl

theorem Inlined.inlineTarget?_eq (hx : Remains t t' f x) :
    (t'.expr? (f x)).bind inlineTarget? = (t.expr? x).bind inlineTarget? := by
  obtain ⟨e, he, he'⟩ := h.exists_expr hwf hx
  rw [he, he']
  cases e with
  | sub format parameters =>
    obtain ⟨newFormat, left, heq⟩ := inlined_sub t format parameters
    rw [heq]
    rfl
  | _ => rfl

theorem Inlined.objectField?_eq (hx : Remains t t' f x) (key : String) :
    objectField? t' (f x) key = (objectField? t x key).map f := by
  obtain ⟨e, he, he'⟩ := h.exists_expr hwf hx
  rw [objectField?, objectField?, he, he']
  cases e with
  | object fields => exact Table.get?_mapValues f fields key
  | sub format parameters =>
    obtain ⟨newFormat, left, heq⟩ := inlined_sub t format parameters
    rw [heq]
    rfl
  | _ => rfl

theorem Inlined.remains_field {id : NodeId} {key : String} (hx : Remains t t' f x)
    (hid : objectField? t x key = some id) : Remains t t' f id := by
  unfold objectField? at hid
  split at hid
  · next fields he =>
    refine h.remains_child hwf hx he ?_
    exact List.mem_map_of_mem (Table.get?_eq_some.mp hid)
  · cases hid

/-- Constants stay constants, and nothing else becomes one. -/
theorem Inlined.isConstant_eq (hx : Remains t t' f x) :
    (t'.term (f x)).isConstant = (t.term x).isConstant := by
  have hgrounded := hwf.grounded_of_reaches (hwf.mem_exprs.mp hx.1).1
  induction hgrounded with
  | @intro x lt below ih =>
    obtain ⟨e, he, he'⟩ := h.exists_expr hwf hx
    have hgrounded' := h.wellFormed.grounded_of_reaches (h.wellFormed.mem_exprs.mp hx.2).1
    rw [term_eq (.intro lt below) he, term_eq hgrounded' he', Expr.children_mapSlots, List.map_map]
    by_cases hsub : ∃ format parameters, e = .sub format parameters
    · obtain ⟨format, parameters, rfl⟩ := hsub
      obtain ⟨newFormat, left, heq⟩ := inlined_sub t format parameters
      rw [heq, Bool.eq_iff_iff, Term.isConstant_node, Term.isConstant_node]
      simp [Expr.mapSlots, Expr.head, Head.isData]
    · have hsame : inlined t e = e := inlined_of_ne_sub fun format parameters heq =>
        hsub ⟨format, parameters, heq⟩
      have hoperands : ∀ c ∈ e.children,
          (t'.term (f c)).isConstant = (t.term c).isConstant := by
        intro c hc
        have hmem : c ∈ t.children x := by rwa [children_of_expr? he]
        exact ih c hmem (h.remains_child hwf hx he (by rwa [hsame]))
      rw [hsame, Expr.head_mapSlots, Bool.eq_iff_iff, Term.isConstant_node, Term.isConstant_node,
        List.forall_mem_map, List.forall_mem_map]
      refine and_congr_right fun _ => forall₂_congr fun c hc => ?_
      rw [Function.comp_apply, hoperands c hc]

theorem Inlined.isLiteralTree_eq (hx : Remains t t' f x) :
    isLiteralTree t' (f x) = isLiteralTree t x := by
  have hterm : ∀ {t : Tree} {x : NodeId}, t.WellFormed → x ∈ t.exprs →
      isLiteralTree t x = (t.term x).isConstant := by
    intro t x hwf hx
    obtain ⟨hreach, hsome⟩ := hwf.mem_exprs.mp hx
    exact isLiteralWithin_eq (within_of_grounded (hwf.grounded_of_reaches hreach))
      fun z hz => hwf.expr_of_reaches hreach hsome hz
  rw [hterm h.wellFormed hx.2, hterm hwf hx.1, h.isConstant_eq hwf hx]

/-- The look-ups in a mapping lead to where their answers have gone. -/
theorem Inlined.mapped?_eq (hbound : Bound t directory) (mapName top second : String) :
    mapped? t' directory mapName top second = (mapped? t directory mapName top second).map f := by
  rw [mapped?, mapped?, declared?_rewired hbound isField_mappingValue? h.toRewired]
  cases hvalue : declared? t directory Decl.mappingValue? mapName with
  | none => rfl
  | some value =>
    have hv := h.remains_declared hwf hbound isField_mappingValue? hvalue
    simp only [Option.map_some, Option.bind_some, h.objectField?_eq hwf hv]
    cases hlevel : objectField? t value top with
    | none => rfl
    | some level =>
      have hl := h.remains_field hwf hv hlevel
      simp only [Option.map_some, Option.bind_some, h.objectField?_eq hwf hl]
      cases hfound : objectField? t level second with
      | none => rfl
      | some found =>
        have hconstant := h.isLiteralTree_eq hwf (h.remains_field hwf hl hfound)
        simp only [Option.map_some, Option.bind_some, hconstant]
        split <;> rfl

theorem Inlined.conditionValue?_eq (hbound : Bound t directory) (name : String) :
    (declared? t' directory Decl.conditionValue? name).bind t'.bool? =
      (declared? t directory Decl.conditionValue? name).bind t.bool? := by
  rw [declared?_rewired hbound isField_conditionValue? h.toRewired]
  cases hvalue : declared? t directory Decl.conditionValue? name with
  | none => rfl
  | some value =>
    have hremains := h.remains_declared hwf hbound isField_conditionValue? hvalue
    exact bool?_congr (h.literal?_eq hwf hremains)

/-- An expression that keeps its form and is no reference cannot be folded if it could not be folded
before. -/
theorem Inlined.reduct?_of_same {cyclic : List String} (cyclic' : List String)
    (hbound : Bound t directory) (hx : Remains t t' f x) (he : t.expr? x = some e)
    (hsame : inlined t e = e) (href : ∀ name, e ≠ .ref name)
    (hnone : reduct? t directory cyclic e = none) :
    reduct? t' directory cyclic' (e.mapSlots f) = none := by
  refine reduct?_mapSlots _ (fun c hc => ?_) (h.conditionValue?_eq hwf hbound)
    (fun mapName top second hnone => ?_) href hnone
  · exact h.literal?_eq hwf (h.remains_child hwf hx he (by rwa [hsame]))
  · rw [h.mapped?_eq hwf hbound, hnone, Option.map_none]

end Inlined

/-! ### What can be folded afterwards -/

/-- A string whose parameters go back has no literal parameter, if it could not be folded. -/
theorem literalTexts_of_reinlined? (hstays : sub? t format parameters = none)
    (hinlined : reinlined? format parameters (inlinable t parameters) = some e) :
    literalTexts t parameters = [] := by
  obtain ⟨hattribute, hne, newFormat, hformat, -⟩ := reinlined?_eq_some.mp hinlined
  rcases sub?_eq_none.mp hstays with hattribute' | ⟨hnone, -⟩ | ⟨-, hmalformed⟩
  · rw [hattribute] at hattribute'
    cases hattribute'
  · exact hnone
  · -- The format can be cut into segments, and a parameter that goes back is no literal.
    obtain ⟨segments, hsegments⟩ : ∃ segments, Format.segments format = .ok segments := by
      rw [Format.replacePlaceholders] at hformat
      cases hsegments : Format.segments format with
      | error malformed => rw [hsegments] at hformat; cases hformat
      | ok segments => exact ⟨segments, rfl⟩
    have hspliced := hmalformed _ (by rw [Format.replacePlaceholders, hsegments]; rfl)
    obtain ⟨⟨name, target⟩, htarget⟩ := List.exists_mem_of_ne_nil _ hne
    obtain ⟨id, e, hmem, he, htarget⟩ :=
      mem_inlinable.mp ((settled_sublist _ _).subset htarget)
    have hleft : (name, id) ∈
        (parameters.filter fun _ id => (t.literal? id).isNone).entries := by
      refine List.mem_filter.mpr ⟨hmem, ?_⟩
      show (t.literal? id).isNone = true
      rw [Tree.literal?, he]
      cases e <;> first | rfl | cases htarget
    rw [List.isEmpty_iff.mp hspliced.1] at hleft
    cases hleft

/-- The string that replaces it has none either. -/
theorem Inlined.literalTexts_eq_nil {newFormat : String} {left : Table NodeId}
    (h : Inlined t t' f) (hwf : t.WellFormed) (hx : Remains t t' f x)
    (he : t.expr? x = some (.sub format parameters)) (hstays : sub? t format parameters = none)
    (hinlined : reinlined? format parameters (inlinable t parameters) =
      some (.sub newFormat left)) :
    literalTexts t' (left.mapValues f) = [] := by
  have hliteral := literalTexts_of_reinlined? hstays hinlined
  have hchildren : (inlined t (.sub format parameters)).children = left.values := by
    rw [inlined, hinlined]
    rfl
  rw [literalTexts_mapValues fun id hid =>
    h.literal?_eq hwf (h.remains_child hwf hx he (hchildren ▸ hid))]
  obtain ⟨-, -, _, -, heq⟩ := reinlined?_eq_some.mp hinlined
  cases heq
  rw [literalTexts, List.filterMap_eq_nil_iff] at hliteral ⊢
  exact fun entry hentry => hliteral entry (List.mem_of_mem_filter hentry)

/-- An interpolated string that is a plain one: it has neither parameters nor placeholders. -/
def IsPlain (format : String) (parameters : Table NodeId) : Prop :=
  parameters.isEmpty = true ∧ Format.placeholders format = .ok []

theorem sub?_ne_none_of_isPlain (h : IsPlain format parameters) :
    sub? t format parameters ≠ none := by
  intro hnone
  have hentries : parameters.entries = [] := List.isEmpty_iff.mp h.1
  rcases sub?_eq_none.mp hnone with hattribute | ⟨-, hplain⟩ | ⟨hliteral, -⟩
  · rw [Format.hasLocalAttribute, h.2] at hattribute
    cases hattribute
  · exact hplain h
  · exact hliteral (by rw [literalTexts, hentries]; rfl)

/-- Turning parameters back leaves something to fold in two cases only: a string lost all its
parameters and has no placeholders, or an alias that was circular no longer is. -/
theorem Inlined.irreducible_iff (h : Inlined t t' f) (hwf : t.WellFormed)
    (hbound : Bound t directory) (hirreducible : Irreducible t directory) :
    Irreducible t' directory ↔
      (∀ z ∈ t'.exprs, ∀ format parameters, t'.expr? z = some (.sub format parameters) →
        ¬ IsPlain format parameters) ∧
      ∀ z ∈ t'.exprs, ∀ name, t'.expr? z = some (.ref name) →
        (substitutionSource? t' directory name).isSome → name ∈ cyclicAliases t' directory := by
  constructor
  · intro hirreducible'
    refine ⟨fun z hz format parameters he hplain => ?_, fun z hz name he hsource => ?_⟩
    · have hnone := hirreducible' z hz
      rw [he] at hnone
      exact sub?_ne_none_of_isPlain hplain hnone
    · have hnone := hirreducible' z hz
      rw [he, Option.bind_some, reduct?] at hnone
      split at hnone
      · next hcyclic => simpa using hcyclic
      · rw [Option.map_eq_none_iff] at hnone
        rw [hnone] at hsource
        cases hsource
  · rintro ⟨hplain, hrefs⟩ z hz
    obtain ⟨x, hx, rfl⟩ := h.old_expr z hz
    have hremains : Remains t t' f x := ⟨hx, hz⟩
    obtain ⟨e, he, he'⟩ := h.exists_expr hwf hremains
    have hnone := hirreducible x hx
    rw [he, Option.bind_some] at hnone
    -- Whether a reference is folded depends on the circles of the whole tree, and nothing else does.
    by_cases href : ∃ name, e = .ref name
    · obtain ⟨name, rfl⟩ := href
      have hsource := hrefs (f x) hz name he'
      rw [he', Option.bind_some]
      show (if (cyclicAliases t' directory).contains name then none else _) = none
      split
      · rfl
      · next hfree =>
        rw [Option.map_eq_none_iff, ← Option.not_isSome_iff_eq_none]
        exact fun hsome => hfree (List.contains_iff_mem.mpr (hsource hsome))
    rcases inlined_cases t e with ⟨hsame, -⟩ | ⟨format, parameters, rfl, hinlined⟩
    · rw [he', hsame]
      exact h.reduct?_of_same hwf _ hbound hremains he hsame (fun name heq => href ⟨name, heq⟩) hnone
    · obtain ⟨-, -, newFormat, -, heq⟩ := reinlined?_eq_some.mp hinlined
      rw [heq] at he' hinlined
      have hliteral := h.literalTexts_eq_nil hwf hremains he hnone hinlined
      rw [he']
      exact sub?_eq_none.mpr (.inr (.inl ⟨hliteral, hplain (f x) hz newFormat _ he'⟩))

/-! ### What can go back afterwards -/

theorem inlinable_mapValues (h : ∀ id ∈ parameters.values,
      (t'.expr? (f id)).bind inlineTarget? = (t.expr? id).bind inlineTarget?) :
    inlinable t' (parameters.mapValues f) = inlinable t parameters := by
  rw [inlinable, inlinable, Table.entries_mapValues, List.filterMap_map]
  refine List.filterMap_congr fun entry hentry => ?_
  simp only [Function.comp_apply]
  rw [h entry.2 (List.mem_map_of_mem hentry)]

theorem reinlined?_mapValues {targets : List (String × String)} (f : NodeId → NodeId)
    (h : reinlined? format parameters targets = none) :
    reinlined? format (parameters.mapValues f) targets = none := by
  have hkeys := Table.keys_mapValues f parameters
  rw [Option.eq_none_iff_forall_ne_some]
  intro e he
  obtain ⟨hattribute, hne, newFormat, hformat, -⟩ := reinlined?_eq_some.mp he
  rw [hasLocalAttribute_congr format hkeys] at hattribute
  rw [settled_congr hkeys] at hne hformat
  have hsome := reinlined?_eq_some.mpr ⟨hattribute, hne, newFormat, hformat, rfl⟩
  rw [h] at hsome
  cases hsome

/-- Once parameters have gone back, no others can. -/
theorem Inlined.reinline_eq (h : Inlined t t' f) (hwf : t.WellFormed) :
    reinline t' = .ok (0, t') := by
  refine reinline_of_none fun z hz newFormat left he' => ?_
  have hparameters := expr_of_parameter h.wellFormed hz he'
  rw [reinline?_eq newFormat fun entry hentry => (hparameters entry hentry).2]
  refine congrArg Except.ok ?_
  obtain ⟨x, hx, rfl⟩ := h.old_expr z hz
  have hremains : Remains t t' f x := ⟨hx, hz⟩
  obtain ⟨e, he, heq⟩ := h.exists_expr hwf hremains
  have htargets : ∀ id ∈ (inlined t e).children,
      (t'.expr? (f id)).bind inlineTarget? = (t.expr? id).bind inlineTarget? := fun id hid =>
    h.inlineTarget?_eq hwf (h.remains_child hwf hremains he hid)
  rw [he'] at heq
  rcases inlined_cases t e with ⟨hsame, hnone⟩ | ⟨format, parameters, rfl, hinlined⟩
  · rw [hsame] at heq htargets
    cases e with
    | sub format parameters =>
      cases heq
      rw [inlinable_mapValues htargets]
      exact reinlined?_mapValues f (hnone _ parameters rfl)
    | _ => cases heq
  · obtain ⟨-, -, _, -, hsub⟩ := reinlined?_eq_some.mp hinlined
    rw [hsub] at heq htargets hinlined
    cases heq
    rw [inlinable_mapValues htargets]
    exact reinlined?_mapValues f (reinlined?_of_reinlined? hinlined)

/-! ### Running again -/

/-- A run that ends does so with a pass that changes nothing. -/
theorem Folding.exists_of_run {s s' : Folding} {fuel : Nat}
    (h : s.run directory fuel = (true, s')) :
    ∃ n, s.changes directory n = 0 ∧ s' = s.after directory (n + 1) := by
  induction fuel generalizing s with
  | zero => cases h
  | succ fuel ih =>
    rw [run] at h
    by_cases hcount : (s.pass directory).1 = 0
    · simp only [hcount, if_true, Prod.mk.injEq, true_and] at h
      exact ⟨0, hcount, h.symm⟩
    · simp only [hcount, if_false] at h
      obtain ⟨n, hn, rfl⟩ := ih h
      refine ⟨n + 1, ?_, after_pass directory (n + 1) s⟩
      rwa [changes, after_pass] at hn

/-- Folding ends after a pass over a tree in which nothing can be folded, and turns parameters of
that tree back. -/
theorem exists_last_of_finished {fuel : Nat} {after : Evaluation} {stats : Stats}
    (hwf : t.WellFormed) (hbound : Bound t directory)
    (h : evaluate t directory fuel = .ok after) (hfinished : after.outcome = .finished stats) :
    ∃ (last : Folding) (n : Nat) (f : NodeId → NodeId),
      last = Folding.after directory n { tree := t } ∧
      after.diagnostics = (last.pass directory).2.diagnostics ∧
      last.tree.WellFormed ∧ Bound last.tree directory ∧ Irreducible last.tree directory ∧
      Inlined last.tree after.tree f := by
  rw [evaluate] at h
  split at h
  next s hrun =>
    -- Out of fuel.
    obtain rfl := Except.ok.inj h
    cases hfinished
  next s hrun =>
    obtain ⟨n, hcount, rfl⟩ := Folding.exists_of_run hrun
    obtain ⟨f, hf⟩ := after_rewired (s := { tree := t }) hwf hbound n
    have hbound' := bound_rewired hbound hf
    have hirreducible := (pass_eq_zero_iff hf.wellFormed hbound').mp hcount
    obtain ⟨result, f', hreinline, hinlined⟩ := reinline_inlined hf.wellFormed
    rw [Folding.after_succ, (pass_of_irreducible hirreducible).2, hreinline] at h
    obtain rfl := Except.ok.inj h
    exact ⟨_, n, f', rfl, rfl, hf.wellFormed, hbound', hirreducible, hinlined⟩

/-- What folding ends with is a tree in which nothing can be folded, with parameters turned
back. -/
theorem exists_inlined_of_finished {fuel : Nat} {after : Evaluation} {stats : Stats}
    (hwf : t.WellFormed) (hbound : Bound t directory)
    (h : evaluate t directory fuel = .ok after) (hfinished : after.outcome = .finished stats) :
    ∃ s f, s.WellFormed ∧ Bound s directory ∧ Irreducible s directory ∧ Inlined s after.tree f := by
  obtain ⟨last, _, f, -, -, hlast⟩ := exists_last_of_finished hwf hbound h hfinished
  exact ⟨last.tree, f, hlast⟩

/-- Where nothing can be folded and no parameters can go back, folding takes one pass and changes
nothing. -/
theorem evaluate_of_irreducible (hirreducible : Irreducible t directory)
    (hreinline : reinline t = .ok (0, t)) {fuel : Nat} (hfuel : 1 ≤ fuel) :
    ∃ again, evaluate t directory fuel = .ok again ∧
      again.outcome = .finished { passes := 1, substitutions := 0, reinlined := 0 } ∧
      again.tree = t := by
  obtain ⟨hcount, htree⟩ := pass_of_irreducible (s := { tree := t }) hirreducible
  have hrun : Folding.run directory fuel { tree := t } =
      (true, (Folding.pass directory { tree := t }).2) :=
    Folding.run_of_stop hfuel hcount fun n hn => absurd hn (Nat.not_lt_zero n)
  have hsubstitutions : (Folding.pass directory { tree := t }).2.substitutions = 0 := by
    show 0 + (Folding.pass directory { tree := t }).1 = 0
    rw [hcount]
  rw [evaluate, hrun]
  simp only [htree, hreinline]
  refine ⟨_, rfl, ?_, rfl⟩
  rw [hsubstitutions]
  rfl

/-- Folding what folding has given takes one pass and changes nothing just when turning parameters
back has left no string that is a plain one, and no reference to an alias that was circular and no
longer is. -/
theorem evaluate_again_iff {fuel : Nat} {after : Evaluation} {stats : Stats}
    (hwf : t.WellFormed) (hbound : Bound t directory)
    (h : evaluate t directory fuel = .ok after) (hfinished : after.outcome = .finished stats) :
    (∀ fuel' ≥ 1, ∃ again, evaluate after.tree directory fuel' = .ok again ∧
      again.outcome = .finished { passes := 1, substitutions := 0, reinlined := 0 } ∧
      again.tree = after.tree) ↔
    (∀ x ∈ after.tree.exprs, ∀ format parameters,
      after.tree.expr? x = some (.sub format parameters) → ¬ IsPlain format parameters) ∧
    ∀ x ∈ after.tree.exprs, ∀ name, after.tree.expr? x = some (.ref name) →
      (substitutionSource? after.tree directory name).isSome →
        name ∈ cyclicAliases after.tree directory := by
  obtain ⟨s, f, hs, hbound', hirreducible, hinlined⟩ :=
    exists_inlined_of_finished hwf hbound h hfinished
  rw [← hinlined.irreducible_iff hs hbound' hirreducible]
  constructor
  · intro hagain
    obtain ⟨again, hevaluate, houtcome, -⟩ := hagain 1 (Nat.le_refl 1)
    refine (pass_eq_zero_iff (s := { tree := after.tree }) hinlined.wellFormed
      (bound_rewired hbound' hinlined.toRewired)).mp ?_
    -- With fuel for one pass, folding ends only if that pass changes nothing.
    by_contra hcount
    rw [evaluate, Folding.run_of_changes fun n hn => by rwa [Nat.lt_one_iff.mp hn]] at hevaluate
    obtain rfl := Except.ok.inj hevaluate
    cases houtcome
  · exact fun hirreducible' fuel' hfuel =>
      evaluate_of_irreducible hirreducible' (hinlined.reinline_eq hs) hfuel

/-- A parameter, and a variable that is a string with a reference to it as its own parameter. -/
def naming (format : String) : Tree where
  nodes := #[
    { kind := .decl { localName := "X", kind := .parameter default }, span := default,
      parent := some 4 },
    { kind := .expr (.ref "X"), span := default, parent := some 2 },
    { kind := .expr (.sub format ⟨[("A", 1)], by decide⟩), span := default, parent := some 3 },
    { kind := .decl { localName := "V", kind := .var none 2 }, span := default,
      parent := some 4 },
    { kind := .module { name := "naming", items := [0, 3] }, span := default }]
  root := 4

/-- The directory of that module. -/
def namingDirectory : Directory where
  items := ⟨[("X", 0), ("V", 3)], by decide⟩

theorem naming_bound (format : String) : Bound (naming format) namingDirectory := by
  refine .ofEntries fun entry hentry => ⟨Reaches.refl.tail ?_, ?_⟩
  · exact (show ∀ entry ∈ namingDirectory.entries, entry.2 ∈ [0, 3] by decide) entry hentry
  · rcases List.mem_cons.mp hentry with rfl | hentry
    · rfl
    · rw [List.mem_singleton.mp hentry]
      rfl

theorem eq_ok_of_toOption {ε α : Type} {r : Except ε α} {a : α} (h : r.toOption = some a) :
    r = .ok a := by
  cases r with
  | error _ => cases h
  | ok _ => exact congrArg Except.ok (Option.some.inj h)

theorem naming_again :
    ∃ after, evaluate (naming "v-${A}") namingDirectory 1 = .ok after ∧
      ∀ fuel ≥ 1, ∃ again, evaluate after.tree namingDirectory fuel = .ok again ∧
        again.outcome = .finished { passes := 1, substitutions := 0, reinlined := 0 } ∧
        again.tree = after.tree := by
  have hwf : (naming "v-${A}").WellFormed := by
    refine .ofAll (m := { name := "naming", items := [0, 3] }) rfl rfl ?_
    decide +kernel
  have hresult : ((evaluate (naming "v-${A}") namingDirectory 1).toOption.map fun after =>
      (after.outcome, after.tree.exprs.map after.tree.expr?)) =
        some (.finished { passes := 1, substitutions := 0, reinlined := 1 },
          [some (.sub "v-${X}" .empty)]) := by
    decide +kernel
  obtain ⟨after, hafter, heq⟩ := Option.map_eq_some_iff.mp hresult
  obtain ⟨hfinished, hexprs⟩ := Prod.mk.inj heq
  have hafter := eq_ok_of_toOption hafter
  have hexpr : ∀ x ∈ after.tree.exprs, after.tree.expr? x = some (.sub "v-${X}" .empty) := by
    intro x hx
    exact List.mem_singleton.mp (hexprs ▸ List.mem_map_of_mem hx)
  refine ⟨after, hafter, (evaluate_again_iff hwf (naming_bound _) hafter hfinished).mpr ⟨?_, ?_⟩⟩
  · intro x hx format parameters he hplain
    rw [hexpr x hx] at he
    cases he
    exact absurd hplain.2 (by decide +kernel)
  · intro x hx name he
    rw [hexpr x hx] at he
    cases he

/-- Without a placeholder the parameter goes too, and the string that is left becomes a literal when
the result is folded again. -/
theorem naming_folded_later :
    (naming "hello").WellFormed ∧ Bound (naming "hello") namingDirectory ∧
      ∃ after again, evaluate (naming "hello") namingDirectory 1 = .ok after ∧
        after.outcome = .finished { passes := 1, substitutions := 0, reinlined := 1 } ∧
        evaluate after.tree namingDirectory 2 = .ok again ∧
        again.outcome = .finished { passes := 2, substitutions := 1, reinlined := 0 } := by
  refine ⟨?_, naming_bound _, ?_⟩
  · refine .ofAll (m := { name := "naming", items := [0, 3] }) rfl rfl ?_
    decide +kernel
  · have hresult : ((evaluate (naming "hello") namingDirectory 1).toOption.bind fun after =>
        (evaluate after.tree namingDirectory 2).toOption.map fun again =>
          (after.outcome, again.outcome)) =
        some (.finished { passes := 1, substitutions := 0, reinlined := 1 },
          .finished { passes := 2, substitutions := 1, reinlined := 0 }) := by
      decide +kernel
    obtain ⟨after, hafter, hresult⟩ := Option.bind_eq_some_iff.mp hresult
    obtain ⟨again, hagain, heq⟩ := Option.map_eq_some_iff.mp hresult
    obtain ⟨hfirst, hsecond⟩ := Prod.mk.inj heq
    exact ⟨after, again, eq_ok_of_toOption hafter, hfirst, eq_ok_of_toOption hagain, hsecond⟩

end StackTemplate.Fold
