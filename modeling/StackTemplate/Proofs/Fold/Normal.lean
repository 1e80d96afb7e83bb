import StackTemplate.Proofs.Fold.Idempotence

/-!
# What is left after folding

`Redex` lists the expressions that folding gets rid of, and does not mention how it does so: each
case says what the operands are, and what the tree declares. When folding has finished, no such
expression is within reach, although the strings whose parameters went back were rewritten after the
last pass; and a reference with a substitution source is left only if its name was reported as
circular (`evaluate_normal`).
-/

namespace StackTemplate.Fold

open StackTemplate.Tree

variable {t : Tree} {directory : Directory} {cyclic : List String} {x : NodeId} {e : Expr}

/-! ### Expressions that can be folded -/

/-- The subtree at an id is made of literals, lists and objects. -/
inductive Constant (t : Tree) : NodeId → Prop where
  | literal {x : NodeId} {l : Literal} (here : t.expr? x = some (.literal l)) : Constant t x
  | list {x : NodeId} {items : List NodeId} (here : t.expr? x = some (.list items))
      (below : ∀ c ∈ items, Constant t c) : Constant t x
  | object {x : NodeId} {fields : Table NodeId} (here : t.expr? x = some (.object fields))
      (below : ∀ c ∈ fields.values, Constant t c) : Constant t x

/-- The node at an id is a literal. -/
def IsLiteral (t : Tree) (id : NodeId) : Prop := ∃ l, t.expr? id = some (.literal l)

/-- The node at an id is the literal of a truth value. -/
def IsBool (t : Tree) (id : NodeId) : Prop :=
  ∃ l b, t.expr? id = some (.literal l) ∧ l.value = .bool b

/-- The node at an id is the literal of a string. -/
def IsString (t : Tree) (id : NodeId) (s : String) : Prop :=
  ∃ l, t.expr? id = some (.literal l) ∧ l.value = .string s

/-- The name is declared, and its declaration is of some kind. -/
def Declares (t : Tree) (directory : Directory) (name : String) (kind : DeclKind) : Prop :=
  ∃ id d, directory.get? name = some id ∧ t.decl? id = some d ∧ d.kind = kind

/-- The expression can be folded. References and interpolated strings are not among these. -/
inductive Redex (t : Tree) (directory : Directory) : Expr → Prop where
  | isDefined (name : String) : Redex t directory (.isDefined name)
  | not {value : NodeId} (operand : IsBool t value) : Redex t directory (.not value)
  | and {lhs rhs : NodeId} (operand : IsBool t lhs ∨ IsBool t rhs) :
      Redex t directory (.and lhs rhs)
  | or {lhs rhs : NodeId} (operand : IsBool t lhs ∨ IsBool t rhs) :
      Redex t directory (.or lhs rhs)
  | ifElse {condition ifTrue ifFalse : NodeId} (operand : IsBool t condition) :
      Redex t directory (.ifElse condition ifTrue ifFalse)
  | equals {lhs rhs : NodeId} (left : IsLiteral t lhs) (right : IsLiteral t rhs) :
      Redex t directory (.equals lhs rhs)
  | conditionRef {name : String} {value : NodeId}
      (declared : Declares t directory name (.condition value)) (constant : IsBool t value) :
      Redex t directory (.conditionRef name)
  | shortJoin {delimiter : String} {values : List NodeId} (short : values.length < 2) :
      Redex t directory (.join delimiter values)
  | join {delimiter : String} {before after : List NodeId} {first second : NodeId}
      (left : IsLiteral t first) (right : IsLiteral t second) :
      Redex t directory (.join delimiter (before ++ first :: second :: after))
  | select {index : NodeId} {values : List NodeId} {l : Literal} {i : Nat}
      (literal : t.expr? index = some (.literal l)) (number : l.value.asIndex? = some i)
      (inRange : i < values.length) : Redex t directory (.select index values)
  | split {delimiter source : NodeId} {separator text : String}
      (left : IsString t delimiter separator) (right : IsString t source text)
      (nonempty : separator ≠ "") : Redex t directory (.split delimiter source)
  | findInMap {mapName : String} {topKey secondKey value level found : NodeId}
      {top second : Literal} {levels fields : Table NodeId}
      (topLiteral : t.expr? topKey = some (.literal top))
      (secondLiteral : t.expr? secondKey = some (.literal second))
      (declared : Declares t directory mapName (.mapping value))
      (outer : t.expr? value = some (.object levels))
      (levelAt : levels.get? top.value.toText = some level)
      (inner : t.expr? level = some (.object fields))
      (foundAt : fields.get? second.value.toText = some found)
      (constant : Constant t found) : Redex t directory (.findInMap mapName topKey secondKey)

/-! ### A pass folds them -/

theorem isSome_literal? (h : IsLiteral t x) : (t.literal? x).isSome := by
  obtain ⟨l, he⟩ := h
  rw [Tree.literal?, he]
  rfl

theorem isSome_bool? (h : IsBool t x) : (t.bool? x).isSome := by
  obtain ⟨l, b, he, hb⟩ := h
  rw [Tree.bool?, Tree.literal?, he, Option.bind_some, Expr.literal?, Option.bind_some,
    Literal.asBool?, hb]
  rfl

theorem isLiteralWithin_of_constant {depth : Nat} (h : Constant t x)
    (hx : Within t.children t.size depth x) : isLiteralWithin t depth x = true := by
  induction h generalizing depth with
  | literal here =>
    cases depth with
    | zero => exact hx.elim
    | succ depth => rw [isLiteralWithin, here]
  | list here below ih =>
    cases depth with
    | zero => exact hx.elim
    | succ depth =>
      rw [isLiteralWithin, here]
      refine List.all_eq_true.mpr fun c hc => ih c hc (hx.2 c ?_)
      rwa [children_of_expr? here]
  | object here below ih =>
    cases depth with
    | zero => exact hx.elim
    | succ depth =>
      rw [isLiteralWithin, here]
      refine List.all_eq_true.mpr fun c hc => ih c hc (hx.2 c ?_)
      rwa [children_of_expr? here]

/-- A group that stands first begins with the first element. -/
theorem runs_cons {α : Type} (p : α → Bool) (a : α) (rest : List α) :
    ∃ run others, runs p (a :: rest) = (a :: run) :: others := by
  rw [runs]
  split
  · split
    · exact ⟨_, _, rfl⟩
    · exact ⟨_, _, rfl⟩
  · exact ⟨_, _, rfl⟩

/-- Neighbours that pass the test are in one group. -/
theorem exists_long_run {α : Type} {p : α → Bool} {a b : α} (ha : p a = true) (hb : p b = true)
    (before after : List α) :
    ∃ run ∈ runs p (before ++ a :: b :: after), 1 < run.length := by
  induction before with
  | nil =>
    obtain ⟨run, others, heq⟩ := runs_cons p b after
    refine ⟨a :: b :: run, ?_, by simp⟩
    rw [List.nil_append, runs, heq]
    simp [ha, hb]
  | cons c before ih =>
    obtain ⟨long, hlong, hlength⟩ := ih
    rw [List.cons_append, runs]
    split
    · next next run others heq =>
      rw [heq] at hlong
      split
      · rcases List.mem_cons.mp hlong with rfl | hlong
        · exact ⟨_, List.mem_cons_self .., by simp⟩
        · exact ⟨long, List.mem_cons_of_mem _ hlong, hlength⟩
      · exact ⟨long, List.mem_cons_of_mem _ hlong, hlength⟩
    · exact ⟨long, List.mem_cons_of_mem _ hlong, hlength⟩

theorem join?_ne_none_of_neighbours {delimiter : String} {before after : List NodeId}
    {first second : NodeId} (hfirst : IsLiteral t first) (hsecond : IsLiteral t second) :
    join? t delimiter (before ++ first :: second :: after) ≠ none := by
  intro hnone
  obtain ⟨-, -, hruns⟩ := join?_eq_none.mp hnone
  rw [List.map_append, List.map_cons, List.map_cons, List.any_eq_false] at hruns
  obtain ⟨run, hrun, hlength⟩ := exists_long_run (isSome_literal? hfirst) (isSome_literal? hsecond)
    (before.map t.literal?) (after.map t.literal?)
  exact hruns run hrun (decide_eq_true hlength)

theorem logic?_isSome {dominant : Bool} {lhs rhs : NodeId} (h : IsBool t lhs ∨ IsBool t rhs) :
    (logic? t dominant lhs rhs).isSome := by
  unfold logic?
  cases hl : t.bool? lhs with
  | some l => simp only; split <;> rfl
  | none =>
    cases hr : t.bool? rhs with
    | some r => simp only; split <;> rfl
    | none =>
      rcases h with h | h
      · simpa [hl] using isSome_bool? h
      · simpa [hr] using isSome_bool? h

theorem declared?_of_declares {name : String} {kind : DeclKind} {field : Decl → Option NodeId}
    {value : NodeId} (h : Declares t directory name kind)
    (hfield : ∀ d : Decl, d.kind = kind → field d = some value) :
    declared? t directory field name = some value := by
  obtain ⟨id, d, hid, hd, hkind⟩ := h
  rw [declared?, hid, Option.bind_some, hd, Option.bind_some, hfield d hkind]

theorem objectField?_eq_some {object id : NodeId} {fields : Table NodeId} {key : String}
    (he : t.expr? object = some (.object fields)) (hid : fields.get? key = some id) :
    objectField? t object key = some id ∧ id ∈ t.children object := by
  refine ⟨?_, ?_⟩
  · rw [objectField?, he]
    exact hid
  · rw [children_of_expr? he]
    exact List.mem_map_of_mem (Table.get?_eq_some.mp hid)

/-- What is a redex is folded by a pass. -/
theorem reduct?_ne_none_of_redex (hwf : t.WellFormed) (hbound : Bound t directory)
    (h : Redex t directory e) (cyclic : List String) : reduct? t directory cyclic e ≠ none := by
  rw [← Option.isSome_iff_ne_none]
  cases h with
  | isDefined name => rfl
  | not operand =>
    obtain ⟨l, b, he, hb⟩ := operand
    simp [reduct?, Tree.literal?, he, Expr.literal?, Literal.asBool?, hb, Value.asBool?]
  | and operand | or operand =>
    rw [reduct?, Option.isSome_map]
    exact logic?_isSome operand
  | ifElse operand =>
    rw [reduct?, Option.isSome_map]
    exact isSome_bool? operand
  | equals left right =>
    obtain ⟨l, hl⟩ := left
    obtain ⟨r, hr⟩ := right
    simp [reduct?, Tree.literal?, hl, hr, Expr.literal?]
  | @conditionRef name value declared constant =>
    have hvalue : declared? t directory Decl.conditionValue? name = some value :=
      declared?_of_declares declared fun d hd => by rw [Decl.conditionValue?, hd]
    rw [reduct?_conditionRef, hvalue, Option.bind_some, Option.isSome_map]
    exact isSome_bool? constant
  | @shortJoin delimiter values short =>
    cases values with
    | nil => rfl
    | cons single rest =>
      cases rest with
      | nil => rfl
      | cons => exact absurd short (by simp)
  | join left right =>
    exact Option.isSome_iff_ne_none.mpr (join?_ne_none_of_neighbours left right)
  | select literal number inRange =>
    simp [reduct?, Tree.literal?, literal, Expr.literal?, number, inRange]
  | @split delimiter source separator text left right nonempty =>
    obtain ⟨l, hl, hseparator⟩ := left
    obtain ⟨r, hr, htext⟩ := right
    cases hcs : separator.toList with
    | nil => exact absurd (String.toList_eq_nil_iff.mp hcs) nonempty
    | cons c cs =>
      simp [reduct?, Tree.literal?, hl, hr, Expr.literal?, hseparator, htext, Value.asString?,
        Text.splitOn?, hcs]
  | @findInMap mapName topKey secondKey value level found top second levels fields topLiteral
      secondLiteral declared outer levelAt inner foundAt constant =>
    have hvalue : declared? t directory Decl.mappingValue? mapName = some value :=
      declared?_of_declares declared fun d hd => by rw [Decl.mappingValue?, hd]
    obtain ⟨hlevel, hlevelChild⟩ := objectField?_eq_some outer levelAt
    obtain ⟨hfound, hfoundChild⟩ := objectField?_eq_some inner foundAt
    have hreach := (expr_of_declared? hwf hbound isField_mappingValue? hvalue).1
    -- The mapping is in the tree, so its constants end within the depth that is looked through.
    have hgrounded := hwf.grounded_of_reaches ((hreach.tail hlevelChild).tail hfoundChild)
    have hliteral : isLiteralTree t found = true :=
      isLiteralWithin_of_constant constant (within_of_grounded hgrounded)
    rw [reduct?, Option.isSome_map, findInMap?_eq_mapped?, Tree.literal?, topLiteral, Tree.literal?,
      secondLiteral]
    simp only [Option.bind_some, Expr.literal?, mapped?, hvalue, hlevel, hfound, hliteral, if_true]
    rfl

/-! ### Reports of circular aliases -/

/-- The name was reported as that of a circular alias. -/
def ReportsCircular (ds : List Diagnostic) (name : String) : Prop :=
  ∃ span, (Diagnostic.report .circularReference span).detail name ∈ ds

/-- Every declared name that counts as reported has a report. -/
def Folding.Reports (directory : Directory) (s : Folding) : Prop :=
  ∀ name ∈ s.reported, (directory.get? name).isSome → ReportsCircular s.diagnostics name

theorem mem_aliasReports {reported : List String} {name : String} {id : NodeId}
    (hcyclic : name ∈ cyclic) (hnew : name ∉ reported) (hid : directory.get? name = some id) :
    (Diagnostic.report .circularReference (t.span id)).detail name ∈
      aliasReports t directory reported cyclic := by
  refine List.mem_filterMap.mpr ⟨name, List.mem_filter.mpr ⟨hcyclic, ?_⟩, ?_⟩
  · simpa using hnew
  · rw [hid]
    rfl

theorem Folding.pass_reports {s : Folding} (h : s.Reports directory) :
    (s.pass directory).2.Reports directory := by
  intro name hname hdeclared
  have hreported : name ∈ s.reported ++
      (cyclicAliases s.tree directory).filter fun name => !s.reported.contains name := hname
  rcases List.mem_append.mp hreported with hold | hnew
  · obtain ⟨span, hmem⟩ := h name hold hdeclared
    exact ⟨span, List.mem_append_left _ (List.mem_append_left _ hmem)⟩
  · obtain ⟨hcyclic, hfresh⟩ := List.mem_filter.mp hnew
    obtain ⟨id, hid⟩ := Option.isSome_iff_exists.mp hdeclared
    have hmem := mem_aliasReports (t := s.tree) hcyclic (by simpa using hfresh) hid
    exact ⟨s.tree.span id, List.mem_append_left _ (List.mem_append_right _ hmem)⟩

theorem Folding.after_reports {s : Folding} (h : s.Reports directory) (n : Nat) :
    (s.after directory n).Reports directory := by
  induction n with
  | zero => exact h
  | succ n ih =>
    rw [after_succ]
    exact pass_reports ih

/-- After a pass the aliases that were circular count as reported. -/
theorem Folding.mem_reported_pass {s : Folding} {name : String}
    (h : name ∈ cyclicAliases s.tree directory) : name ∈ (s.pass directory).2.reported := by
  show name ∈ s.reported ++
    (cyclicAliases s.tree directory).filter fun name => !s.reported.contains name
  by_cases hold : name ∈ s.reported
  · exact List.mem_append_left _ hold
  · exact List.mem_append_right _ (List.mem_filter.mpr ⟨h, by simpa using hold⟩)

/-! ### The result of folding -/

section Inlined

variable {t' : Tree} {f : NodeId → NodeId} {z : NodeId} (h : Inlined t t' f) (hwf : t.WellFormed)

include h hwf

/-- Turning parameters back makes no redex. -/
theorem Inlined.not_redex (hbound : Bound t directory) (hirreducible : Irreducible t directory)
    (hz : z ∈ t'.exprs) (he : t'.expr? z = some e) : ¬ Redex t' directory e := by
  intro hredex
  obtain ⟨x, hx, rfl⟩ := h.old_expr z hz
  have hremains : Remains t t' f x := ⟨hx, hz⟩
  obtain ⟨old, hold, heq⟩ := h.exists_expr hwf hremains
  obtain rfl := Option.some.inj (he.symm.trans heq)
  have hnone := hirreducible x hx
  rw [hold, Option.bind_some] at hnone
  rcases inlined_cases t old with ⟨hsame, -⟩ | ⟨format, parameters, rfl, -⟩
  · rw [hsame] at hredex
    refine reduct?_ne_none_of_redex h.wellFormed (bound_rewired hbound h.toRewired) hredex [] ?_
    refine h.reduct?_of_same hwf [] hbound hremains hold hsame (fun name href => ?_) hnone
    rw [href] at hredex
    cases hredex
  · -- Only strings are rewritten, and a rewritten string is a string, which is no redex.
    obtain ⟨newFormat, left, hstring⟩ := inlined_sub t format parameters
    rw [hstring] at hredex
    cases hredex

/-- A reference was a reference before. -/
theorem Inlined.ref_of_ref {name : String} (hz : z ∈ t'.exprs)
    (he : t'.expr? z = some (.ref name)) :
    ∃ x ∈ t.exprs, f x = z ∧ t.expr? x = some (.ref name) := by
  obtain ⟨x, hx, rfl⟩ := h.old_expr z hz
  obtain ⟨old, hold, heq⟩ := h.exists_expr hwf ⟨hx, hz⟩
  have href := Option.some.inj (heq.symm.trans he)
  refine ⟨x, hx, rfl, ?_⟩
  cases old with
  | ref target =>
    cases href
    exact hold
  | sub format parameters =>
    obtain ⟨newFormat, left, hstring⟩ := inlined_sub t format parameters
    rw [hstring] at href
    cases href
  | _ => cases href

/-- A name with a substitution source had one before. -/
theorem Inlined.substitutionSource?_isSome (hbound : Bound t directory) {name : String}
    (hsource : (substitutionSource? t' directory name).isSome) :
    (substitutionSource? t directory name).isSome := by
  rw [substitutionSource?_eq, declared?_rewired hbound isField_aliasSource? h.toRewired] at hsource
  rw [substitutionSource?_eq]
  cases hdeclared : declared? t directory Decl.aliasSource? name with
  | none =>
    rw [hdeclared] at hsource
    cases hsource
  | some source =>
    rw [hdeclared, Option.map_some, Option.bind_some] at hsource
    rw [Option.bind_some]
    split
    · next hself =>
      obtain ⟨e, he, heq⟩ := h.exists_expr hwf
        (h.remains_declared hwf hbound isField_aliasSource? hdeclared)
      obtain rfl := Option.some.inj (he.symm.trans hself)
      have hself' : t'.expr? (f source) = some (.ref name) := heq
      rw [if_pos hself'] at hsource
      cases hsource
    · rfl

end Inlined

/-- When folding has finished, no redex is within reach, and a reference to a name with a
substitution source is within reach only if the name was reported as circular. -/
theorem evaluate_normal {fuel : Nat} {after : Evaluation} {stats : Stats} (hwf : t.WellFormed)
    (hbound : Bound t directory) (h : evaluate t directory fuel = .ok after)
    (hfinished : after.outcome = .finished stats) {x : NodeId} {e : Expr}
    (hx : after.tree.Reaches after.tree.root x) (he : after.tree.expr? x = some e) :
    ¬ Redex after.tree directory e ∧
      ∀ name, e = .ref name → (substitutionSource? after.tree directory name).isSome →
        ReportsCircular after.diagnostics name := by
  obtain ⟨last, n, f, hlast, hdiagnostics, hs, hbound', hirreducible, hinlined⟩ :=
    exists_last_of_finished hwf hbound h hfinished
  have hmem := hinlined.wellFormed.mem_exprs.mpr ⟨hx, Option.isSome_of_eq_some he⟩
  refine ⟨hinlined.not_redex hs hbound' hirreducible hmem he, ?_⟩
  rintro name rfl hsource
  obtain ⟨y, hy, -, href⟩ := hinlined.ref_of_ref hs hmem he
  have hsource' := hinlined.substitutionSource?_isSome hs hbound' hsource
  have hcyclic : name ∈ cyclicAliases last.tree directory := by
    have hnone := hirreducible y hy
    rw [href, Option.bind_some, reduct?] at hnone
    split at hnone
    · next hcyclic => exact List.contains_iff_mem.mp hcyclic
    · rw [Option.map_eq_none_iff.mp hnone] at hsource'
      cases hsource'
  have hreports : last.Reports directory := by
    rw [hlast]
    exact Folding.after_reports (fun name hname => absurd hname List.not_mem_nil) n
  have hdeclared : (directory.get? name).isSome := by
    rw [Option.isSome_iff_ne_none]
    intro hnone
    rw [substitutionSource?, hnone] at hsource
    cases hsource
  rw [hdiagnostics]
  exact Folding.pass_reports hreports name (Folding.mem_reported_pass hcyclic) hdeclared

/-- Of the two aliases of each other the references stay, and both are reported; the join beside
them has a literal and a reference, and is no redex. -/
theorem circular_normal :
    ∃ after, evaluate circular circularDirectory 3 = .ok after ∧
      after.tree.expr? 0 = some (.ref "B") ∧ ReportsCircular after.diagnostics "B" ∧
      after.tree.expr? 6 = some (.join "-" [4, 5]) ∧
      ¬ Redex after.tree circularDirectory (.join "-" [4, 5]) := by
  have hwf : circular.WellFormed := by
    refine .ofAll (m := { name := "circular", items := [1, 3, 7, 9] }) rfl rfl ?_
    decide +kernel
  have hbound : Bound circular circularDirectory := by
    refine .ofEntries fun entry hentry => ⟨Reaches.refl.tail ?_, ?_⟩ <;>
      revert entry <;> decide +kernel
  have hresult : ((evaluate circular circularDirectory 3).toOption.map fun after =>
      ((after.outcome, after.tree.root, [10, 1, 7].map after.tree.children),
        [0, 6].map after.tree.expr?, substitutionSource? after.tree circularDirectory "B")) =
      some ((.finished { passes := 2, substitutions := 1, reinlined := 0 }, 10,
        [[1, 3, 7, 9], [0], [6]]), [some (.ref "B"), some (.join "-" [4, 5])], some 2) := by
    decide +kernel
  obtain ⟨after, hafter, heq⟩ := Option.map_eq_some_iff.mp hresult
  simp only [Prod.mk.injEq, List.map_cons, List.map_nil, List.cons.injEq, and_true] at heq
  obtain ⟨⟨hfinished, hroot, hmodule, hfirst, hthird⟩, ⟨href, hjoin⟩, hsource⟩ := heq
  have hok := eq_ok_of_toOption hafter
  have hitem : ∀ x ∈ [1, 7], after.tree.Reaches after.tree.root x := by
    intro x hx
    rw [hroot]
    refine Reaches.refl.tail ?_
    rw [hmodule]
    revert x
    decide
  refine ⟨after, hok, href, ?_, hjoin, ?_⟩
  · have hreach : after.tree.Reaches after.tree.root 0 :=
      (hitem 1 (by decide)).tail (by rw [hfirst]; decide)
    exact (evaluate_normal hwf hbound hok hfinished hreach href).2 "B" rfl (by rw [hsource]; rfl)
  · have hreach : after.tree.Reaches after.tree.root 6 :=
      (hitem 7 (by decide)).tail (by rw [hthird]; decide)
    exact (evaluate_normal hwf hbound hok hfinished hreach hjoin).1

end StackTemplate.Fold
