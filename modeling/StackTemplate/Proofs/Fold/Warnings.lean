import StackTemplate.Proofs.Fold.Choices
import StackTemplate.Proofs.Fold.Greatest

/-!
# Warnings of constant conditions

Passes warn of a place in the source just when one of them comes upon a choice there whose
condition is a constant without a mark (`warns_after`). So it can be said in advance whether there
is a warning of a choice on a query that has its place in the source for itself: there is none if
the constant that the query becomes is marked (`evaluate_decides_query`). An existence check in the
query is not enough for that, as a conjunction or disjunction may lose its mark (`regional_warned`).
-/

namespace StackTemplate.Fold

open StackTemplate.Tree

variable {t : Tree} {directory : Directory} {x condition ifTrue ifFalse : NodeId} {q : Query}
  {span : Span} {n : Nat} {sofar : List Span × List Diagnostic} {before : List Span}

/-! ### One pass -/

/-- Whether a constant condition is reported at a place in the source. -/
def Warns (ds : List Diagnostic) (span : Span) : Prop :=
  ∃ d ∈ ds, d.kind = .constantCondition ∧ d.span = span

instance (ds : List Diagnostic) (span : Span) : Decidable (Warns ds span) :=
  inferInstanceAs (Decidable (∃ d ∈ ds, d.kind = .constantCondition ∧ d.span = span))

@[simp] theorem not_warns_nil : ¬ Warns [] span := by simp [Warns]

@[simp] theorem warns_append {ds ds' : List Diagnostic} :
    Warns (ds ++ ds') span ↔ Warns ds span ∨ Warns ds' span := by
  simp only [Warns, List.mem_append, or_and_right, exists_or]

theorem not_warns_aliasReports {reported cyclic : List String} :
    ¬ Warns (aliasReports t directory reported cyclic) span := by
  rintro ⟨d, hd, hkind, -⟩
  obtain ⟨name, -, hname⟩ := List.mem_filterMap.mp hd
  obtain ⟨id, -, rfl⟩ := Option.map_eq_some_iff.mp hname
  cases hkind

/-- A choice at the place has a condition that deserves a warning. -/
def IsDue (t : Tree) (span : Span) : Prop :=
  ∃ z ∈ t.exprs, t.span z = span ∧ (constantCondition? t z).isSome

/-- Each place has one warning, made when it comes to the places with warnings. -/
theorem warn_spec (t : Tree) (id : NodeId)
    (h : span ∈ sofar.1 ↔ span ∈ before ∨ Warns sofar.2 span) :
    (span ∈ (warn t sofar id).1 ↔
      span ∈ sofar.1 ∨ t.span id = span ∧ (constantCondition? t id).isSome) ∧
    (span ∈ (warn t sofar id).1 ↔ span ∈ before ∨ Warns (warn t sofar id).2 span) := by
  unfold warn
  cases constantCondition? t id with
  | none => simpa using h
  | some b =>
    by_cases hknown : t.span id ∈ sofar.1
    · have hcontains : sofar.1.contains (t.span id) = true := List.contains_iff_mem.mpr hknown
      simp only [hcontains, if_true]
      refine ⟨⟨.inl, ?_⟩, h⟩
      rintro (hspan | ⟨rfl, -⟩)
      · exact hspan
      · exact hknown
    · have hcontains : sofar.1.contains (t.span id) = false := by simpa using hknown
      have hreport : Warns [(Diagnostic.report .constantCondition (t.span id)).detail
          (Value.boolText b)] span ↔ span = t.span id := by
        simp [Warns, Diagnostic.detail, Diagnostic.report, eq_comm]
      simp only [hcontains, Bool.false_eq_true, if_false, List.mem_append, List.mem_singleton,
        warns_append, hreport, h, or_assoc, Option.isSome_some, and_true,
        eq_comm (a := t.span id)]

theorem foldl_warn (t : Tree) (ids : List NodeId)
    (h : span ∈ sofar.1 ↔ span ∈ before ∨ Warns sofar.2 span) :
    (span ∈ (ids.foldl (warn t) sofar).1 ↔
      span ∈ sofar.1 ∨ ∃ z ∈ ids, t.span z = span ∧ (constantCondition? t z).isSome) ∧
    (span ∈ (ids.foldl (warn t) sofar).1 ↔
      span ∈ before ∨ Warns (ids.foldl (warn t) sofar).2 span) := by
  induction ids generalizing sofar with
  | nil => simpa using h
  | cons id ids ih =>
    obtain ⟨hplaces, hwarns⟩ := warn_spec t id h
    obtain ⟨hplaces', hwarns'⟩ := ih hwarns
    rw [List.foldl_cons]
    refine ⟨?_, hwarns'⟩
    rw [hplaces', hplaces, or_assoc, List.exists_mem_cons_iff]

/-- A pass adds the warnings that are due. -/
theorem warns_pass (directory : Directory) {s : Folding}
    (h : span ∈ s.warned ↔ Warns s.diagnostics span) :
    (span ∈ (s.pass directory).2.warned ↔ Warns (s.pass directory).2.diagnostics span) ∧
    (Warns (s.pass directory).2.diagnostics span ↔
      Warns s.diagnostics span ∨ IsDue s.tree span) := by
  have hstart : span ∈ (s.warned, ([] : List Diagnostic)).1 ↔
      span ∈ s.warned ∨ Warns (s.warned, ([] : List Diagnostic)).2 span := by
    simp
  obtain ⟨hplaces, hwarns⟩ := foldl_warn s.tree s.tree.exprs hstart
  have hdiagnostics : Warns (s.pass directory).2.diagnostics span ↔
      Warns s.diagnostics span ∨ Warns (s.tree.exprs.foldl (warn s.tree) (s.warned, [])).2 span := by
    show Warns (_ ++ _ ++ _) span ↔ _
    rw [warns_append, warns_append, or_iff_left not_warns_aliasReports]
  rw [hdiagnostics, ← h]
  exact ⟨hwarns, hwarns.symm.trans hplaces⟩

/-- There is a warning of a place just when it was due before some pass. -/
theorem warns_after (t : Tree) (directory : Directory) (span : Span) (n : Nat) :
    Warns (Folding.after directory n { tree := t }).diagnostics span ↔
      ∃ m < n, IsDue (Folding.after directory m { tree := t }).tree span := by
  suffices h : (span ∈ (Folding.after directory n { tree := t }).warned ↔
        Warns (Folding.after directory n { tree := t }).diagnostics span) ∧
      (Warns (Folding.after directory n { tree := t }).diagnostics span ↔
        ∃ m < n, IsDue (Folding.after directory m { tree := t }).tree span) from h.2
  induction n with
  | zero => simp [Folding.after]
  | succ n ih =>
    obtain ⟨hwarned, hdue⟩ := warns_pass directory ih.1
    rw [Folding.after_succ]
    refine ⟨hwarned, ?_⟩
    rw [hdue, ih.2]
    constructor
    · rintro (⟨m, hm, hm'⟩ | hn)
      · exact ⟨m, by omega, hm'⟩
      · exact ⟨n, by omega, hn⟩
    · rintro ⟨m, hm, hm'⟩
      rcases Nat.lt_succ_iff_lt_or_eq.mp hm with hlt | rfl
      · exact .inl ⟨m, hlt, hm'⟩
      · exact .inr hm'

theorem isChoice_of_constantCondition? (h : (constantCondition? t x).isSome) : IsChoice t x := by
  unfold constantCondition? at h
  split at h
  next condition ifTrue ifFalse he => exact ⟨condition, ifTrue, ifFalse, he⟩
  next => cases h

/-- No warning is due of choices on a query that ends marked. -/
theorem Traces.not_isDue (h : Traces t directory q span) (hmark : q.mark directory.defines = true) :
    ¬ IsDue t span := by
  rintro ⟨z, hz, hspan, hdue⟩
  obtain ⟨n, hchooses⟩ := h z hz hspan (isChoice_of_constantCondition? hdue)
  rw [hchooses.constantCondition?_eq, Query.constant?_iterate, hmark] at hdue
  split at hdue <;> cases hdue

/-- A warning is due of a choice on a query that is known and not marked. -/
theorem ChoosesOn.isDue (h : ChoosesOn t ((Query.step directory.defines)^[n] q) x)
    (hx : x ∈ t.exprs) (hn : q.rounds directory.defines ≤ n)
    (hmark : q.mark directory.defines = false) : IsDue t (t.span x) := by
  refine ⟨x, hx, rfl, ?_⟩
  rw [h.constantCondition?_eq, Query.constant?_iterate, if_pos hn, hmark]
  rfl

/-! ### Where folding ends -/

/-- With enough fuel folding ends after the first pass over a tree in which nothing can be folded,
and turns parameters of that tree back. -/
theorem exists_evaluation (hwf : t.WellFormed) (hbound : Bound t directory) :
    ∃ stop after stats, after.outcome = .finished stats ∧
      (∀ fuel > stop, evaluate t directory fuel = .ok after) ∧
      Irreducible (Folding.after directory stop { tree := t }).tree directory ∧
      after.diagnostics = (Folding.after directory (stop + 1) { tree := t }).diagnostics ∧
      ∃ count, reinline (Folding.after directory stop { tree := t }).tree =
        .ok (count, after.tree) := by
  let s : Folding := { tree := t }
  have hexists := exists_changes_eq_zero (s := s) hwf hbound
  let stop := Nat.find hexists
  have hstop : s.changes directory stop = 0 := Nat.find_spec hexists
  have hrewired := after_leads (s := s) hwf hbound stop
  have hirreducible := (pass_eq_zero_iff hrewired.wellFormed (bound_rewired hbound hrewired)).mp hstop
  have htree := after_of_irreducible hirreducible (Nat.le_succ stop)
  obtain ⟨⟨count, tree⟩, f, hreinline, -⟩ := reinline_rewired hrewired.wellFormed
  let last := s.after directory (stop + 1)
  let stats : Stats :=
    { passes := last.passes, substitutions := last.substitutions, reinlined := count }
  refine ⟨stop, ⟨tree, last.diagnostics, .finished stats⟩, stats, rfl, fun fuel hfuel => ?_,
    hirreducible, rfl, count, hreinline⟩
  rw [evaluate, Folding.run_of_stop hfuel hstop fun n hn => Nat.find_min hexists hn]
  simp only [htree, hreinline]
  rfl

/-- Turning parameters back leaves every choice where it is in the source. -/
theorem choice_of_reinline {after : Nat × Tree} {z : NodeId} (hwf : t.WellFormed)
    (hrun : reinline t = .ok after) (hz : z ∈ after.2.exprs) (hchoice : IsChoice after.2 z) :
    z ∈ t.exprs ∧ IsChoice t z ∧ after.2.span z = t.span z := by
  obtain ⟨after', f, hrun', hinlined, hfollow, hspans⟩ := reinline_follows hwf
  obtain rfl := Except.ok.inj (hrun.symm.trans hrun')
  obtain ⟨y, hy, rfl⟩ := hinlined.old_expr z hz
  obtain ⟨e, he⟩ := Option.isSome_iff_exists.mp (hwf.mem_exprs.mp hy).2
  have hexpr := hinlined.expr_eq y e he hz hy
  have hleft : ¬ Reinlinable t e := by
    -- what it would become instead is an interpolated string
    rintro ⟨format, parameters, rfl, hsome⟩
    obtain ⟨condition, ifTrue, ifFalse, hchoice⟩ := hchoice
    obtain ⟨e', he'⟩ := Option.isSome_iff_exists.mp hsome
    obtain ⟨-, -, newFormat, -, rfl⟩ := reinlined?_eq_some.mp he'
    rw [hexpr, inlined, he'] at hchoice
    cases hchoice
  have hsame : f y = y := (hfollow y hy e he).mpr hleft
  rw [inlined_of_not_reinlinable hleft, hsame] at hexpr
  rw [hsame] at hchoice ⊢
  exact ⟨hy, isChoice_of_mapSlots (hexpr.trans (by rw [he]; rfl)) hchoice,
    hspans y (grounded_of_mem_exprs hwf hy).lt⟩

/-! ### Choices on queries -/

/-- What becomes of a choice on a query. -/
structure Decided (t : Tree) (directory : Directory) (q : Query) (x ifTrue ifFalse : NodeId)
    (after : Evaluation) : Prop where
  /-- Where expressions lead is what slots of the module and the declarations hold. -/
  rewired : ∀ n, Rewired t (Folding.after directory n { tree := t }).tree
    (Folding.leads directory { tree := t } n)
  /-- No choice is left at its place in the source. -/
  gone : ∀ z ∈ after.tree.exprs, after.tree.span z = t.span x → ¬ IsChoice after.tree z
  /-- It is within reach for as many passes as the query takes at most, -/
  mem_exprs_le : ∀ n, x ∈ (Folding.after directory n { tree := t }).tree.exprs →
    n ≤ q.rounds directory.defines
  /-- and for so many if a declaration or the module holds it itself. -/
  mem_exprs : ∀ p, t.Reaches t.root p → t.expr? p = none → x ∈ t.exprSlots p →
    x ∈ (Folding.after directory (q.rounds directory.defines) { tree := t }).tree.exprs
  /-- If it is within reach then, the branch that the truth value selects takes its place. -/
  leads_eq : x ∈
      (Folding.after directory (q.rounds directory.defines) { tree := t }).tree.exprs →
    ∀ n > q.rounds directory.defines, Folding.leads directory { tree := t } n x =
      Folding.leads directory { tree := t } n
        (if q.truth directory.defines then ifTrue else ifFalse)
  /-- A marked constant causes no warning. -/
  not_warns : q.mark directory.defines = true → ¬ Warns after.diagnostics (t.span x)
  /-- One without a mark does. -/
  warns : q.mark directory.defines = false →
    x ∈ (Folding.after directory (q.rounds directory.defines) { tree := t }).tree.exprs →
    Warns after.diagnostics (t.span x)

/-- Folding decides a choice on a query whose place in the source no other choice has. Whether there
is a warning depends on the mark of the constant that the query becomes; there is none if the query
has an existence check, and one in both operands of each conjunction and disjunction. -/
theorem evaluate_decides_query (hwf : t.WellFormed) (hbound : Bound t directory)
    (hx : x ∈ t.exprs) (he : t.expr? x = some (.ifElse condition ifTrue ifFalse))
    (hq : t.term condition = q.term)
    (hown : ∀ y ∈ t.exprs, IsChoice t y → t.span y = t.span x → y = x) :
    ∃ N after stats, after.outcome = .finished stats ∧
      (∀ fuel ≥ N, evaluate t directory fuel = .ok after) ∧
      Decided t directory q x ifTrue ifFalse after ∧
      (q.asksThroughout → q.asks → ¬ Warns after.diagnostics (t.span x)) := by
  let s : Folding := { tree := t }
  obtain ⟨stop, after, stats, hfinished, hrun, hirreducible, hdiagnostics, count, hreinline⟩ :=
    exists_evaluation hwf hbound
  have hrewired := after_leads (s := s) hwf hbound
  have hstart : Traces t directory q (t.span x) := by
    intro z hz hspan hchoice
    obtain rfl := hown z hz hchoice hspan
    exact ⟨0, condition, ifTrue, ifFalse, he, hq⟩
  -- No pass brings a second choice to this place, so what is warned of there is due to this one.
  have htraces := hstart.after (s := s) hwf hbound
  have hwarns : Warns after.diagnostics (t.span x) ↔
      ∃ m < stop + 1, IsDue (s.after directory m).tree (t.span x) := by
    rw [hdiagnostics]
    exact warns_after t directory (t.span x) (stop + 1)
  have hnone : q.mark directory.defines = true → ¬ Warns after.diagnostics (t.span x) := by
    intro hmark hwarn
    obtain ⟨m, -, hdue⟩ := hwarns.mp hwarn
    exact (htraces m).not_isDue hmark hdue
  refine ⟨stop + 1, after, stats, hfinished, hrun, ?_,
    fun hthroughout hasks => hnone (Query.mark_of_asks hthroughout hasks)⟩
  refine
    { rewired := hrewired
      gone := fun z hz hspan hchoice => ?_
      mem_exprs_le := fun n hn => (choice_after (s := s) hwf hbound hx he hq hn).1
      mem_exprs := fun p hp hhost hslot =>
        choice_reaches (s := s) hwf hbound hx he hq hp hhost hslot le_rfl
      leads_eq := fun hreach n hn => leads_branch (s := s) hwf hbound hx he hq hreach hn
      not_warns := hnone
      warns := fun hmark hreach => hwarns.mpr ⟨q.rounds directory.defines, ?_, ?_⟩ }
  · obtain ⟨hz', hchoice', hspan'⟩ :=
      choice_of_reinline (hrewired stop).wellFormed hreinline hz hchoice
    exact (htraces stop).not_isChoice (hrewired stop).wellFormed
      (bound_rewired hbound (hrewired stop)) hirreducible hz' (hspan'.symm.trans hspan) hchoice'
  · have hle := rounds_le_of_irreducible (s := s) hwf hbound hx he hq hreach hirreducible
    omega
  · have hspan := (choice_after (s := s) hwf hbound hx he hq hreach).2.2.2.2
    have hchooses := choosesOn_after (s := s) hwf hbound hx he hq hreach
    exact hspan ▸ hchooses.isDue hreach le_rfl hmark

/-- A module with a choice on a conjunction of an existence check and a negation, in one order or in
the other. -/
def regional (lhs rhs : NodeId) : Tree where
  nodes := #[
    { kind := .expr (.isDefined "AWS::Region"), span := default, parent := some 3 },
    { kind := .expr (.literal (.bool false false)), span := default, parent := some 2 },
    { kind := .expr (.not 1), span := default, parent := some 3 },
    { kind := .expr (.and lhs rhs), span := default, parent := some 6 },
    { kind := .expr (.literal (.string "a")), span := default, parent := some 6 },
    { kind := .expr (.literal (.string "b")), span := default, parent := some 6 },
    { kind := .expr (.ifElse 3 4 5), span := ⟨0, 10, 20, by decide⟩, parent := some 7 },
    { kind := .decl { localName := "V", kind := .var none 6 }, span := default, parent := some 8 },
    { kind := .module { name := "regional", items := [7] }, span := default }]
  root := 8

/-- The directory of that module. -/
def regionalDirectory : Directory where
  items := ⟨[("V", 7)], by decide⟩

theorem regional_bound (lhs rhs : NodeId) : Bound (regional lhs rhs) regionalDirectory := by
  refine .ofEntries fun entry hentry => ?_
  obtain rfl := List.mem_singleton.mp hentry
  exact ⟨Reaches.refl.tail (List.mem_singleton_self 7), rfl⟩

theorem regional_decides_query : (regional 2 0).WellFormed ∧
    ∃ N after stats, after.outcome = .finished stats ∧
      (∀ fuel ≥ N, evaluate (regional 2 0) regionalDirectory fuel = .ok after) ∧
      (∀ n > 2, Folding.leads regionalDirectory { tree := regional 2 0 } n 6 =
        Folding.leads regionalDirectory { tree := regional 2 0 } n 4) ∧
      ¬ Warns after.diagnostics ((regional 2 0).span 6) := by
  have hwf : (regional 2 0).WellFormed := by
    refine .ofAll (m := { name := "regional", items := [7] }) rfl rfl ?_
    decide +kernel
  have hown : ∀ y ∈ (regional 2 0).exprs, IsChoice (regional 2 0) y →
      (regional 2 0).span y = (regional 2 0).span 6 → y = 6 := by
    have hspans : ∀ y ∈ (regional 2 0).exprs,
        (regional 2 0).span y = (regional 2 0).span 6 → y = 6 := by
      decide +kernel
    exact fun y hy _ => hspans y hy
  obtain ⟨N, after, stats, hfinished, hrun, hdecided, -⟩ := evaluate_decides_query
    (q := .logic false (.not (.constant false false false)) (.isDefined "AWS::Region")) hwf
    (regional_bound 2 0) (x := 6) (by decide +kernel) rfl rfl hown
  have hreach := hdecided.mem_exprs 7 (Reaches.refl.tail (List.mem_singleton_self 7)) rfl
    (List.mem_singleton_self 6)
  have hleads := hdecided.leads_eq hreach
  have htruth : Query.truth regionalDirectory.defines
      (.logic false (.not (.constant false false false)) (.isDefined "AWS::Region")) = true := by
    decide +kernel
  rw [htruth] at hleads
  exact ⟨hwf, N, after, stats, hfinished, hrun, hleads, hdecided.not_warns (by decide +kernel)⟩

/-- In the other order the mark is lost: the existence check is the operand that a conjunction drops
when it holds. -/
theorem regional_warned : (regional 0 2).WellFormed ∧ Bound (regional 0 2) regionalDirectory ∧
    (regional 0 2).expr? 6 = some (.ifElse 3 4 5) ∧
    (∃ q : Query, (regional 0 2).term 3 = q.term ∧ q.asks = true) ∧
    (∀ y ∈ (regional 0 2).exprs, (regional 0 2).span y = (regional 0 2).span 6 → y = 6) ∧
    ∀ fuel ≥ 4, ∃ after stats, evaluate (regional 0 2) regionalDirectory fuel = .ok after ∧
      after.outcome = .finished stats ∧ Warns after.diagnostics ((regional 0 2).span 6) := by
  refine ⟨?_, regional_bound 0 2, rfl,
    ⟨.logic false (.isDefined "AWS::Region") (.not (.constant false false false)), rfl, rfl⟩,
    by decide +kernel, fun fuel hfuel => ?_⟩
  · refine .ofAll (m := { name := "regional", items := [7] }) rfl rfl ?_
    decide +kernel
  · have hlast : Folding.changes regionalDirectory { tree := regional 0 2 } 3 = 0 := by
      decide +kernel
    have hbefore : ∀ n < 3, Folding.changes regionalDirectory { tree := regional 0 2 } n ≠ 0 := by
      decide +kernel
    have hresult : ((evaluate (regional 0 2) regionalDirectory 4).toOption.map fun after =>
        (after.outcome, decide (Warns after.diagnostics ((regional 0 2).span 6)))) =
          some (.finished { passes := 4, substitutions := 4, reinlined := 0 }, true) := by
      decide +kernel
    obtain ⟨after, hafter, heq⟩ := Option.map_eq_some_iff.mp hresult
    obtain ⟨hfinished, hwarns⟩ := Prod.mk.inj heq
    refine ⟨after, _, ?_, hfinished, of_decide_eq_true hwarns⟩
    rw [← eq_ok_of_toOption hafter, evaluate, evaluate,
      Folding.run_of_stop hfuel hlast hbefore, Folding.run_of_stop (Nat.lt_succ_self 3) hlast hbefore]

end StackTemplate.Fold
