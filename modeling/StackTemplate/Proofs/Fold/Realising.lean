import StackTemplate.Fold.Pass
import StackTemplate.Proofs.Fold.Declared
import StackTemplate.Proofs.Tree.Copying

/-!
# Making replacements

What takes the place of an expression is one of its operands, or is made of new nodes that hold
some of its operands (`Reduct.Fits`). So making it is one stage of a pass (`Reduct.block`), and
`Reduct.Realised` says what was made. `stageAll_spec` collects this for all expressions of a pass.
-/

namespace StackTemplate.Fold

open StackTemplate.Tree

variable {t s s' : Tree} {directory : Directory} {cyclic : List String} {x y : NodeId}

/-! ### What a replacement may hold -/

/-- The value that a part of a join stands for. -/
def JoinPart.kept? : JoinPart → Option NodeId
  | .kept id => some id
  | .merged .. => none

/-- A replacement of the expression at `x` by what is there: operands in their order, or copies. -/
def Reduct.Fits (t : Tree) (x : NodeId) : Reduct → Prop
  | .existing id => id ∈ t.children x
  | .copied id => t.Reaches t.root id ∧ (t.expr? id).isSome
  | .constant _ | .strings _ => True
  | .joined _ parts => (parts.filterMap JoinPart.kept?).Sublist (t.children x)
  | .interpolated _ parameters => parameters.values.Sublist (t.children x)

/-- What a part of a join has become. -/
def JoinPart.Realised (t s : Tree) : JoinPart → NodeId → Prop
  | .kept id, y => y = id
  | .merged text _, y => t.size ≤ y ∧ s.expr? y = some (.literal (.string text))

/-- What a replacement has become. -/
def Reduct.Realised (t s : Tree) : Reduct → NodeId → Prop
  | .existing id, y => y = id
  | .copied id, y => Mirrors t s id y
  | .constant l, y => t.size ≤ y ∧ s.expr? y = some (.literal l)
  | .strings parts, y => t.size ≤ y ∧ ∃ ids, s.expr? y = some (.list ids) ∧
      ids.length = parts.length ∧ ∀ pair ∈ parts.zip ids,
        t.size ≤ pair.2 ∧ s.expr? pair.2 = some (.literal (.string pair.1))
  | .joined delimiter parts, y => t.size ≤ y ∧ ∃ ids, s.expr? y = some (.join delimiter ids) ∧
      ids.length = parts.length ∧ ∀ pair ∈ parts.zip ids, pair.1.Realised t s pair.2
  | .interpolated format parameters, y => t.size ≤ y ∧ s.expr? y = some (.sub format parameters)

theorem JoinPart.Realised.keep {part : JoinPart} (h : part.Realised t s y) (hs : Keeps s s') :
    part.Realised t s' y := by
  cases part with
  | kept id => exact h
  | merged text span => exact ⟨h.1, hs.expr?_eq h.2⟩

/-- Later new nodes change nothing about a replacement. -/
theorem Reduct.Realised.keep {r : Reduct} (h : r.Realised t s y) (hs : Keeps s s') :
    r.Realised t s' y := by
  cases r with
  | existing id => exact h
  | copied id => exact Mirrors.keep h hs
  | constant l => exact ⟨h.1, hs.expr?_eq h.2⟩
  | strings parts =>
    obtain ⟨hle, ids, he, hlength, hparts⟩ := h
    exact ⟨hle, ids, hs.expr?_eq he, hlength, fun pair hpair =>
      ⟨(hparts pair hpair).1, hs.expr?_eq (hparts pair hpair).2⟩⟩
  | joined delimiter parts =>
    obtain ⟨hle, ids, he, hlength, hparts⟩ := h
    exact ⟨hle, ids, hs.expr?_eq he, hlength, fun pair hpair => (hparts pair hpair).keep hs⟩
  | interpolated format parameters => exact ⟨h.1, hs.expr?_eq h.2⟩

/-! ### Making a replacement -/

theorem makes_literal (t : Tree) (span : Span) (text : String) :
    Makes t (fun text s => s.addExpr (.literal (.string text)) span) (fun _ => none)
      (fun s text y => t.size ≤ y ∧ s.expr? y = some (.literal (.string text))) text where
  grows s _ := (Grows.leaf s span rfl).1
  old _ _ _ h := nomatch h
  new s _ _ := (Grows.leaf s span rfl).2
  holds s hs := ⟨hs.size_le, expr?_addExpr s _ span⟩

theorem makes_joinPart {part : JoinPart} (hlt : ∀ id, part.kept? = some id → id < t.size) :
    Makes t JoinPart.realise JoinPart.kept? (fun s part y => part.Realised t s y) part := by
  cases part with
  | kept id =>
    exact ⟨fun s _ => .refl s _, fun s id' _ h => ⟨Option.some.inj h, hlt id' h⟩,
      fun _ _ h => (nomatch h), fun _ _ => rfl⟩
  | merged text span =>
    have h := makes_literal t span text
    exact ⟨h.grows, fun _ _ _ h => (nomatch h), fun s hs _ => h.new s hs rfl, h.holds⟩

section Block

variable {staged : Replacements} {owner : NodeId → NodeId} {r : Reduct}
  (hwf : t.WellFormed) (h : Staged t staged s owner) (hx : x ∈ t.exprs)
  (hfresh : staged.lookup x = none)

include hwf h hx hfresh

/-- Making a replacement that fits is one stage of a pass. -/
theorem Reduct.block (hfits : r.Fits t x) (span : Span) :
    Block t s (r.realise span s).2 x (r.realise span s).1 ∧
      r.Realised t (r.realise span s).2 (r.realise span s).1 := by
  have hreach := (hwf.mem_exprs.mp hx).1
  have hnodup := hwf.nodup hreach
  have hle : t.size ≤ s.size := h.keeps.size_le
  cases r with
  -- An operand is taken over as it is, and hangs where it hung.
  | existing id => exact ⟨⟨.refl s _, AddsExprs.refl s, .inl ⟨hfits, rfl⟩⟩, rfl⟩
  | copied id =>
    have hgrounded := hwf.grounded_of_reaches hfits.1
    obtain ⟨hgrows, hsprout, hmirrors⟩ := copy_spec hgrounded h.keeps
    have hadds := addsExprs_copyWithin ((within_of_grounded hgrounded).mono hle)
      (fun z hz => hwf.expr_of_reaches hfits.1 hfits.2 hz) h.keeps
    exact ⟨⟨hgrows.mono fun _ hc => hc.elim, hadds.1, .inr hsprout⟩, hmirrors⟩
  | constant l =>
    refine ⟨?_, hle, expr?_addExpr s _ span⟩
    exact h.block_cap hwf hx hfresh (.refl s _) (.refl s) span List.nodup_nil
      fun c hc => absurd hc List.not_mem_nil
  -- From here on a new node holds operands and new literals, each of them once.
  | strings parts =>
    obtain ⟨hgrows, hlength, hnodup', hmem, hholds⟩ := addEach_spec
      (fun _ _ _ _ _ hk hr => ⟨hr.1, hk.expr?_eq hr.2⟩)
      (fun part (_ : part ∈ parts) => makes_literal t span part) (by simp) s h.keeps
    have hadds := AddsExprs.addEach (f := fun part s => s.addExpr (.literal (.string part)) span)
      (fun part (_ : part ∈ parts) _ _ => ⟨.add _ _ _, .add _ _ _⟩) h.keeps
    refine ⟨h.block_cap hwf hx hfresh hgrows hadds.1 span hnodup' fun c hc => ?_,
      Nat.le_trans hle hgrows.size_le, _, expr?_addExpr _ _ span, hlength, fun pair hpair => ?_⟩
    · exact (hmem c hc).imp_right fun hold => absurd hold (by simp)
    · exact ⟨(hholds pair hpair).1, (Keeps.add _ _ _).expr?_eq (hholds pair hpair).2⟩
  | joined delimiter parts =>
    have hkept : ∀ part ∈ parts, ∀ id, part.kept? = some id → id ∈ t.children x :=
      fun part hpart id hid => hfits.mem (List.mem_filterMap.mpr ⟨part, hpart, hid⟩)
    obtain ⟨hgrows, hlength, hnodup', hmem, hholds⟩ := addEach_spec
      (fun _ _ _ _ _ hk hr => hr.keep hk)
      (fun part hpart => makes_joinPart fun id hid =>
        hwf.lt_size (hreach.tail (hkept part hpart id hid)))
      (hfits.nodup hnodup) s h.keeps
    have hadds : AddsExprs s (addEach JoinPart.realise parts s).2 := by
      refine (AddsExprs.addEach (fun part _ s _ => ?_) h.keeps).1
      cases part with
      | kept id => exact ⟨.refl s, .refl s⟩
      | merged text span => exact ⟨.add _ _ _, .add _ _ _⟩
    refine ⟨h.block_cap hwf hx hfresh hgrows hadds span hnodup' fun c hc => ?_,
      Nat.le_trans hle hgrows.size_le, _, expr?_addExpr _ _ span, hlength,
      fun pair hpair => (hholds pair hpair).keep (.add _ _ _)⟩
    exact (hmem c hc).imp_right fun hold => hfits.mem hold
  | interpolated format parameters =>
    refine ⟨?_, hle, expr?_addExpr s _ span⟩
    exact h.block_cap hwf hx hfresh (.refl s _) (.refl s) span (hfits.nodup hnodup)
      fun c hc => .inr (hfits.mem hc)

end Block

/-! ### Every fold fits -/

/-- Groups neighbours that both pass a test; every other element is a group of its own. -/
def runs {α : Type} (p : α → Bool) : List α → List (List α)
  | [] => []
  | a :: rest =>
    match runs p rest with
    | (next :: run) :: others =>
      if p a && p next then (a :: next :: run) :: others else [a] :: (next :: run) :: others
    | others => [a] :: others

theorem literalRuns_eq (t : Tree) (values : List NodeId) :
    literalRuns t values = runs (fun id => (t.literal? id).isSome) values := by
  induction values with
  | nil => rfl
  | cons id rest ih =>
    rw [literalRuns, runs, ih]
    rcases runs (fun id => (t.literal? id).isSome) rest with _ | ⟨_ | ⟨next, run⟩, others⟩ <;> rfl

theorem runs_map {α β : Type} (p : β → Bool) (f : α → β) (as : List α) :
    runs p (as.map f) = (runs (fun a => p (f a)) as).map (List.map f) := by
  induction as with
  | nil => rfl
  | cons a as ih =>
    rw [List.map_cons, runs, runs, ih]
    rcases runs (fun a => p (f a)) as with _ | ⟨_ | ⟨next, run⟩, others⟩
    · rfl
    · rfl
    · simp only [List.map_cons]
      split <;> rfl

theorem flatten_runs {α : Type} (p : α → Bool) (as : List α) : (runs p as).flatten = as := by
  fun_induction runs p as with
  | case1 => rfl
  | case2 a rest next run others heq hp ih =>
    rw [heq] at ih
    simpa using ih
  | case3 a rest next run others heq hp ih =>
    rw [heq] at ih
    simpa using ih
  | case4 a rest hne ih => simpa using ih

/-- A group has a member, and if it has several they all pass the test. -/
theorem mem_runs {α : Type} {p : α → Bool} {as run : List α} (h : run ∈ runs p as) :
    run ≠ [] ∧ (2 ≤ run.length → ∀ a ∈ run, p a) := by
  induction as generalizing run with
  | nil => exact absurd h List.not_mem_nil
  | cons a as ih =>
    -- A group grows only at its front, by a member that passes before one that passes.
    have hsingle : [a] ≠ [] ∧ (2 ≤ [a].length → ∀ b ∈ [a], p b) :=
      ⟨List.cons_ne_nil a [], fun hlength => absurd hlength (by simp)⟩
    rw [runs] at h
    split at h
    · next next rest others heq =>
      rw [heq] at ih
      split at h
      · next hp =>
        rw [Bool.and_eq_true] at hp
        rcases List.mem_cons.mp h with rfl | h
        · refine ⟨List.cons_ne_nil _ _, fun _ b hb => ?_⟩
          rcases List.mem_cons.mp hb with rfl | hb
          · exact hp.1
          · by_cases hlength : 2 ≤ (next :: rest).length
            · exact (ih (List.mem_cons_self ..)).2 hlength b hb
            · have hrest : rest = [] := by
                rw [List.length_cons, Nat.not_le] at hlength
                exact List.length_eq_zero_iff.mp (by omega)
              rw [hrest, List.mem_singleton] at hb
              rw [hb]
              exact hp.2
        · exact ih (List.mem_cons_of_mem _ h)
      · rcases List.mem_cons.mp h with rfl | h
        · exact hsingle
        · exact ih h
    · rcases List.mem_cons.mp h with rfl | h
      · exact hsingle
      · exact ih h

/-- The members that are groups of their own are among all members, in their order. -/
theorem singles_sublist {α β : Type} {f : List α → β} {kept : β → Option α}
    (hone : ∀ a, kept (f [a]) = some a) (hmany : ∀ run, run.length ≠ 1 → kept (f run) = none)
    (groups : List (List α)) : ((groups.map f).filterMap kept).Sublist groups.flatten := by
  induction groups with
  | nil => exact .slnil
  | cons run groups ih =>
    rw [List.map_cons, List.flatten_cons]
    by_cases hrun : run.length = 1
    · obtain ⟨a, rfl⟩ := List.length_eq_one_iff.mp hrun
      rw [List.filterMap_cons_some (hone a)]
      exact .cons_cons a ih
    · rw [List.filterMap_cons_none (hmany run hrun)]
      exact ih.trans (List.sublist_append_right _ _)

/-- Groups with members are fewer than their members, unless each has one. -/
theorem length_lt_flatten {α : Type} {groups : List (List α)} (hne : ∀ run ∈ groups, run ≠ [])
    (hmany : ∃ run ∈ groups, 1 < run.length) : groups.length < groups.flatten.length := by
  have hle : ∀ groups : List (List α), (∀ run ∈ groups, run ≠ []) →
      groups.length ≤ groups.flatten.length := by
    intro groups hne
    induction groups with
    | nil => exact Nat.le_refl 0
    | cons run groups ih =>
      have hrun := List.length_pos_iff.mpr (hne run (List.mem_cons_self ..))
      have hrest := ih fun other hother => hne other (List.mem_cons_of_mem run hother)
      rw [List.length_cons, List.flatten_cons, List.length_append]
      omega
  induction groups with
  | nil =>
    obtain ⟨run, hrun, -⟩ := hmany
    exact absurd hrun List.not_mem_nil
  | cons run groups ih =>
    have hrest := fun other hother => hne other (List.mem_cons_of_mem run hother)
    have hrun := List.length_pos_iff.mpr (hne run (List.mem_cons_self ..))
    rw [List.length_cons, List.flatten_cons, List.length_append]
    obtain ⟨long, hlong, hlength⟩ := hmany
    rcases List.mem_cons.mp hlong with rfl | hlong
    · have := hle groups hrest
      omega
    · have := ih hrest ⟨long, hlong, hlength⟩
      omega

theorem ofRun_one (t : Tree) (delimiter : String) (id : NodeId) :
    (JoinPart.ofRun t delimiter [id]).kept? = some id := rfl

theorem ofRun_many (t : Tree) (delimiter : String) (run : List NodeId) (h : run.length ≠ 1) :
    (JoinPart.ofRun t delimiter run).kept? = none := by
  match run, h with
  | [], _ => rfl
  | [_], h => exact absurd rfl h
  | _ :: _ :: _, _ => rfl

theorem logic?_mem {dominant : Bool} {lhs rhs id : NodeId}
    (h : logic? t dominant lhs rhs = some id) : id ∈ [lhs, rhs] := by
  unfold logic? at h
  split at h
  · split at h <;> simp_all
  · split at h <;> simp_all
  · cases h

theorem objectField?_mem {object id : NodeId} {key : String}
    (h : objectField? t object key = some id) : id ∈ t.children object := by
  unfold objectField? at h
  split at h
  · next fields he =>
    obtain ⟨before, after, hentries, -⟩ := List.lookup_eq_some_iff.mp h
    rw [children_of_expr? he, Expr.children, Table.values, hentries]
    simp
  · cases h

theorem join?_fits {delimiter : String} {values : List NodeId} {r : Reduct}
    (he : t.expr? x = some (.join delimiter values)) (h : join? t delimiter values = some r) :
    r.Fits t x := by
  have hchildren : t.children x = values := children_of_expr? he
  unfold join? at h
  split at h
  · obtain rfl := Option.some.inj h
    trivial
  · obtain rfl := Option.some.inj h
    rw [Reduct.Fits, hchildren]
    exact List.mem_cons_self ..
  · split at h
    · obtain rfl := Option.some.inj h
      trivial
    · simp only at h
      split at h
      · obtain rfl := Option.some.inj h
        have hkept := singles_sublist (ofRun_one t delimiter) (ofRun_many t delimiter)
          (literalRuns t values)
        have hflatten : (literalRuns t values).flatten = t.children x := by
          rw [literalRuns_eq, flatten_runs, hchildren]
        rw [hflatten] at hkept
        exact hkept
      · cases h

theorem sub?_fits {format : String} {parameters : Table NodeId} {r : Reduct}
    (he : t.expr? x = some (.sub format parameters)) (h : sub? t format parameters = some r) :
    r.Fits t x := by
  have hchildren : t.children x = parameters.values := children_of_expr? he
  have hshort : ∀ format', (Reduct.interpolated format'
      (parameters.filter fun _ id => (t.literal? id).isNone)).Fits t x := by
    intro format'
    rw [Reduct.Fits, hchildren]
    exact List.filter_sublist.map Prod.snd
  unfold sub? at h
  simp only at h
  split at h
  · cases h
  split at h
  · cases h
  split at h
  · split at h
    · obtain rfl := Option.some.inj h
      trivial
    · split at h
      · cases h
      · obtain rfl := Option.some.inj h
        exact hshort _
    · cases h
  · split at h
    · cases h
    · obtain rfl := Option.some.inj h
      exact hshort _

theorem findInMap?_reaches (hwf : t.WellFormed) (hbound : Bound t directory) {mapName : String}
    {topKey secondKey id : NodeId} (h : findInMap? t directory mapName topKey secondKey = some id) :
    t.Reaches t.root id ∧ (t.expr? id).isSome := by
  rw [findInMap?_eq] at h
  simp only [Option.bind_eq_some_iff] at h
  obtain ⟨top, -, second, -, value, hvalue, level, hlevel, found, hfound, h⟩ := h
  obtain ⟨hreach, hexpr⟩ := expr_of_declared? hwf hbound isField_mappingValue? hvalue
  have hbelow : t.Reaches value found :=
    (Reaches.refl.tail (objectField?_mem hlevel)).tail (objectField?_mem hfound)
  have hid : found = id := by
    split at h
    · exact Option.some.inj h
    · cases h
  rw [← hid]
  exact ⟨hreach.trans hbelow, hwf.expr_of_reaches hreach hexpr hbelow⟩

/-- What an expression is folded into is made of its operands and of copies. -/
theorem reduct?_fits (hwf : t.WellFormed) (hbound : Bound t directory) {e : Expr} {r : Reduct}
    (he : t.expr? x = some e) (h : reduct? t directory cyclic e = some r) : r.Fits t x := by
  have hchildren := children_of_expr? he
  cases e with
  | literal l | getAtt name attributeName | base64 value | importValue value | list items
  | object fields => cases h
  -- Sources and values of conditions are copied from a declaration.
  | ref name =>
    rw [reduct?] at h
    split at h
    · cases h
    · obtain ⟨source, hsource, rfl⟩ := Option.map_eq_some_iff.mp h
      rw [substitutionSource?_eq] at hsource
      obtain ⟨id, hid, hsource⟩ := Option.bind_eq_some_iff.mp hsource
      split at hsource
      · cases hsource
      · obtain rfl := Option.some.inj hsource
        exact expr_of_declared? hwf hbound isField_aliasSource? hid
  | conditionRef name =>
    rw [reduct?_conditionRef] at h
    obtain ⟨value, hvalue, h⟩ := Option.bind_eq_some_iff.mp h
    obtain ⟨b, -, rfl⟩ := Option.map_eq_some_iff.mp h
    exact expr_of_declared? hwf hbound isField_conditionValue? hvalue
  -- All else is a constant, an operand, or made of operands.
  | isDefined name =>
    obtain rfl := Option.some.inj h
    trivial
  | not value =>
    simp only [reduct?, Option.bind_eq_bind, Option.bind_eq_some_iff] at h
    obtain ⟨l, -, b, -, h⟩ := h
    obtain rfl := Option.some.inj h
    trivial
  | equals lhs rhs =>
    simp only [reduct?, Option.bind_eq_bind, Option.bind_eq_some_iff] at h
    obtain ⟨l, -, b, -, h⟩ := h
    obtain rfl := Option.some.inj h
    trivial
  | and lhs rhs | or lhs rhs =>
    obtain ⟨id, hid, rfl⟩ := Option.map_eq_some_iff.mp h
    rw [Reduct.Fits, hchildren]
    exact logic?_mem hid
  | ifElse condition ifTrue ifFalse =>
    obtain ⟨b, -, rfl⟩ := Option.map_eq_some_iff.mp h
    rw [Reduct.Fits, hchildren]
    cases b <;> simp [Expr.children]
  | join delimiter values => exact join?_fits he h
  | select index values =>
    simp only [reduct?, Option.bind_eq_bind, Option.bind_eq_some_iff, Option.map_eq_some_iff] at h
    obtain ⟨l, -, i, -, id, hid, rfl⟩ := h
    rw [Reduct.Fits, hchildren]
    exact List.mem_cons_of_mem _ (List.mem_of_getElem? hid)
  | split delimiter source =>
    simp only [reduct?, Option.bind_eq_bind, Option.bind_eq_some_iff, Option.map_eq_some_iff] at h
    obtain ⟨d, -, s, -, parts, -, rfl⟩ := h
    trivial
  | findInMap mapName topKey secondKey =>
    obtain ⟨id, hid, rfl⟩ := Option.map_eq_some_iff.mp h
    exact findInMap?_reaches hwf hbound hid
  | sub format parameters => exact sub?_fits he h

/-! ### A whole pass -/

/-- What is staged for an expression is what it is folded into. -/
def Answers (t : Tree) (directory : Directory) (cyclic : List String) (s : Tree) (x : NodeId) :
    Option NodeId → Prop
  | none => (t.expr? x).bind (reduct? t directory cyclic) = none
  | some y => ∃ r, (t.expr? x).bind (reduct? t directory cyclic) = some r ∧ r.Realised t s y

/-- Staging makes all replacements of a pass. -/
theorem stageAll_spec (hwf : t.WellFormed) (hbound : Bound t directory) (cyclic : List String) :
    ∃ owner, Staged t (stageAll t directory cyclic).1 (stageAll t directory cyclic).2 owner ∧
      ∀ x ∈ t.exprs, Answers t directory cyclic (stageAll t directory cyclic).2 x
        ((stageAll t directory cyclic).1.lookup x) := by
  refine Staged.foldl hwf ?_ ?_
  · intro s s' x y _ _ hkeeps h
    cases y with
    | none => exact h
    | some y =>
      obtain ⟨r, hr, hrealised⟩ := h
      exact ⟨r, hr, hrealised.keep hkeeps⟩
  · intro sofar owner x hs hx hfresh
    unfold stage
    split
    · next hnone => exact .inl ⟨rfl, hnone⟩
    · next r hr =>
      obtain ⟨e, he, hr'⟩ := Option.bind_eq_some_iff.mp hr
      have hfits := reduct?_fits hwf hbound he hr'
      obtain ⟨hblock, hrealised⟩ := Reduct.block hwf hs hx hfresh hfits (t.span x)
      refine .inr ⟨_, rfl, ?_, hblock, r, hr, hrealised⟩
      -- A literal is never folded, so what is folded is not final.
      rw [isFinal, he]
      cases e with
      | literal l => cases hr'
      | _ => rfl

/-- If nothing can be folded, nothing is staged. -/
theorem stageAll_of_none
    (h : ∀ x ∈ t.exprs, (t.expr? x).bind (reduct? t directory cyclic) = none) :
    stageAll t directory cyclic = ([], t) := by
  have hstep : ∀ x ∈ t.exprs,
      (pure (stage t directory cyclic ([], t) x) : Except Fault _) = .ok ([], t) := by
    intro x hx
    rw [stage, h x hx]
    rfl
  have hrun : t.exprs.foldlM (fun sofar x => pure (stage t directory cyclic sofar x)) ([], t) =
      (.ok ([], t) : Except Fault _) := foldlM_of_fixed hstep
  rw [List.foldlM_pure] at hrun
  exact Except.ok.inj hrun

end StackTemplate.Fold
