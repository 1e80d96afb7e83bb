import StackTemplate.Fold.Evaluation
import StackTemplate.Proofs.Fold.Contraction
import StackTemplate.Proofs.Tree.Stillness

/-!
# Nothing left to fold

A pass counts no change just when no expression within reach can be folded (`pass_eq_zero_iff`), and
then it leaves the tree as it is. Whether an expression can be folded depends on which of its
operands are literals, on what it looks up by name, and on nothing else; so an expression that
cannot be folded in one tree cannot be folded in another one that agrees on these.
-/

namespace StackTemplate.Fold

open StackTemplate.Tree

variable {t t' : Tree} {directory : Directory} {cyclic : List String} {f : NodeId → NodeId}

/-- No expression within reach can be folded. -/
def Irreducible (t : Tree) (directory : Directory) : Prop :=
  ∀ x ∈ t.exprs, (t.expr? x).bind (reduct? t directory (cyclicAliases t directory)) = none

/-! ### Passes that change nothing -/

/-- If nothing can be folded, a pass changes nothing. -/
theorem pass_of_irreducible {s : Folding} (h : Irreducible s.tree directory) :
    (s.pass directory).1 = 0 ∧ (s.pass directory).2.tree = s.tree := by
  have hstaged := stageAll_of_none h
  have happly : (s.pass directory).1 = ((stageAll s.tree directory
      (cyclicAliases s.tree directory)).2.apply
        (stageAll s.tree directory (cyclicAliases s.tree directory)).1).1 ∧
      (s.pass directory).2.tree = ((stageAll s.tree directory
        (cyclicAliases s.tree directory)).2.apply
          (stageAll s.tree directory (cyclicAliases s.tree directory)).1).2 := ⟨rfl, rfl⟩
  rw [hstaged] at happly
  exact happly

/-- Staged replacements change some slot, so a pass that counts no change had nothing to fold. -/
theorem pass_eq_zero_iff {s : Folding} (hwf : s.tree.WellFormed) (hbound : Bound s.tree directory) :
    (s.pass directory).1 = 0 ↔ Irreducible s.tree directory := by
  refine ⟨fun hcount x hx => ?_, fun h => (pass_of_irreducible h).1⟩
  obtain ⟨owner, hstaged, hanswers⟩ :=
    stageAll_spec hwf hbound (cyclicAliases s.tree directory)
  have hanswer := hanswers x hx
  rwa [hstaged.eq_nil hwf hcount] at hanswer

/-! ### What decides -/

theorem bool?_congr {x : NodeId} (h : t'.literal? (f x) = t.literal? x) :
    t'.bool? (f x) = t.bool? x := by
  rw [Tree.bool?, Tree.bool?, h]

theorem logic?_map {dominant : Bool} {lhs rhs : NodeId}
    (hlhs : t'.literal? (f lhs) = t.literal? lhs) (hrhs : t'.literal? (f rhs) = t.literal? rhs) :
    logic? t' dominant (f lhs) (f rhs) = (logic? t dominant lhs rhs).map f := by
  rw [logic?, logic?, bool?_congr hlhs, bool?_congr hrhs]
  cases t.bool? lhs with
  | none =>
    cases t.bool? rhs with
    | none => rfl
    | some r => simp only; split <;> rfl
  | some l => simp only; split <;> rfl

/-- A join of several values stays if no neighbours are literals. -/
theorem join?_eq_none {delimiter : String} {values : List NodeId} :
    join? t delimiter values = none ↔ 2 ≤ (values.map t.literal?).length ∧
      (values.map t.literal?).all Option.isSome = false ∧
      (runs Option.isSome (values.map t.literal?)).any (fun run => 1 < run.length) = false := by
  have hruns : (runs Option.isSome (values.map t.literal?)).any (fun run => 1 < run.length) =
      (literalRuns t values).any fun run => 1 < run.length := by
    rw [runs_map, literalRuns_eq, List.any_map]
    simp only [Function.comp_def, List.length_map]
  rw [hruns, List.all_map, List.length_map]
  match values with
  | [] => simp [join?]
  | [single] => simp [join?]
  | first :: second :: rest =>
    unfold join?
    simp only [Function.comp_def]
    split <;> rename_i hall
    · simp [hall]
    · split <;> simp_all

/-- What is left of the parameters if none is a literal. -/
theorem filter_of_literalTexts {parameters : Table NodeId} (h : literalTexts t parameters = []) :
    (parameters.filter fun _ id => (t.literal? id).isNone) = parameters := by
  refine Table.ext_entries (List.filter_eq_self.mpr fun entry hentry => ?_)
  have hentry := List.filterMap_eq_nil_iff.mp h entry hentry
  exact Option.isNone_iff_eq_none.mpr (Option.map_eq_none_iff.mp hentry)

/-- An interpolated string without literal parameters stays, unless it has neither parameters nor
placeholders. One with literal parameters stays if its format cannot be cut into segments, before
or after they have gone into it. -/
theorem sub?_eq_none {format : String} {parameters : Table NodeId} :
    sub? t format parameters = none ↔ Format.hasLocalAttribute format parameters = true ∨
      literalTexts t parameters = [] ∧
        ¬ (parameters.isEmpty = true ∧ Format.placeholders format = .ok []) ∨
      literalTexts t parameters ≠ [] ∧
        ∀ newFormat, Format.replacePlaceholders ((literalTexts t parameters).lookup ·) format =
          .ok newFormat →
            (parameters.filter fun _ id => (t.literal? id).isNone).isEmpty = true ∧
              ∃ malformed, Format.placeholders newFormat = .error malformed := by
  unfold sub?
  cases hattribute : Format.hasLocalAttribute format parameters with
  | true => simp
  | false =>
    by_cases hliteral : literalTexts t parameters = []
    · -- What has names can be cut into segments, and so its escapes can be undone.
      have hunescape : Format.placeholders format = .ok [] →
          ∃ text, Format.unescape format = .ok text := by
        intro hnames
        rw [Format.placeholders] at hnames
        cases hsegments : Format.segments format with
        | error malformed => rw [hsegments] at hnames; cases hnames
        | ok segments => exact ⟨_, by rw [Format.unescape, hsegments]; rfl⟩
      simp only [hliteral, filter_of_literalTexts hliteral, List.isEmpty_nil, if_true]
      by_cases hempty : parameters.isEmpty = true
      · rcases hnames : Format.placeholders format with malformed | _ | ⟨name, names⟩
        · simp [hempty]
        · obtain ⟨text, htext⟩ := hunescape hnames
          simp [hempty, htext]
        · simp [hempty]
      · simp [hempty]
    · cases hformat : Format.replacePlaceholders ((literalTexts t parameters).lookup ·) format with
      | error malformed => simp [hliteral, hformat]
      | ok newFormat =>
        by_cases hempty : (parameters.filter fun _ id => (t.literal? id).isNone).isEmpty = true
        · rcases hnames : Format.placeholders newFormat with malformed | _ | ⟨name, names⟩ <;>
            cases hunescape : Format.unescape newFormat <;>
            simp [hliteral, hformat, hempty, hnames, hunescape]
        · simp [hliteral, hformat, hempty]

theorem literalTexts_mapValues {parameters : Table NodeId}
    (h : ∀ id ∈ parameters.values, t'.literal? (f id) = t.literal? id) :
    literalTexts t' (parameters.mapValues f) = literalTexts t parameters := by
  rw [literalTexts, literalTexts, Table.entries_mapValues, List.filterMap_map]
  refine List.filterMap_congr fun entry hentry => ?_
  simp only [Function.comp_apply]
  rw [h entry.2 (List.mem_map_of_mem hentry)]

theorem isEmpty_filter_mapValues {parameters : Table NodeId}
    (h : ∀ id ∈ parameters.values, t'.literal? (f id) = t.literal? id) :
    ((parameters.mapValues f).filter fun _ id => (t'.literal? id).isNone).isEmpty =
      (parameters.filter fun _ id => (t.literal? id).isNone).isEmpty := by
  have hfilter : ((parameters.mapValues f).filter fun _ id => (t'.literal? id).isNone) =
      (parameters.filter fun _ id => (t.literal? id).isNone).mapValues f := by
    refine Table.ext_entries ?_
    show (parameters.entries.map fun e => (e.1, f e.2)).filter _ =
      (parameters.entries.filter _).map _
    rw [List.filter_map]
    refine congrArg _ (List.filter_congr fun entry hentry => ?_)
    simp only [Function.comp_apply]
    rw [h entry.2 (List.mem_map_of_mem hentry)]
  rw [hfilter, Table.isEmpty, Table.entries_mapValues, List.isEmpty_map]
  rfl

theorem sub?_mapValues {format : String} {parameters : Table NodeId}
    (h : ∀ id ∈ parameters.values, t'.literal? (f id) = t.literal? id)
    (hnone : sub? t format parameters = none) :
    sub? t' format (parameters.mapValues f) = none := by
  have hlocal : Format.hasLocalAttribute format (parameters.mapValues f) =
      Format.hasLocalAttribute format parameters :=
    hasLocalAttribute_congr format (Table.keys_mapValues f parameters)
  rw [sub?_eq_none] at hnone ⊢
  rw [hlocal, literalTexts_mapValues h, isEmpty_filter_mapValues h, Table.isEmpty,
    Table.entries_mapValues, List.isEmpty_map]
  exact hnone

/-- The constant that a mapping holds under two keys. -/
def mapped? (t : Tree) (directory : Directory) (mapName top second : String) : Option NodeId :=
  (declared? t directory Decl.mappingValue? mapName).bind fun value =>
    (objectField? t value top).bind fun level =>
      (objectField? t level second).bind fun found =>
        if isLiteralTree t found then some found else none

theorem findInMap?_eq_mapped? (t : Tree) (directory : Directory) (mapName : String)
    (topKey secondKey : NodeId) : findInMap? t directory mapName topKey secondKey =
      (t.literal? topKey).bind fun top => (t.literal? secondKey).bind fun second =>
        mapped? t directory mapName top.value.toText second.value.toText :=
  findInMap?_eq t directory mapName topKey secondKey

/-- An expression that is no reference stays if it stayed in a tree with the same literals for
operands, and the same answers to look-ups by name. -/
theorem reduct?_mapSlots {e : Expr} (cyclic' : List String)
    (hliteral : ∀ c ∈ e.children, t'.literal? (f c) = t.literal? c)
    (hcondition : ∀ name, (declared? t' directory Decl.conditionValue? name).bind t'.bool? =
      (declared? t directory Decl.conditionValue? name).bind t.bool?)
    (hmapping : ∀ mapName top second, mapped? t directory mapName top second = none →
      mapped? t' directory mapName top second = none)
    (href : ∀ name, e ≠ .ref name) (hnone : reduct? t directory cyclic e = none) :
    reduct? t' directory cyclic' (e.mapSlots f) = none := by
  cases e with
  | literal l | getAtt name attributeName | base64 value | importValue value | list items
  | object fields => rfl
  | ref name => exact absurd rfl (href name)
  | conditionRef name =>
    have hmap : ∀ t : Tree, reduct? t directory cyclic (.conditionRef name) = none ↔
        (declared? t directory Decl.conditionValue? name).bind t.bool? = none := by
      intro t
      rw [reduct?_conditionRef]
      cases declared? t directory Decl.conditionValue? name <;> simp
    exact (hmap t').mpr ((hcondition name).trans ((hmap t).mp hnone))
  | isDefined name => exact hnone
  | not value =>
    simp only [Expr.mapSlots, reduct?, hliteral value (List.mem_singleton_self value)]
    exact hnone
  | equals lhs rhs =>
    simp only [Expr.mapSlots, reduct?, hliteral lhs (by simp [Expr.children]),
      hliteral rhs (by simp [Expr.children])]
    exact hnone
  | and lhs rhs | or lhs rhs =>
    simp only [Expr.mapSlots, reduct?, Option.map_eq_none_iff] at hnone ⊢
    rw [logic?_map (hliteral lhs (by simp [Expr.children])) (hliteral rhs (by simp [Expr.children])),
      hnone, Option.map_none]
  | ifElse condition ifTrue ifFalse =>
    simp only [Expr.mapSlots, reduct?, Option.map_eq_none_iff] at hnone ⊢
    rw [bool?_congr (hliteral condition (by simp [Expr.children])), hnone]
  | join delimiter values =>
    have hvalues : (values.map f).map t'.literal? = values.map t.literal? := by
      rw [List.map_map]
      exact List.map_congr_left hliteral
    -- Whether values are joined depends only on which of them are literals.
    show join? t' delimiter (values.map f) = none
    rw [join?_eq_none, hvalues]
    exact join?_eq_none.mp hnone
  | select index values =>
    simp only [Expr.mapSlots, reduct?, hliteral index (by simp [Expr.children]),
      Option.bind_eq_bind, Option.bind_eq_none_iff, Option.map_eq_none_iff,
      List.getElem?_map] at hnone ⊢
    exact hnone
  | split delimiter source =>
    simp only [Expr.mapSlots, reduct?, hliteral delimiter (by simp [Expr.children]),
      hliteral source (by simp [Expr.children])]
    exact hnone
  | findInMap mapName topKey secondKey =>
    simp only [Expr.mapSlots, reduct?, Option.map_eq_none_iff, findInMap?_eq_mapped?,
      hliteral topKey (by simp [Expr.children]), hliteral secondKey (by simp [Expr.children]),
      Option.bind_eq_none_iff] at hnone ⊢
    exact fun top htop second hsecond => hmapping _ _ _ (hnone top htop second hsecond)
  | sub format parameters => exact sub?_mapValues hliteral hnone

end StackTemplate.Fold
