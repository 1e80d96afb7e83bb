import StackTemplate.Proofs.Format.Reading
import StackTemplate.Proofs.Text.Basic
import StackTemplate.Proofs.Tree.WellFormed
import StackTemplate.Resolution.Mention

/-!
# Guards are exact

Once every condition has a truth value, a declaration makes only some of its references: a walk of
its fields takes one branch of each `if`, and sees the fields of a conditional item only if the
condition is true. `Meets` is that walk, by rules and without guards, and `LiveReferences` is what
it meets in a declaration.

The resolver walks all branches and notes guards instead. The guards that it has pushed when it
finds an edge all hold just when the walk with truth values comes to the same place, so the edges
whose guards hold are the live references, in order (`liveReferences_iff`).
-/

namespace StackTemplate

/-! ### Truth values -/

/-- Truth values for the conditions of a module: of condition items by name, and of condition
expressions by node. -/
structure Valuation where
  condition : String → Bool
  node : NodeId → Bool

namespace Valuation

variable {v : Valuation} {t : Tree}

/-- The literal `true` is true. -/
def Respects (v : Valuation) (t : Tree) : Prop := ∀ id, t.bool? id = some true → v.node id = true

/-- The truth value of the condition at a node. -/
def truth (v : Valuation) (t : Tree) (id : NodeId) : Bool :=
  match t.expr? id with
  | some (.conditionRef name) => v.condition name
  | _ => v.node id

/-- Whether a guard holds. -/
def holds (v : Valuation) : Guard → Bool
  | .condition name negated => v.condition name != negated
  | .expr node negated => v.node node != negated

@[simp] theorem holds_guardFor (id : NodeId) : v.holds (t.guardFor id) = v.truth t id := by
  unfold Tree.guardFor truth
  cases t.expr? id with
  | none => simp [holds]
  | some e => cases e <;> simp [holds]

@[simp] theorem holds_negate (guard : Guard) : v.holds guard.negate = !v.holds guard := by
  cases guard <;> simp [Guard.negate, holds]

theorem truth_of_bool? (hv : v.Respects t) {id : NodeId} (h : t.bool? id = some true) :
    v.truth t id = true := by
  have hnode := hv id h
  unfold truth
  split
  · next name hname =>
    rw [Tree.bool?, Tree.literal?, hname] at h
    cases h
  · exact hnode

end Valuation

/-! ### What a walk meets -/

namespace Format

/-- Whether a placeholder means an item: it is neither a local parameter nor an attribute of one,
which is a local parameter without a dot, a dot, and more. -/
def meansItem (parameters : Table NodeId) (name : String) : Bool :=
  parameters.keys.all fun parameter =>
    name ≠ parameter ∧ ¬ ('.' ∉ parameter.toList ∧ parameter.toList ++ ['.'] <+: name.toList)

/-- The first dot is at one place only. -/
theorem exists_cutAtFirstDot? {name owner : String} :
    (∃ attributeName, Text.cutAtFirstDot? name = some (owner, attributeName)) ↔
      '.' ∉ owner.toList ∧ owner.toList ++ ['.'] <+: name.toList := by
  simp only [Text.cutAtFirstDot?_eq_some]
  constructor
  · rintro ⟨attributeName, hname, hdot⟩
    exact ⟨hdot, attributeName.toList, by simp [hname]⟩
  · rintro ⟨hdot, rest, hrest⟩
    exact ⟨String.ofList rest, by simp [← hrest], hdot⟩

theorem meansItem_eq (parameters : Table NodeId) (name : String) :
    meansItem parameters name =
      (!parameters.contains name && (localOwner? parameters name).isNone) := by
  rw [Bool.eq_iff_iff, Bool.and_eq_true, Option.isNone_iff_eq_none, Option.eq_none_iff_forall_ne_some]
  simp only [ne_eq, localOwner?_eq_some, exists_cutAtFirstDot?, meansItem, Table.contains, List.all_eq_true,
    decide_eq_true_eq, Bool.not_eq_true', ← Bool.not_eq_true, List.contains_iff_mem]
  constructor
  · intro h
    refine ⟨fun hmem => (h name hmem).1 rfl, ?_⟩
    rintro owner ⟨-, hmem, hattribute⟩
    exact (h owner hmem).2 hattribute
  · rintro ⟨hname, howner⟩ parameter hmem
    exact ⟨fun heq => hname (heq ▸ hmem), fun hattribute => howner parameter ⟨hname, hmem, hattribute⟩⟩

end Format

/-- The expression fields besides the condition of the item. -/
def DeclKind.guardedFields : DeclKind → List NodeId
  | .resource r => r.properties.toList ++ r.value.toList
  | .function f => f.properties.toList ++ f.environment.toList
  | kind => kind.fields

namespace Tree

variable {t : Tree} {directory : Directory} {v : Valuation} {id : NodeId} {d : Decl}
  {guards : List Guard}

/-- A reference: the name of an item, and the node that makes it. -/
abbrev Reference := String × NodeId

/-- The items that an expression itself refers to: by name, or in the placeholders of a format that
can be read. -/
def ownNames (directory : Directory) : Expr → List String
  | .ref name | .getAtt name _ | .conditionRef name => [name]
  | .findInMap mapName _ _ => [mapName]
  | .sub format parameters =>
    match Format.segments format with
    | .error _ => []
    | .ok segments =>
      ((segments.filterMap Format.Segment.placeholder?).filter (Format.meansItem parameters)).map
        fun name => (Format.splitTarget directory name).1
  | _ => []

/-- The references that a node makes to some items; pseudo parameters are none. -/
def referencesAt (id : NodeId) (names : List String) : List Reference :=
  (names.filter fun name => name ∉ pseudoParameters).map fun name => (name, id)

/-- What a walk from a node meets, in order. At an `if` it goes to the condition and then to the
branch that the truth value of the condition selects; elsewhere it goes everywhere. -/
inductive Meets (t : Tree) (directory : Directory) (v : Valuation) :
    NodeId → List Reference → Prop where
  | choice {id condition ifTrue ifFalse : NodeId} {first rest : List Reference}
      (here : t.expr? id = some (.ifElse condition ifTrue ifFalse))
      (before : Meets t directory v condition first)
      (branch : Meets t directory v (if v.truth t condition then ifTrue else ifFalse) rest) :
      Meets t directory v id (first ++ rest)
  | other {id : NodeId} {e : Expr} {below : NodeId → List Reference}
      (here : t.expr? id = some e) (noChoice : ∀ condition ifTrue ifFalse,
        e ≠ .ifElse condition ifTrue ifFalse)
      (children : ∀ c ∈ e.children, Meets t directory v c (below c)) :
      Meets t directory v id (referencesAt id (ownNames directory e) ++ e.children.flatMap below)

/-- Whether the item is there: it has no condition, or one that is true. -/
def isLive (t : Tree) (v : Valuation) (d : Decl) : Bool := d.ifCondition?.all (v.truth t)

/-- The fields that the walk of a declaration visits: the condition always, the others if the item
is there. -/
def visited (t : Tree) (v : Valuation) (d : Decl) : List NodeId :=
  d.ifCondition?.toList ++ if t.isLive v d then d.kind.guardedFields else []

/-- The references that the declaration `d` at an id makes under truth values, in order. -/
def LiveReferences (t : Tree) (directory : Directory) (v : Valuation) (id : NodeId) (d : Decl)
    (references : List Reference) : Prop :=
  ∃ met : NodeId → List Reference,
    (∀ field ∈ t.visited v d, t.Meets directory v field (met field)) ∧
    references = (t.visited v d).flatMap met ++
      if t.isLive v d then referencesAt id d.dependsOn else []

/-! ### Edges whose guards hold -/

/-- The edges all of whose guards hold, as references. -/
def active (v : Valuation) (edges : List Dependency) : List Reference :=
  (edges.filter fun edge => edge.guards.all v.holds).map fun edge => (edge.target, edge.origin)

@[simp] theorem active_nil : active v [] = [] := rfl

@[simp] theorem active_append (edges edges' : List Dependency) :
    active v (edges ++ edges') = active v edges ++ active v edges' := by
  simp [active]

theorem active_flatMap {α : Type} (f : α → List Dependency) (as : List α) :
    active v (as.flatMap f) = as.flatMap fun a => active v (f a) := by
  induction as with
  | nil => rfl
  | cons a as ih => rw [List.flatMap_cons, active_append, ih, List.flatMap_cons]

theorem active_edgesTo (names : List String) (guards : List Guard) (id : NodeId) :
    active v (edgesTo names guards id) =
      if guards.all v.holds then referencesAt id names else [] := by
  have hguards : ∀ name, (Dependency.under guards name id).guards.all v.holds =
      guards.all v.holds := by
    intro name
    rw [Bool.eq_iff_iff, List.all_eq_true, List.all_eq_true]
    simp [Dependency.under, Text.mem_firstOccurrences]
  simp only [active, edgesTo, List.filter_map, Function.comp_def, hguards]
  split
  · next h => simp [h, referencesAt, isPseudoParameter, Dependency.under]
  · next h => simp [h]

theorem mentionedNames_eq (directory : Directory) (e : Expr) :
    mentionedNames directory e = ownNames directory e := by
  cases e with
  | sub format parameters =>
    simp only [mentionedNames, ownNames, Format.directTargets, Format.placeholders,
      ← Format.meansItem_eq]
    cases Format.segments format <;> rfl
  | _ => rfl

theorem mentionsWithin_ifElse {condition ifTrue ifFalse : NodeId}
    (he : t.expr? id = some (.ifElse condition ifTrue ifFalse)) (depth : Nat) :
    t.mentionsWithin directory (depth + 1) guards id =
      t.mentionsWithin directory depth guards condition ++
        t.mentionsWithin directory depth (guards ++ [t.guardFor condition]) ifTrue ++
        t.mentionsWithin directory depth (guards ++ [(t.guardFor condition).negate]) ifFalse := by
  rw [mentionsWithin, expr?_eq_some.mp he]

theorem mentionsWithin_other {e : Expr} (he : t.expr? id = some e)
    (hother : ∀ condition ifTrue ifFalse, e ≠ .ifElse condition ifTrue ifFalse) (depth : Nat) :
    t.mentionsWithin directory (depth + 1) guards id =
      edgesTo (mentionedNames directory e) guards id ++
        e.children.flatMap (t.mentionsWithin directory depth guards) := by
  rw [mentionsWithin, expr?_eq_some.mp he]
  cases e with
  | ifElse condition ifTrue ifFalse => exact absurd rfl (hother condition ifTrue ifFalse)
  | _ => rfl

/-- The edges at a node do not depend on the depth, if that is enough. -/
theorem mentionsWithin_congr {n m : Nat} (hn : Within t.children t.size n id)
    (hm : Within t.children t.size m id) :
    t.mentionsWithin directory n guards id = t.mentionsWithin directory m guards id := by
  induction n generalizing m guards id with
  | zero => exact hn.elim
  | succ n ih =>
    cases m with
    | zero => exact hm.elim
    | succ m =>
      have hbelow : ∀ c ∈ t.children id, ∀ guards,
          t.mentionsWithin directory n guards c = t.mentionsWithin directory m guards c :=
        fun c hc guards => ih (hn.2 c hc) (hm.2 c hc)
      cases he : t.expr? id with
      | none =>
        simp only [mentionsWithin]
        cases hkind : t.kind? id with
        | none => rfl
        | some kind =>
          cases kind with
          | decl d => rfl
          | expr e => rw [expr?_eq_some.mpr hkind] at he; cases he
          | module module =>
            rw [children_of_kind? hkind] at hbelow
            exact List.flatMap_congr fun c hc => hbelow c hc guards
      | some e =>
        rw [children_of_expr? he] at hbelow
        -- Below a choice the guards change, and below all else they are those of the node.
        by_cases hchoice : ∃ condition ifTrue ifFalse, e = .ifElse condition ifTrue ifFalse
        · obtain ⟨condition, ifTrue, ifFalse, rfl⟩ := hchoice
          simp only [Expr.children, List.mem_cons, List.not_mem_nil, or_false,
            forall_eq_or_imp, forall_eq] at hbelow
          rw [mentionsWithin_ifElse he, mentionsWithin_ifElse he, hbelow.1, hbelow.2.1, hbelow.2.2]
        · push Not at hchoice
          rw [mentionsWithin_other he hchoice, mentionsWithin_other he hchoice,
            List.flatMap_congr fun c hc => hbelow c hc guards]

/-- Guards around a walk only decide whether its edges count. -/
theorem active_mentionsWithin (depth : Nat) (guards : List Guard) (id : NodeId) :
    active v (t.mentionsWithin directory depth guards id) =
      if guards.all v.holds then active v (t.mentionsWithin directory depth [] id) else [] := by
  induction depth generalizing guards id with
  | zero => simp [mentionsWithin]
  | succ depth ih =>
    cases he : t.expr? id with
    | none =>
      simp only [mentionsWithin]
      cases hkind : t.kind? id with
      | none => simp
      | some kind =>
        cases kind with
        | decl d => simp
        | expr e => rw [expr?_eq_some.mpr hkind] at he; cases he
        | module module =>
          simp only [active_flatMap, ih guards]
          split <;> simp
    | some e =>
      by_cases hchoice : ∃ condition ifTrue ifFalse, e = .ifElse condition ifTrue ifFalse
      · obtain ⟨condition, ifTrue, ifFalse, rfl⟩ := hchoice
        simp only [mentionsWithin_ifElse he, active_append, ih (guards ++ _), ih guards condition,
          ih ([] ++ _), List.all_append]
        cases guards.all v.holds <;> simp
      · push Not at hchoice
        simp only [mentionsWithin_other he hchoice, active_append, active_flatMap, active_edgesTo,
          ih guards]
        split <;> simp

theorem active_mentions (guards : List Guard) (id : NodeId) :
    active v (t.mentions directory guards id) =
      if guards.all v.holds then active v (t.mentions directory [] id) else [] :=
  active_mentionsWithin t.size guards id

/-- At an `if` the edges that count are those of the condition and of the selected branch. -/
theorem active_mentions_ifElse {condition ifTrue ifFalse : NodeId} (h : t.Grounded id)
    (he : t.expr? id = some (.ifElse condition ifTrue ifFalse)) :
    active v (t.mentions directory [] id) = active v (t.mentions directory [] condition) ++
      active v (t.mentions directory [] (if v.truth t condition then ifTrue else ifFalse)) := by
  obtain ⟨depth, hsize, hbelow⟩ := h.exists_within
  have hchild : ∀ c ∈ t.children id, ∀ guards,
      t.mentionsWithin directory depth guards c = t.mentions directory guards c :=
    fun c hc guards => mentionsWithin_congr (hbelow c hc) (within_of_grounded (h.child hc))
  simp only [children_of_expr? he, Expr.children, List.mem_cons, List.not_mem_nil, or_false,
    forall_eq_or_imp, forall_eq] at hchild
  conv_lhs => rw [mentions, hsize, mentionsWithin_ifElse he, hchild.1, hchild.2.1, hchild.2.2]
  simp only [active_append, active_mentions ([] ++ _)]
  cases htruth : v.truth t condition <;> simp [htruth]

/-- Elsewhere all edges count. -/
theorem active_mentions_other {e : Expr} (h : t.Grounded id) (he : t.expr? id = some e)
    (hother : ∀ condition ifTrue ifFalse, e ≠ .ifElse condition ifTrue ifFalse) :
    active v (t.mentions directory [] id) = referencesAt id (ownNames directory e) ++
      e.children.flatMap fun c => active v (t.mentions directory [] c) := by
  obtain ⟨depth, hsize, hbelow⟩ := h.exists_within
  have hchild : ∀ c ∈ e.children,
      t.mentionsWithin directory depth [] c = t.mentions directory [] c := by
    intro c hc
    rw [← children_of_expr? he] at hc
    exact mentionsWithin_congr (hbelow c hc) (within_of_grounded (h.child hc))
  conv_lhs => rw [mentions, hsize, mentionsWithin_other he hother, List.flatMap_congr hchild]
  rw [active_append, active_edgesTo, active_flatMap, mentionedNames_eq]
  rfl

/-- A walk with truth values meets the edges whose guards hold. -/
theorem meets_iff (hwf : t.WellFormed) (hid : t.Reaches t.root id) (he : (t.expr? id).isSome)
    {references : List Reference} :
    t.Meets directory v id references ↔ references = active v (t.mentions directory [] id) := by
  -- By induction from the leaves; both sides take the same step at a node.
  refine (hwf.grounded_of_reaches hid).induct (P := fun id => t.Reaches t.root id →
    (t.expr? id).isSome → ∀ references, t.Meets directory v id references ↔
      references = active v (t.mentions directory [] id)) ?_ hid he references
  intro id hgrounded ih hid he references
  obtain ⟨e, he⟩ := Option.isSome_iff_exists.mp he
  have hbelow : ∀ c ∈ e.children, ∀ references, t.Meets directory v c references ↔
      references = active v (t.mentions directory [] c) := by
    intro c hc
    rw [← children_of_expr? he] at hc
    exact ih c hc (hid.tail hc) (hwf.expr_of_child hid (Option.isSome_of_eq_some he) hc)
  by_cases hchoice : ∃ condition ifTrue ifFalse, e = .ifElse condition ifTrue ifFalse
  · obtain ⟨condition, ifTrue, ifFalse, rfl⟩ := hchoice
    have hcondition := hbelow condition (by simp [Expr.children])
    have hbranch := hbelow (if v.truth t condition then ifTrue else ifFalse)
      (by split <;> simp [Expr.children])
    rw [active_mentions_ifElse hgrounded he]
    constructor
    · intro hmeets
      cases hmeets with
      | choice here before branch =>
        obtain ⟨rfl, rfl, rfl⟩ := Expr.ifElse.inj (Option.some.inj (he.symm.trans here))
        rw [(hcondition _).mp before, (hbranch _).mp branch]
      | other here noChoice children =>
        obtain rfl := Option.some.inj (he.symm.trans here)
        exact absurd rfl (noChoice condition ifTrue ifFalse)
    · rintro rfl
      exact .choice he ((hcondition _).mpr rfl) ((hbranch _).mpr rfl)
  · push Not at hchoice
    rw [active_mentions_other hgrounded he hchoice]
    constructor
    · intro hmeets
      cases hmeets with
      | choice here before branch =>
        obtain rfl := Option.some.inj (he.symm.trans here)
        exact absurd rfl (hchoice _ _ _)
      | other here noChoice children =>
        obtain rfl := Option.some.inj (he.symm.trans here)
        rw [List.flatMap_congr fun c hc => (hbelow c hc _).mp (children c hc)]
    · rintro rfl
      exact .other he hchoice fun c hc => (hbelow c hc _).mpr rfl

/-! ### Declarations -/

/-- What is left of a list without its first member, if that occurs once. -/
theorem filter_ne_condition (condition : Option NodeId) {fields : List NodeId}
    (h : (condition.toList ++ fields).Nodup) :
    ((condition.toList ++ fields).filter fun field => some field ≠ condition) = fields := by
  cases condition with
  | none => simp
  | some condition =>
    have hnot : ∀ field ∈ fields, field ≠ condition := by
      intro field hfield heq
      exact (List.nodup_cons.mp h).1 (heq ▸ hfield)
    rw [Option.toList_some, List.singleton_append, List.filter_cons_of_neg (by simp),
      List.filter_eq_self]
    simpa using hnot

/-- The fields besides the condition are the fields that are not the condition. -/
theorem filter_fields {d : Decl} (h : d.kind.fields.Nodup) :
    (d.kind.fields.filter fun field => some field ≠ d.ifCondition?) = d.kind.guardedFields := by
  unfold Decl.ifCondition? DeclKind.guardedFields
  cases hkind : d.kind with
  | resource r =>
    rw [hkind, DeclKind.fields, List.append_assoc] at h
    rw [DeclKind.fields, List.append_assoc]
    exact filter_ne_condition r.ifCondition h
  | function f =>
    rw [hkind, DeclKind.fields, List.append_assoc] at h
    rw [DeclKind.fields, List.append_assoc]
    exact filter_ne_condition f.ifCondition h
  | _ => simp

/-- The guards of the fields hold if the item is there. -/
theorem all_fieldGuards (hv : v.Respects t) (d : Decl) :
    (t.fieldGuards d).all v.holds = t.isLive v d := by
  unfold fieldGuards isLive
  cases d.ifCondition? with
  | none => rfl
  | some condition =>
    simp only [Option.all_some]
    split
    · next h => simp [Valuation.truth_of_bool? hv h]
    · simp

theorem active_declMentions (hnodup : d.kind.fields.Nodup) (hv : v.Respects t) :
    active v (t.declMentions directory id d) =
      ((t.visited v d).flatMap fun field => active v (t.mentions directory [] field)) ++
        if t.isLive v d then referencesAt id d.dependsOn else [] := by
  unfold declMentions visited
  dsimp only
  rw [filter_fields hnodup, active_append, active_append, active_flatMap, active_flatMap,
    active_edgesTo, all_fieldGuards hv, List.flatMap_append]
  simp only [active_mentions (t.fieldGuards d), all_fieldGuards hv]
  split <;> simp

theorem visited_subset (t : Tree) (v : Valuation) (hnodup : d.kind.fields.Nodup) :
    t.visited v d ⊆ d.kind.fields := by
  have hcondition : d.ifCondition?.toList ⊆ d.kind.fields := by
    unfold Decl.ifCondition?
    cases d.kind <;> simp [DeclKind.fields]
  have hguarded : d.kind.guardedFields ⊆ d.kind.fields := by
    rw [← filter_fields hnodup]
    exact List.filter_subset_self _
  refine List.append_subset.mpr ⟨hcondition, ?_⟩
  split
  · exact hguarded
  · exact List.nil_subset _

/-- Under any truth values, the edges of a declaration whose guards all hold are its live
references, in order and at the nodes that make them. -/
theorem liveReferences_iff (hwf : t.WellFormed) (hid : t.Reaches t.root id)
    (hd : t.decl? id = some d) (hv : v.Respects t) (references : List Reference) :
    t.LiveReferences directory v id d references ↔
      references = active v (t.declMentions directory id d) := by
  have hfields : d.kind.fields.Sublist (t.children id) := by
    rw [children_of_decl? hd, Decl.children, List.append_assoc]
    exact List.sublist_append_left _ _
  have hnodup := (hwf.nodup hid).sublist hfields
  have hmeets : ∀ field ∈ t.visited v d, ∀ references, t.Meets directory v field references ↔
      references = active v (t.mentions directory [] field) := by
    intro field hfield references
    have hmem := visited_subset t v hnodup hfield
    refine meets_iff hwf (hid.tail (hfields.subset hmem)) (hwf.expr_slot id field hid ?_)
    rw [exprSlots, decl?_eq_some.mp hd]
    exact List.mem_append_left _ hmem
  rw [active_declMentions hnodup hv]
  constructor
  · rintro ⟨met, hmet, rfl⟩
    rw [List.flatMap_congr fun field hfield => (hmeets field hfield _).mp (hmet field hfield)]
  · rintro rfl
    exact ⟨_, fun field hfield => (hmeets field hfield _).mpr rfl, rfl⟩

/-- A module with a queue that production gets, created after a database, which is named for the
stage if an inline condition holds. -/
def gated : Tree where
  nodes := #[
    { kind := .expr (.conditionRef "IsProd"), span := default, parent := some 7 },
    { kind := .expr (.ref "Stage"), span := default, parent := some 3 },
    { kind := .expr (.literal (.string "live")), span := default, parent := some 3 },
    { kind := .expr (.equals 1 2), span := default, parent := some 6 },
    { kind := .expr (.sub "q-${Stage}" .empty), span := default, parent := some 6 },
    { kind := .expr (.getAtt "Db" "Name"), span := default, parent := some 6 },
    { kind := .expr (.ifElse 3 4 5), span := default, parent := some 7 },
    { kind := .decl
        { localName := "Queue"
          kind := .resource
            { ifCondition := some 0, properties := some 6, dependsOn := ["Db", "AWS::Region"] } }
      span := default
      parent := some 8 },
    { kind := .module { items := [7] }, span := default }]
  root := 8

theorem gated_liveReferences :
    gated.WellFormed ∧ ∃ d, gated.decl? 7 = some d ∧
      gated.LiveReferences {} ⟨fun name => name == "IsProd", fun id => id != 3⟩ 7 d
        [("IsProd", 0), ("Stage", 1), ("Db", 5), ("Db", 7)] := by
  have hwf : gated.WellFormed := by
    refine .ofAll (m := { items := [7] }) rfl rfl ?_
    decide +kernel
  have hrespects : Valuation.Respects ⟨fun name => name == "IsProd", fun id => id != 3⟩ gated := by
    intro id hid
    rw [bne_iff_ne]
    rintro rfl
    exact absurd hid (by decide)
  refine ⟨hwf, _, rfl, (liveReferences_iff hwf (.tail .refl ?_) rfl hrespects _).mpr ?_⟩
  · decide
  · decide +kernel

end Tree

end StackTemplate
