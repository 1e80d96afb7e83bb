import StackTemplate.Proofs.Format.Sense
import StackTemplate.Proofs.Resolution.Guards

/-!
# Extracting placeholders keeps what strings refer to

The names that the strings of a declaration mention directly are, after the extraction of their
placeholders, the names that the parameters of these strings mention (`Normalizes.mem_targets`).
`Faithful` collects what the two trees have in common, and `normalize_faithful` says that
extraction is faithful.
-/

namespace StackTemplate

open Format

variable {t t' : Tree} {directory : Directory} {f : NodeId → NodeId} {x y : NodeId} {e : Expr}

/-! ### Names that are mentioned -/

theorem DeclKind.fields_mapSlots (f : NodeId → NodeId) (kind : DeclKind) :
    (kind.mapSlots f).fields = kind.fields.map f := by
  cases kind <;> simp [DeclKind.mapSlots, DeclKind.fields, Option.toList_map]

theorem Decl.dependsOn_mapSlots (f : NodeId → NodeId) (d : Decl) :
    (d.mapSlots f).dependsOn = d.dependsOn := by
  unfold Decl.dependsOn Decl.mapSlots
  cases d.kind <;> rfl

namespace Tree

/-- The names that the expression at a node mentions, in order. -/
def targets (t : Tree) (directory : Directory) (id : NodeId) : List String :=
  (t.mentions directory [] id).map (·.target)

theorem targets_edgesTo (names : List String) (guards : List Guard) (id : NodeId) :
    (edgesTo names guards id).map (·.target) =
      names.filter fun name => !isPseudoParameter name := by
  rw [edgesTo, List.map_map]
  exact List.map_id _

/-- Guards do not change which names are mentioned. -/
theorem targets_mentionsWithin (depth : Nat) (guards : List Guard) (id : NodeId) :
    (t.mentionsWithin directory depth guards id).map (·.target) =
      (t.mentionsWithin directory depth [] id).map (·.target) := by
  induction depth generalizing guards id with
  | zero => rfl
  | succ depth ih =>
    cases he : t.expr? id with
    | none =>
      simp only [mentionsWithin]
      cases hkind : t.kind? id with
      | none => rfl
      | some kind =>
        cases kind with
        | decl d => rfl
        | expr e => rw [expr?_eq_some.mpr hkind] at he; cases he
        | module module => simp only [List.map_flatMap, ih guards]
    | some e =>
      -- Only a choice guards its operands with more than it is guarded with itself.
      by_cases hchoice : ∃ condition ifTrue ifFalse, e = .ifElse condition ifTrue ifFalse
      · obtain ⟨condition, ifTrue, ifFalse, rfl⟩ := hchoice
        simp only [mentionsWithin_ifElse he, List.map_append, ih guards, ih (guards ++ _),
          ih ([] ++ _)]
      · push Not at hchoice
        simp only [mentionsWithin_other he hchoice, List.map_append, targets_edgesTo,
          List.map_flatMap, ih guards]

/-- An expression mentions names itself and in its operands. -/
theorem targets_eq (hx : t.Grounded x) (he : t.expr? x = some e) :
    t.targets directory x =
      ((mentionedNames directory e).filter fun name => !isPseudoParameter name) ++
        e.children.flatMap (t.targets directory) := by
  obtain ⟨depth, hsize, hbelow⟩ := hx.exists_within
  have hchild : ∀ c ∈ e.children, ∀ guards,
      (t.mentionsWithin directory depth guards c).map (·.target) = t.targets directory c := by
    intro c hc guards
    rw [← children_of_expr? he] at hc
    rw [targets_mentionsWithin,
      mentionsWithin_congr (hbelow c hc) (within_of_grounded (hx.child hc))]
    rfl
  conv_lhs => rw [targets, mentions, hsize]
  by_cases hchoice : ∃ condition ifTrue ifFalse, e = .ifElse condition ifTrue ifFalse
  · obtain ⟨condition, ifTrue, ifFalse, rfl⟩ := hchoice
    simp only [Expr.children, List.mem_cons, List.not_mem_nil, or_false, forall_eq_or_imp,
      forall_eq] at hchild
    rw [mentionsWithin_ifElse he, List.map_append, List.map_append, hchild.1, hchild.2.1,
      hchild.2.2]
    simp [mentionedNames, Expr.children]
  · push Not at hchoice
    rw [mentionsWithin_other he hchoice, List.map_append, targets_edgesTo, List.map_flatMap,
      List.flatMap_congr fun c hc => hchild c hc []]

theorem mentionedNames_mapSlots (f : NodeId → NodeId) (e : Expr) :
    mentionedNames directory (e.mapSlots f) = mentionedNames directory e := by
  cases e with
  | sub format parameters =>
    simp only [Expr.mapSlots, mentionedNames, directTargets, Table.contains, Table.keys_mapValues,
      localOwner?_mapValues]
  | _ => rfl

/-- The names that the declaration `d` at an id mentions are those of its fields and of the items
that it is created after. -/
theorem mem_targets_declMentions {id : NodeId} {d : Decl} {name : String} :
    name ∈ (t.declMentions directory id d).map (·.target) ↔
      (∃ field ∈ d.kind.fields, name ∈ t.targets directory field) ∨
        name ∈ d.dependsOn.filter fun name => !isPseudoParameter name := by
  have hcondition : ∀ c ∈ d.ifCondition?, c ∈ d.kind.fields := by
    unfold Decl.ifCondition?
    cases d.kind <;> simp +contextual [DeclKind.fields]
  have hguards : ∀ guards c,
      (t.mentions directory guards c).map (·.target) = t.targets directory c :=
    fun guards c => targets_mentionsWithin t.size guards c
  simp only [declMentions, List.map_append, List.map_flatMap, hguards, targets_edgesTo,
    List.mem_append, List.mem_flatMap, List.mem_filter, decide_eq_true_eq, Option.mem_toList]
  refine or_congr_left ⟨?_, ?_⟩
  · rintro (⟨c, hc, hname⟩ | ⟨c, ⟨hc, -⟩, hname⟩)
    · exact ⟨c, hcondition c hc, hname⟩
    · exact ⟨c, hc, hname⟩
  · rintro ⟨c, hc, hname⟩
    by_cases heq : some c = d.ifCondition?
    · exact .inl ⟨c, heq.symm, hname⟩
    · exact .inr ⟨c, ⟨hc, heq⟩, hname⟩

end Tree

namespace Format

open StackTemplate.Tree

theorem mentionedNames_lookUp (directory : Directory) (name : String) :
    mentionedNames directory (lookUp directory name) = [(splitTarget directory name).1] := by
  unfold lookUp
  split
  · next h => simp [mentionedNames, h]
  · next h => simp [mentionedNames, h]

/-- The names that a format names directly are those of its foreign placeholders. -/
theorem mem_directTargets {format : String} {parameters : Table NodeId} {names : List String}
    {target : String} (h : placeholders format = .ok names) :
    target ∈ directTargets directory format parameters ↔
      ∃ name ∈ names, Foreign parameters name ∧ (splitTarget directory name).1 = target := by
  simp only [directTargets, h, List.mem_map, List.mem_filter, Bool.and_eq_true,
    Bool.not_eq_true', Table.contains, Option.isNone_iff_eq_none, Foreign, ← Bool.not_eq_true,
    List.contains_iff_mem, and_assoc]

section Extracted

variable {format format' : String} {parameters parameters' : Table NodeId} {pieces : List Segment}
  {ids : List NodeId} (hlength : ids.length = (extracting parameters pieces).found.length)

include hlength

/-- With fresh parameters a format names nothing directly. -/
theorem mentionedNames_extracted
    (hentries : parameters'.entries = (parameters.mapValues f).entries ++
      ((extracting parameters pieces).found.zip ids).map fun pair => (pair.1.parameter, pair.2))
    (hcut : segments format = .ok pieces)
    (hformat : withParameters (extracting parameters pieces).found format = .ok format') :
    mentionedNames directory (.sub format' parameters') = [] := by
  refine List.eq_nil_iff_forall_not_mem.mpr fun target htarget => ?_
  obtain ⟨name', hname', hforeign, -⟩ := (mem_directTargets
    ((extracting_spec parameters pieces).placeholders_withParameters hcut hformat)).mp htarget
  obtain ⟨name, hname, rfl⟩ := List.mem_map.mp hname'
  exact not_foreign_renamed hlength hentries hname hforeign

/-- What the format named directly is mentioned by the look-ups. -/
theorem mem_mentionedNames_extracted {targets : NodeId → List String} {name : String}
    (hcut : segments format = .ok pieces)
    (hlookUps : ∀ pair ∈ (extracting parameters pieces).found.zip ids, targets pair.2 =
      [(splitTarget directory pair.1.name).1].filter fun name => !isPseudoParameter name) :
    (∃ pair ∈ (extracting parameters pieces).found.zip ids, name ∈ targets pair.2) ↔
      name ∈ (mentionedNames directory (.sub format parameters)).filter
        fun name => !isPseudoParameter name := by
  have hplaceholders : placeholders format = .ok (pieces.filterMap Segment.placeholder?) := by
    rw [placeholders, hcut]
    rfl
  rw [List.mem_filter, mentionedNames, mem_directTargets hplaceholders]
  constructor
  · rintro ⟨pair, hpair, hname⟩
    rw [hlookUps pair hpair, List.mem_filter, List.mem_singleton] at hname
    obtain ⟨hseen, hforeign⟩ :=
      (extracting_spec parameters pieces).foreign pair.1 (List.of_mem_zip hpair).1
    exact ⟨⟨pair.1.name, hseen, hforeign, hname.1.symm⟩, hname.2⟩
  · rintro ⟨⟨placeholder, hseen, hforeign, rfl⟩, hpseudo⟩
    obtain ⟨pair, hpair, rfl, -⟩ := exists_pair_of_foreign hlength hseen hforeign
    refine ⟨pair, hpair, ?_⟩
    rw [hlookUps pair hpair, List.mem_filter]
    exact ⟨List.mem_singleton.mpr rfl, hpseudo⟩

end Extracted

section Normalizes

variable (h : Normalizes t t' directory f) (hwf : t.WellFormed)

include h hwf

/-- An expression says what it said. -/
theorem Normalizes.sense_eq (hx : t.Reaches t.root x) (he : (t.expr? x).isSome) :
    t'.sense directory (f x) = t.sense directory x := by
  -- From the leaves up, since a string says what its parameters say.
  refine (hwf.grounded_of_reaches hx).induct (P := fun x => t.Reaches t.root x →
    (t.expr? x).isSome → t'.sense directory (f x) = t.sense directory x) ?_ hx he
  intro x hgrounded ih hx he
  obtain ⟨e, he⟩ := Option.isSome_iff_exists.mp he
  have hgrounded' := h.rewired.wellFormed.grounded_of_reaches (h.reaches x hx)
  have hbelow : ∀ c ∈ e.children, t'.sense directory (f c) = t.sense directory c := by
    intro c hc
    rw [← children_of_expr? he] at hc
    exact ih c hc (hx.tail hc) (hwf.expr_of_child hx (Option.isSome_of_eq_some he) hc)
  rw [Tree.sense_eq hgrounded he]
  cases h.becomes x e hx he with
  | kept stays content =>
    rw [stays] at hgrounded' ⊢
    rw [Tree.sense_eq hgrounded' content, Expr.sense_mapSlots]
    exact Expr.sense_congr hbelow
  | extracted cut renamed length_eq lookUps entries_eq content =>
    rw [Tree.sense_eq hgrounded' content]
    refine sense_extracted length_eq entries_eq cut renamed hbelow fun pair hpair => ?_
    have hmem := mem_children_extracted entries_eq content hpair
    rw [Tree.sense_eq (hgrounded'.child hmem) (lookUps pair hpair)]
    unfold lookUp
    split <;> rfl

/-- An expression mentions the names that it mentioned. -/
theorem Normalizes.mem_targets (hx : t.Reaches t.root x) (he : (t.expr? x).isSome)
    (name : String) : name ∈ t'.targets directory (f x) ↔ name ∈ t.targets directory x := by
  refine (hwf.grounded_of_reaches hx).induct (P := fun x => t.Reaches t.root x →
    (t.expr? x).isSome → (name ∈ t'.targets directory (f x) ↔ name ∈ t.targets directory x))
      ?_ hx he
  intro x hgrounded ih hx he
  obtain ⟨e, he⟩ := Option.isSome_iff_exists.mp he
  have hgrounded' := h.rewired.wellFormed.grounded_of_reaches (h.reaches x hx)
  have hbelow : (∃ c ∈ e.children.map f, name ∈ t'.targets directory c) ↔
      ∃ c ∈ e.children, name ∈ t.targets directory c := by
    simp only [List.mem_map, exists_exists_and_eq_and]
    refine exists_congr fun c => and_congr_right fun hc => ?_
    rw [← children_of_expr? he] at hc
    exact ih c hc (hx.tail hc) (hwf.expr_of_child hx (Option.isSome_of_eq_some he) hc)
  rw [targets_eq hgrounded he, List.mem_append, List.mem_flatMap, ← hbelow]
  cases h.becomes x e hx he with
  | kept stays content =>
    rw [stays] at hgrounded' ⊢
    rw [targets_eq hgrounded' content, mentionedNames_mapSlots, Expr.children_mapSlots,
      List.mem_append, List.mem_flatMap]
  | @extracted format format' parameters parameters' pieces ids cut renamed length_eq lookUps
      entries_eq content =>
    have hlookUps : ∀ pair ∈ (extracting parameters pieces).found.zip ids,
        t'.targets directory pair.2 =
          [(splitTarget directory pair.1.name).1].filter fun name => !isPseudoParameter name := by
      intro pair hpair
      have hmem := mem_children_extracted entries_eq content hpair
      rw [targets_eq (hgrounded'.child hmem) (lookUps pair hpair), mentionedNames_lookUp,
        children_lookUp]
      exact List.append_nil _
    -- The string mentions nothing itself now; its new operands mention what it mentioned.
    rw [targets_eq hgrounded' content, mentionedNames_extracted length_eq entries_eq cut renamed,
      ← mem_mentionedNames_extracted length_eq cut hlookUps, Expr.children,
      values_extracted entries_eq, List.filter_nil, List.nil_append, List.flatMap_append,
      List.mem_append, or_comm, List.mem_flatMap, List.mem_flatMap]
    simp only [List.mem_map, exists_exists_and_eq_and]
    rfl

/-- A node within reach is one that was, or has become of one that was, or is a look-up. -/
theorem Normalizes.exists_of_reaches (hy : t'.Reaches t'.root y) :
    (t.Reaches t.root y ∧ t.expr? y = none) ∨
      (∃ x, t.Reaches t.root x ∧ (t.expr? x).isSome ∧ f x = y) ∨
      ∃ name, t'.expr? y = some (lookUp directory name) := by
  induction hy with
  | refl =>
    rw [h.rewired.root_eq]
    exact .inl ⟨.refl, hwf.expr?_root⟩
  | @tail p c _ hc ih =>
    -- What a slot held is an expression, or an item and stays.
    have hold : ∀ p c, t.Reaches t.root p → c ∈ t.children p →
        (t.Reaches t.root (f c) ∧ t.expr? (f c) = none) ∨
          ∃ x, t.Reaches t.root x ∧ (t.expr? x).isSome ∧ f x = f c := by
      intro p c hp hc
      rcases hwf.expr_or_decl hp hc with hexpr | hdecl
      · exact .inr ⟨c, hp.tail hc, hexpr, rfl⟩
      · obtain ⟨d, hd⟩ := Option.isSome_iff_exists.mp hdecl
        rw [h.rewired.item c d (hp.tail hc) hd]
        exact .inl ⟨hp.tail hc, expr?_of_decl? hd⟩
    rcases ih with ⟨hp, hnone⟩ | ⟨x, hx, hsome, rfl⟩ | ⟨name, hname⟩
    · have hkind := (h.rewired.host p hp hnone).2
      obtain ⟨kind, hk⟩ := exists_kind? (hwf.lt_size hp)
      rw [hk, Option.map_some] at hkind
      rw [children_of_kind? hkind, NodeKind.children_mapSlots, ← children_of_kind? hk] at hc
      obtain ⟨c, hc', rfl⟩ := List.mem_map.mp hc
      exact (hold p c hp hc').imp_right .inl
    · obtain ⟨e, he⟩ := Option.isSome_iff_exists.mp hsome
      have hslot : ∀ c' ∈ e.children.map f, (t.Reaches t.root c' ∧ t.expr? c' = none) ∨
          ∃ x, t.Reaches t.root x ∧ (t.expr? x).isSome ∧ f x = c' := by
        intro c' hc'
        obtain ⟨c, hc, rfl⟩ := List.mem_map.mp hc'
        rw [← children_of_expr? he] at hc
        exact hold x c hx hc
      cases h.becomes x e hx he with
      | kept stays content =>
        rw [stays, children_of_expr? content, Expr.children_mapSlots] at hc
        exact (hslot c hc).imp_right .inl
      | extracted cut renamed length_eq lookUps entries_eq content =>
        rw [children_of_expr? content, Expr.children, values_extracted entries_eq,
          List.mem_append] at hc
        rcases hc with hc | hc
        · exact (hslot c hc).imp_right .inl
        · obtain ⟨pair, hpair, rfl⟩ := List.mem_map.mp hc
          exact .inr (.inr ⟨pair.1.name, lookUps pair hpair⟩)
    · rw [children_of_expr? hname, children_lookUp] at hc
      exact absurd hc List.not_mem_nil

/-- A string has become of a string. -/
theorem Normalizes.exists_string {format' : String} {parameters' : Table NodeId}
    (hy : t'.Reaches t'.root y) (he : t'.expr? y = some (.sub format' parameters')) :
    ∃ x format parameters,
      t.Reaches t.root x ∧ t.expr? x = some (.sub format parameters) ∧ f x = y := by
  rcases h.exists_of_reaches hwf hy with ⟨hold, hnone⟩ | ⟨x, hx, hsome, rfl⟩ | ⟨name, hname⟩
  · rw [h.rewired.expr_host hold hnone] at he
    cases he
  · obtain ⟨e, hx'⟩ := Option.isSome_iff_exists.mp hsome
    cases h.becomes x e hx hx' with
    | kept stays content =>
      rw [stays, content] at he
      cases e with
      | sub format parameters => exact ⟨x, format, parameters, hx, hx', rfl⟩
      | _ => cases he
    | extracted cut renamed length_eq lookUps entries_eq content =>
      exact ⟨x, _, _, hx, hx', rfl⟩
  · rw [hname] at he
    unfold lookUp at he
    split at he <;> cases he

/-- A declaration mentions the names that it mentioned. -/
theorem Normalizes.mem_targets_declMentions {d : Decl} (hx : t.Reaches t.root x)
    (hd : t.decl? x = some d) (name : String) :
    name ∈ (t'.declMentions directory x (d.mapSlots f)).map (·.target) ↔
      name ∈ (t.declMentions directory x d).map (·.target) := by
  have hfield : ∀ field ∈ d.kind.fields,
      (name ∈ t'.targets directory (f field) ↔ name ∈ t.targets directory field) := by
    intro field hfield
    have hslot : field ∈ t.exprSlots x := by
      rw [exprSlots, decl?_eq_some.mp hd]
      exact List.mem_append_left _ hfield
    exact h.mem_targets hwf (hx.tail (mem_children.mpr (.inl hslot)))
      (hwf.expr_slot x field hx hslot) name
  rw [Tree.mem_targets_declMentions, Tree.mem_targets_declMentions, Decl.dependsOn_mapSlots]
  refine or_congr_left ?_
  show (∃ field ∈ (d.kind.mapSlots f).fields, _) ↔ _
  rw [DeclKind.fields_mapSlots]
  simp only [List.mem_map, exists_exists_and_eq_and]
  exact exists_congr fun field => and_congr_right (hfield field)

end Normalizes

/-- What is the same in a tree and in the one with extracted placeholders, where `f` says which node
takes the place of which. -/
structure Faithful (t t' : Tree) (directory : Directory) (f : NodeId → NodeId) : Prop where
  rewired : Rewired t t' f
  /-- Every expression has a counterpart that says the same. -/
  sense_eq : ∀ x, t.Reaches t.root x → (t.expr? x).isSome →
    t'.Reaches t'.root (f x) ∧ t'.sense directory (f x) = t.sense directory x
  /-- The counterpart of a string has its parameters, in order, before any others. -/
  parameters_prefix : ∀ x format parameters, t.Reaches t.root x →
    t.expr? x = some (.sub format parameters) →
    ∃ format' parameters', t'.expr? (f x) = some (.sub format' parameters') ∧
      (parameters.mapValues f).entries <+: parameters'.entries
  /-- A string with a malformed format stays, but for what its parameters hold. -/
  malformed : ∀ x format parameters m, t.Reaches t.root x →
    t.expr? x = some (.sub format parameters) → segments format = .error m →
    f x = x ∧ t'.expr? x = some (.sub format (parameters.mapValues f))
  /-- So do all expressions that are no strings. -/
  other : ∀ x e, t.Reaches t.root x → t.expr? x = some e →
    (∀ format parameters, e ≠ .sub format parameters) → f x = x ∧ t'.expr? x = some (e.mapSlots f)
  /-- All strings are counterparts of strings. -/
  onto : ∀ y format' parameters', t'.Reaches t'.root y →
    t'.expr? y = some (.sub format' parameters') →
    ∃ x format parameters, t.Reaches t.root x ∧ t.expr? x = some (.sub format parameters) ∧ f x = y
  /-- A declaration mentions the same names. -/
  mem_targets : ∀ id d, t.Reaches t.root id → t.decl? id = some d →
    t'.decl? id = some (d.mapSlots f) ∧
      ∀ name, name ∈ (t'.declMentions directory id (d.mapSlots f)).map (·.target) ↔
        name ∈ (t.declMentions directory id d).map (·.target)

/-- Extracting the placeholders of all strings leaves what they refer to as it is. -/
theorem normalize_faithful (hwf : t.WellFormed) (directory : Directory) :
    ∃ f, Faithful t (normalize t directory).tree directory f := by
  obtain ⟨f, h⟩ := normalize_spec hwf directory
  refine ⟨f,
    { rewired := h.rewired
      sense_eq := fun x hx he => ⟨h.reaches x hx, h.sense_eq hwf hx he⟩
      parameters_prefix := fun x format parameters hx he => ?_
      malformed := fun x format parameters m hx he hm => ?_
      other := fun x e hx he hother => ?_
      onto := fun y format' parameters' hy he => ?_
      mem_targets := fun id d hid hd => ?_ }⟩
  · cases h.becomes x _ hx he with
    | kept stays content =>
      rw [stays]
      exact ⟨_, _, content, List.prefix_rfl⟩
    | extracted cut renamed length_eq lookUps entries_eq content =>
      exact ⟨_, _, content, entries_eq ▸ List.prefix_append _ _⟩
  · cases h.becomes x _ hx he with
    | kept stays content => exact ⟨stays, content⟩
    | extracted cut renamed length_eq lookUps entries_eq content =>
      rw [hm] at cut
      cases cut
  · cases h.becomes x _ hx he with
    | kept stays content => exact ⟨stays, content⟩
    | extracted cut renamed length_eq lookUps entries_eq content => exact absurd rfl (hother _ _)
  · exact h.exists_string hwf hy he
  · have hkind := (h.rewired.host id hid (expr?_of_decl? hd)).2
    rw [decl?_eq_some.mp hd] at hkind
    exact ⟨decl?_eq_some.mpr hkind, h.mem_targets_declMentions hwf hid hd⟩

/-- A module with a string that names an item by a name that fresh parameters have, an attribute of
it, an attribute of a local parameter, and the parameter, which holds a string. -/
def shadowing : Tree where
  nodes := #[
    { kind := .expr (.sub "${Stage}" .empty), span := default, parent := some 1 },
    { kind := .expr (.sub "${P1}-${P1.Arn}-${A.Arn}-${A}" (.ofList [("A", 0)])), span := default,
      parent := some 2 },
    { kind := .decl { localName := "Label", kind := .var none 1 }, span := default,
      parent := some 3 },
    { kind := .module { items := [2] }, span := default }]
  root := 3

theorem shadowing_faithful : shadowing.WellFormed ∧
    ∃ f, Faithful shadowing (normalize shadowing {}).tree {} f := by
  have hwf : shadowing.WellFormed := by
    refine .ofAll (m := { items := [2] }) rfl rfl ?_
    decide +kernel
  exact ⟨hwf, normalize_faithful hwf {}⟩

example : (normalize shadowing {}).tree.expr? 6 =
    some (.sub "${P1}-${P2}-${A.Arn}-${A}" (.ofList [("A", 8), ("P1", 4), ("P2", 5)])) := by
  decide +kernel

end Format

end StackTemplate
