import StackTemplate.Proofs.Resolution.Guards
import StackTemplate.Proofs.Resolution.Mirroring

/-!
# Every mention counts

What a declaration mentions is read off its fields node by node, in document order, and off the
items it is created after (`mentioned`). The resolver walks the same fields by recursion, the
condition apart from the others, and pushes guards on the way; its edges come out in the same order
(`map_declMentions`).

So every mention becomes an edge if its name is in the directory. The other names are reported, each
once for every declaration that mentions it, at the first mention (`resolve_mentioned`).
-/

namespace StackTemplate

/-- An edge as the reference that it was found at. -/
def Dependency.reference (edge : Dependency) : Tree.Reference := (edge.target, edge.origin)

namespace Tree

variable {t : Tree} {directory : Directory} {x : NodeId} {d : Decl}

/-- The references that a node itself makes. -/
def ownReferences (t : Tree) (directory : Directory) (x : NodeId) : List Reference :=
  referencesAt x (((t.expr? x).map (ownNames directory)).getD [])

/-- The references that the declaration at an id makes: by its fields, and by what it is created
after. -/
def mentioned (t : Tree) (directory : Directory) (x : NodeId) : List Reference :=
  match t.decl? x with
  | none => []
  | some d =>
    (d.kind.fields.flatMap t.descendants).flatMap (t.ownReferences directory) ++
      referencesAt x d.dependsOn

/-! ### The edges of a declaration -/

theorem map_reference_edgesTo (names : List String) (guards : List Guard) (x : NodeId) :
    (edgesTo names guards x).map Dependency.reference = referencesAt x names := by
  simp [edgesTo, referencesAt, isPseudoParameter, Dependency.reference, Dependency.under]

/-- Whatever the guards, the edges at and below an expression are the references there. -/
theorem map_mentions (hwf : t.WellFormed) (hx : t.Reaches t.root x) (he : (t.expr? x).isSome)
    (guards : List Guard) :
    (t.mentions directory guards x).map Dependency.reference =
      (t.descendants x).flatMap (t.ownReferences directory) := by
  -- By induction from the leaves, for all guards, since the branches of an `if` add some.
  refine (hwf.grounded_of_reaches hx).induct (P := fun x => t.Reaches t.root x →
    (t.expr? x).isSome → ∀ guards, (t.mentions directory guards x).map Dependency.reference =
      (t.descendants x).flatMap (t.ownReferences directory)) ?_ hx he guards
  intro x hgrounded ih hx he guards
  obtain ⟨e, he⟩ := Option.isSome_iff_exists.mp he
  obtain ⟨depth, hsize, hbelow⟩ := hgrounded.exists_within
  have hchild : ∀ c ∈ t.children x, ∀ guards,
      (t.mentionsWithin directory depth guards c).map Dependency.reference =
        (t.descendants c).flatMap (t.ownReferences directory) := by
    intro c hc guards
    rw [mentionsWithin_congr (hbelow c hc) (within_of_grounded (hgrounded.child hc))]
    exact ih c hc (hx.tail hc) (hwf.expr_of_child hx (Option.isSome_of_eq_some he) hc) guards
  rw [children_of_expr? he] at hchild
  have hown : t.ownReferences directory x = referencesAt x (ownNames directory e) := by
    unfold ownReferences
    rw [he]
    rfl
  unfold mentions
  rw [hsize, descendants_eq hgrounded, List.flatMap_cons, hown, children_of_expr? he]
  by_cases hchoice : ∃ condition ifTrue ifFalse, e = .ifElse condition ifTrue ifFalse
  · obtain ⟨condition, ifTrue, ifFalse, rfl⟩ := hchoice
    simp only [Expr.children, List.mem_cons, List.not_mem_nil, or_false, forall_eq_or_imp,
      forall_eq] at hchild
    rw [mentionsWithin_ifElse he, List.map_append, List.map_append, hchild.1, hchild.2.1,
      hchild.2.2]
    simp [Expr.children, ownNames, referencesAt]
  · push Not at hchoice
    rw [mentionsWithin_other he hchoice, List.map_append, map_reference_edgesTo, mentionedNames_eq,
      List.map_flatMap, List.flatMap_assoc]
    exact congrArg _ (List.flatMap_congr fun c hc => hchild c hc guards)

/-- The condition is the first of the fields. -/
theorem condition_append_guardedFields (d : Decl) :
    d.ifCondition?.toList ++ d.kind.guardedFields = d.kind.fields := by
  unfold Decl.ifCondition? DeclKind.guardedFields
  cases d.kind <;> simp [DeclKind.fields]

/-- The edges of a declaration are its references, in order. -/
theorem map_declMentions (hwf : t.WellFormed) (hx : t.Reaches t.root x) (hd : t.decl? x = some d) :
    (t.declMentions directory x d).map Dependency.reference = t.mentioned directory x := by
  have hslots : t.exprSlots x = d.kind.fields ++ d.reference.toList := by
    rw [exprSlots, decl?_eq_some.mp hd]
    rfl
  have hsublist : d.kind.fields.Sublist (t.children x) := by
    rw [children_eq_append, hslots, List.append_assoc]
    exact List.sublist_append_left _ _
  have hfield : ∀ field ∈ d.kind.fields, ∀ guards,
      (t.mentions directory guards field).map Dependency.reference =
        (t.descendants field).flatMap (t.ownReferences directory) := by
    intro field hmem
    apply map_mentions hwf (hx.tail (hsublist.subset hmem))
    apply hwf.expr_slot x field hx
    rw [hslots]
    exact List.mem_append_left _ hmem
  rw [← condition_append_guardedFields, List.forall_mem_append] at hfield
  unfold declMentions mentioned
  rw [hd, filter_fields ((hwf.nodup hx).sublist hsublist), List.map_append, List.map_append,
    map_reference_edgesTo, List.map_flatMap, List.map_flatMap,
    List.flatMap_congr fun field hmem => hfield.1 field hmem _,
    List.flatMap_congr fun field hmem => hfield.2 field hmem _, ← List.flatMap_append,
    condition_append_guardedFields]
  show _ = (d.kind.fields.flatMap t.descendants).flatMap (t.ownReferences directory) ++ _
  rw [List.flatMap_assoc]

/-! ### Names that lead nowhere -/

/-- The references to names that the directory lacks, the first to each name only. -/
def firstUnknown (directory : Directory) (references : List Reference) : List Reference :=
  (references.filter fun m => !directory.contains m.1).eraseDupsBy fun m m' => m.1 == m'.1

/-- What is found so far and what remains, as the loop that drops repetitions has it. -/
theorem foldl_firstUndefined (edges found : List Dependency) :
    (edges.foldl (fun found edge =>
      if directory.contains edge.target || found.any (·.target = edge.target) then found
      else found ++ [edge]) found).map Dependency.reference =
      List.eraseDupsBy.loop (fun m m' : Reference => m.1 == m'.1)
        ((edges.map Dependency.reference).filter fun m => !directory.contains m.1)
        (found.map Dependency.reference).reverse := by
  induction edges generalizing found with
  | nil => simp [List.eraseDupsBy.loop]
  | cons edge edges ih =>
    rw [List.foldl_cons, ih, List.map_cons]
    cases hknown : directory.contains edge.target with
    | true => simp [Dependency.reference, hknown]
    | false =>
      have hany : ((found.map Dependency.reference).reverse.any fun m => edge.reference.1 == m.1) =
          found.any (·.target = edge.target) := by
        rw [List.any_reverse, List.any_map]
        refine List.any_congr rfl fun other => ?_
        rw [Bool.eq_iff_iff, Function.comp_apply, beq_iff_eq, decide_eq_true_eq]
        exact eq_comm
      rw [List.filter_cons_of_pos (by simpa [Dependency.reference] using hknown),
        List.eraseDupsBy.loop, hany, Bool.false_or]
      cases hfound : found.any (·.target = edge.target) <;> simp

theorem map_firstUndefined (directory : Directory) (edges : List Dependency) :
    (firstUndefined directory edges).map Dependency.reference =
      firstUnknown directory (edges.map Dependency.reference) := by
  unfold firstUndefined firstUnknown
  exact foldl_firstUndefined edges []

/-- The reports on references to names that the directory lacks. -/
def unknownReports (t : Tree) (directory : Directory) (references : List Reference) :
    List Diagnostic :=
  (firstUnknown directory references).map fun m =>
    (Diagnostic.report .undefinedReference (t.span m.2)).detail m.1

theorem undefinedReports_eq (t : Tree) (directory : Directory) (edges : List Dependency) :
    t.undefinedReports directory edges =
      t.unknownReports directory (edges.map Dependency.reference) := by
  unfold undefinedReports unknownReports
  rw [← map_firstUndefined, List.map_map]
  rfl

/-! ### All declarations -/

/-- One declaration more has its mentions reported. -/
theorem Resolves.diagnostics_step {r r' : Resolution} {done : List NodeId} (hwf : t.WellFormed)
    (h : Resolves t directory r done) (hspan : r.tree.span = t.span) (hx : t.Reaches t.root x)
    (hstep : resolveDecl directory r x = .ok r') :
    r'.tree.span = t.span ∧ r'.diagnostics =
      r.diagnostics ++ t.unknownReports directory (t.mentioned directory x) := by
  obtain ⟨d', name, hd', -, rfl⟩ := resolveDecl_eq_ok hstep
  obtain ⟨d, hd, -⟩ := h.relabelled.old_decl x hd'
  constructor
  · funext y
    rw [span_recordEdges, hspan]
  · -- Edges move nothing, so the report is the same as for the tree without edges.
    show r.diagnostics ++ r.tree.undefinedReports directory _ = _
    rw [undefinedReports_eq, h.declMentions_eq hd hd', map_declMentions hwf hx hd]
    unfold unknownReports
    rw [hspan]

/-- Resolving reports what the declarations mention, one after the other. -/
theorem resolve_diagnostics {r : Resolution} (hwf : t.WellFormed)
    (h : t.resolve directory = .ok r) : r.diagnostics =
      t.decls.flatMap fun x => t.unknownReports directory (t.mentioned directory x) := by
  refine (foldlM_done (P := fun r done => Resolves t directory r done ∧ r.tree.span = t.span ∧
    r.diagnostics = done.flatMap fun x => t.unknownReports directory (t.mentioned directory x))
    ?_ ⟨.start t directory, rfl, rfl⟩ hwf.nodup_decls h).2.2
  rintro r done x hx r' ⟨hdone, hspan, hreports⟩ hnew hstep
  have hreach := (hwf.mem_decls.mp hx).1
  obtain ⟨hspan', hreports'⟩ := hdone.diagnostics_step hwf hspan hreach hstep
  refine ⟨hdone.step hnew hstep, hspan', ?_⟩
  rw [hreports', hreports, List.flatMap_append, List.flatMap_singleton]

/-- Resolution of a tree with full names and without edges gives every declaration an edge for each
name that it mentions and the directory has, in the order of the mentions. Of the other names that a
declaration mentions each is reported once, at its first mention. -/
theorem resolve_mentioned (hwf : t.WellFormed) (hnamed : t.Named) (hnew : t.Unresolved)
    (directory : Directory) :
    ∃ r, t.resolve directory = .ok r ∧
      (∀ x ∈ t.decls, ∃ d, r.tree.decl? x = some d ∧
        d.dependencies.map Dependency.reference =
          (t.mentioned directory x).filter fun m => directory.contains m.1) ∧
      r.diagnostics =
        t.decls.flatMap fun x => t.unknownReports directory (t.mentioned directory x) := by
  obtain ⟨r, hr⟩ := resolve_ok hwf hnamed directory
  refine ⟨r, hr, fun x hx => ?_, resolve_diagnostics hwf hr⟩
  obtain ⟨hreach, hdecl⟩ := hwf.mem_decls.mp hx
  obtain ⟨d, hd⟩ := Option.isSome_iff_exists.mp hdecl
  obtain ⟨back, hback⟩ := resolve_decl hwf hr hreach hd
  refine ⟨_, hback, ?_⟩
  rw [Decl.dependencies_extend, (hnew x d hreach hd).1, List.nil_append, knownMentions,
    ← map_declMentions hwf hreach hd, List.filter_map]
  rfl

/-- A queue for production that reads a topic in both branches of its name and is created after it,
and a topic. Neither the condition nor `Lost` is declared. -/
def dangling : Tree where
  nodes := #[
    { kind := .expr (.conditionRef "IsProd"), span := ⟨0, 10, 16, by decide⟩, parent := some 5 },
    { kind := .expr (.conditionRef "IsProd"), span := ⟨0, 20, 26, by decide⟩, parent := some 4 },
    { kind := .expr (.sub "${Lost}-${Topic.Arn}-${AWS::Region}" .empty),
      span := ⟨0, 30, 64, by decide⟩, parent := some 4 },
    { kind := .expr (.getAtt "Topic" "Arn"), span := ⟨0, 70, 79, by decide⟩, parent := some 4 },
    { kind := .expr (.ifElse 1 2 3), span := ⟨0, 18, 80, by decide⟩, parent := some 5 },
    { kind := .decl
        { localName := "Queue"
          kind := .resource
            { ifCondition := some 0, properties := some 4, dependsOn := ["Topic", "Lost"] } }
      span := ⟨0, 0, 90, by decide⟩
      parent := some 8 },
    { kind := .expr (.ref "Lost"), span := ⟨0, 100, 104, by decide⟩, parent := some 7 },
    { kind := .decl { localName := "Topic", kind := .var none 6 },
      span := ⟨0, 95, 105, by decide⟩, parent := some 8 },
    { kind := .module { name := "dangling", items := [5, 7] }, span := ⟨0, 0, 110, by decide⟩ }]
  root := 8

/-- The same name is reported for both declarations that mention it. -/
theorem dangling_mentioned :
    ∃ b r, dangling.bind = .ok b ∧ b.tree.resolve b.directory = .ok r ∧
      b.tree.decls = [5, 7] ∧
      b.tree.mentioned b.directory 5 = [("IsProd", 0), ("IsProd", 1), ("Lost", 2), ("Topic", 2),
        ("Topic", 3), ("Topic", 5), ("Lost", 5)] ∧
      (∃ d, r.tree.decl? 5 = some d ∧
        d.dependencies.map Dependency.reference = [("Topic", 2), ("Topic", 3), ("Topic", 5)]) ∧
      r.diagnostics.map (fun report => (report.span.start, report.message)) =
        [(10, DiagnosticKind.undefinedReference.detailed "IsProd"),
          (30, DiagnosticKind.undefinedReference.detailed "Lost"),
          (100, DiagnosticKind.undefinedReference.detailed "Lost")] := by
  have hwf : dangling.WellFormed := by
    refine .ofAll (m := { name := "dangling", items := [5, 7] }) rfl rfl ?_
    decide +kernel
  have hbind : (dangling.bind.map fun b => decide ((∀ x < b.tree.size, (b.tree.decl? x).all fun d =>
      d.dependencies.isEmpty && d.reverseDependencies.isEmpty) ∧
      b.tree.decls = [5, 7] ∧
      b.tree.mentioned b.directory 5 = [("IsProd", 0), ("IsProd", 1), ("Lost", 2), ("Topic", 2),
        ("Topic", 3), ("Topic", 5), ("Lost", 5)] ∧
      ((b.tree.mentioned b.directory 5).filter fun m => b.directory.contains m.1) =
        [("Topic", 2), ("Topic", 3), ("Topic", 5)] ∧
      ([5, 7].flatMap fun x => b.tree.unknownReports b.directory
          (b.tree.mentioned b.directory x)).map (fun report =>
        (report.span.start, report.message)) =
        [(10, DiagnosticKind.undefinedReference.detailed "IsProd"),
          (30, DiagnosticKind.undefinedReference.detailed "Lost"),
          (100, DiagnosticKind.undefinedReference.detailed "Lost")])).toOption = some true := by
    decide +kernel
  obtain ⟨b, hb, hall⟩ := exists_of_toOption_map hbind
  obtain ⟨hnew, hdecls, hmentioned, hknown, hreports⟩ := of_decide_eq_true hall
  have hcoherent := coherent_of_bind hwf hb
  obtain ⟨r, hr, hedges, hdiagnostics⟩ :=
    resolve_mentioned hcoherent.wellFormed hcoherent.named (.ofAll hnew) b.directory
  obtain ⟨d, hd, hreferences⟩ := hedges 5 (hdecls ▸ List.mem_cons_self ..)
  refine ⟨b, r, hb, hr, hdecls, hmentioned, ⟨d, hd, hreferences.trans hknown⟩, ?_⟩
  rw [hdiagnostics, hdecls, hreports]

end Tree

end StackTemplate
