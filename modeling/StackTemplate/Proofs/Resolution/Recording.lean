import StackTemplate.Proofs.Binding
import StackTemplate.Resolution.Edges

/-!
# Recording dependencies labels the tree

Edges are labels on declarations. Resolution only asks for the full name of every declaration, so
it succeeds once names are bound.
-/

namespace StackTemplate

/-- The declaration with more edges. -/
def Decl.extend (out back : List Dependency) (d : Decl) : Decl :=
  { d with
    dependencies := d.dependencies ++ out
    reverseDependencies := d.reverseDependencies ++ back }

namespace Decl

variable (out back out' back' : List Dependency) (d : Decl)

@[simp] theorem kind_extend : (d.extend out back).kind = d.kind := rfl

@[simp] theorem fullName_extend : (d.extend out back).fullName = d.fullName := rfl

@[simp] theorem dependencies_extend :
    (d.extend out back).dependencies = d.dependencies ++ out := rfl

@[simp] theorem reverseDependencies_extend :
    (d.extend out back).reverseDependencies = d.reverseDependencies ++ back := rfl

@[simp] theorem extend_nil : d.extend [] [] = d := by
  simp [extend]

@[simp] theorem extend_extend :
    (d.extend out back).extend out' back' = d.extend (out ++ out') (back ++ back') := by
  simp [extend]

end Decl

namespace Tree

variable {t : Tree} {directory : Directory}

/-- An edge goes to the declaration that it starts from, and back to the one that it leads to. -/
theorem decl?_recordEdge (t : Tree) (source : NodeId) (sourceName : String) (target : NodeId)
    (edge : Dependency) (x : NodeId) :
    (t.recordEdge source sourceName target edge).decl? x =
      (t.decl? x).map (Decl.extend (if x = source then [edge] else [])
        (if x = target then [edge.reversed sourceName] else [])) := by
  rw [recordEdge, decl?_modifyDecl, decl?_modifyDecl]
  cases t.decl? x with
  | none => simp
  | some d => split_ifs <;> simp [Decl.extend]

theorem span_recordEdge (t : Tree) (source : NodeId) (sourceName : String) (target : NodeId)
    (edge : Dependency) (x : NodeId) :
    (t.recordEdge source sourceName target edge).span x = t.span x := by
  rw [recordEdge, span_modifyDecl, span_modifyDecl]

theorem recordEdges_cons (t : Tree) (directory : Directory) (source : NodeId)
    (sourceName : String) (edge : Dependency) (edges : List Dependency) :
    t.recordEdges directory source sourceName (edge :: edges) =
      (match directory.get? edge.target with
        | some target => t.recordEdge source sourceName target edge
        | none => t).recordEdges directory source sourceName edges := by
  rw [recordEdges, List.foldl_cons]
  rfl

theorem span_recordEdges (directory : Directory) (source : NodeId) (sourceName : String)
    (edges : List Dependency) (t : Tree) (x : NodeId) :
    (t.recordEdges directory source sourceName edges).span x = t.span x := by
  induction edges generalizing t with
  | nil => rfl
  | cons edge edges ih =>
    rw [recordEdges_cons, ih]
    split
    · exact span_recordEdge ..
    · rfl

/-- A declaration gets those of its edges that lead to items of the directory. -/
theorem decl?_recordEdges (directory : Directory) (source : NodeId) (sourceName : String)
    (edges : List Dependency) (t : Tree) (x : NodeId) :
    ∃ back, (t.recordEdges directory source sourceName edges).decl? x =
      (t.decl? x).map (Decl.extend
        (if x = source then edges.filter fun edge => directory.contains edge.target else [])
        back) := by
  induction edges generalizing t with
  | nil => exact ⟨[], by cases hd : t.decl? x <;> simp [recordEdges, hd]⟩
  | cons edge edges ih =>
    rw [recordEdges_cons]
    have hcontains : directory.contains edge.target = (directory.get? edge.target).isSome :=
      Table.contains_eq_isSome _ _
    cases hget : directory.get? edge.target with
    | none =>
      rw [hget] at hcontains
      obtain ⟨back, hback⟩ := ih t
      exact ⟨back, by simp [hback, hcontains]⟩
    | some target =>
      rw [hget] at hcontains
      obtain ⟨back, hback⟩ := ih (t.recordEdge source sourceName target edge)
      refine ⟨(if x = target then [edge.reversed sourceName] else []) ++ back, ?_⟩
      rw [hback, decl?_recordEdge]
      cases t.decl? x with
      | none => rfl
      | some d => by_cases hs : x = source <;> simp [hs, hcontains]

theorem recordEdge_relabelled (t : Tree) (source : NodeId) (sourceName : String) (target : NodeId)
    (edge : Dependency) : Relabelled t (t.recordEdge source sourceName target edge) := by
  have hlabels : ∀ d : Decl, d.Relabels { d with dependencies := d.dependencies ++ [edge] } :=
    fun d => .ofKind rfl (fun _ h => h) rfl rfl
  have hlabels' : ∀ d : Decl, d.Relabels
      { d with reverseDependencies := d.reverseDependencies ++ [edge.reversed sourceName] } :=
    fun d => .ofKind rfl (fun _ h => h) rfl rfl
  exact (Relabelled.modifyDecl fun d _ => hlabels d).trans (.modifyDecl fun d _ => hlabels' d)

theorem recordEdges_relabelled (directory : Directory) (source : NodeId) (sourceName : String)
    (edges : List Dependency) (t : Tree) :
    Relabelled t (t.recordEdges directory source sourceName edges) := by
  unfold recordEdges
  induction edges generalizing t with
  | nil => exact .refl t
  | cons edge edges ih =>
    rw [List.foldl_cons]
    refine Relabelled.trans ?_ (ih _)
    split
    · exact recordEdge_relabelled t _ _ _ _
    · exact .refl t

/-! ### Mentions do not depend on labels -/

theorem Relabelled.bool?_eq {t' : Tree} (h : Relabelled t t') (x : NodeId) :
    t'.bool? x = t.bool? x := by
  rw [bool?, bool?, literal?, literal?, h.expr?_eq]

theorem Relabelled.guardFor_eq {t' : Tree} (h : Relabelled t t') (x : NodeId) :
    t'.guardFor x = t.guardFor x := by
  rw [guardFor, guardFor, h.expr?_eq]

theorem Relabelled.mentionsWithin_eq {t' : Tree} (h : Relabelled t t') (directory : Directory)
    (depth : Nat) (guards : List Guard) (x : NodeId) :
    t'.mentionsWithin directory depth guards x = t.mentionsWithin directory depth guards x := by
  induction depth generalizing guards x with
  | zero => rfl
  | succ depth ih =>
    have hbelow : t'.mentionsWithin directory depth = t.mentionsWithin directory depth := by
      funext guards y
      exact ih guards y
    rcases h.kind x with heq | ⟨d, d', hd, hd', -⟩
    · simp only [mentionsWithin, heq, hbelow, h.guardFor_eq]
    · simp only [mentionsWithin, hd, hd']

/-- A declaration of the same sort mentions the same. -/
theorem Relabelled.declMentions_eq {t' : Tree} (h : Relabelled t t') (directory : Directory)
    (x : NodeId) {d d' : Decl} (hkind : d'.kind = d.kind) :
    t'.declMentions directory x d' = t.declMentions directory x d := by
  have hmentions : t'.mentions directory = t.mentions directory := by
    funext guards y
    rw [mentions, mentions, h.size_eq, h.mentionsWithin_eq]
  have hcondition : d'.ifCondition? = d.ifCondition? := by
    rw [Decl.ifCondition?, Decl.ifCondition?, hkind]
  have hdependsOn : d'.dependsOn = d.dependsOn := by
    rw [Decl.dependsOn, Decl.dependsOn, hkind]
  have hguards : t'.fieldGuards d' = t.fieldGuards d := by
    simp only [fieldGuards, hcondition, h.bool?_eq, h.guardFor_eq]
  simp only [declMentions, hkind, hmentions, hcondition, hdependsOn, hguards]

/-! ### All declarations -/

/-- Resolving a declaration records its edges and reports those that lead nowhere. -/
theorem resolveDecl_eq_ok {r r' : Resolution} {id : NodeId}
    (h : resolveDecl directory r id = .ok r') :
    ∃ d name, r.tree.decl? id = some d ∧ d.fullName = some name ∧
      r' = { tree := r.tree.recordEdges directory id name (r.tree.declMentions directory id d)
             diagnostics := r.diagnostics ++
               r.tree.undefinedReports directory (r.tree.declMentions directory id d) } := by
  unfold resolveDecl at h
  cases hd : r.tree.decl id with
  | error fault =>
    rw [hd] at h
    cases h
  | ok d =>
    cases hname : r.tree.fullName id with
    | error fault =>
      rw [hd, hname] at h
      cases h
    | ok name =>
      rw [hd, hname] at h
      have hd' := decl?_of_decl hd
      have hfull : d.fullName = some name := by
        cases hfull : d.fullName with
        | none =>
          rw [fullName, hd] at hname
          simp only [Bind.bind, Except.bind, hfull] at hname
          cases hname
        | some name' =>
          rw [fullName_of_decl? hd' hfull] at hname
          rw [Except.ok.inj hname]
      exact ⟨d, name, hd', hfull, (Except.ok.inj h).symm⟩

theorem resolveDecl_relabelled {r r' : Resolution} {id : NodeId}
    (h : resolveDecl directory r id = .ok r') : Relabelled r.tree r'.tree := by
  obtain ⟨d, name, -, -, rfl⟩ := resolveDecl_eq_ok h
  exact recordEdges_relabelled directory id name _ r.tree

/-- A declaration with a full name can be resolved. -/
theorem resolveDecl_ok (directory : Directory) {r : Resolution} {id : NodeId} {d : Decl}
    (hd : r.tree.decl? id = some d)
    (hname : d.fullName.isSome) : ∃ r', resolveDecl directory r id = .ok r' := by
  obtain ⟨name, hname⟩ := Option.isSome_iff_exists.mp hname
  unfold resolveDecl
  rw [decl_of_decl? hd, fullName_of_decl? hd hname]
  exact ⟨_, rfl⟩

theorem resolve_relabelled {r : Resolution} (h : t.resolve directory = .ok r) :
    Relabelled t r.tree :=
  foldlM_keeps (P := fun r : Resolution => Relabelled t r.tree) (s := { tree := t })
    (fun _ _ _ hr hstep => hr.trans (resolveDecl_relabelled hstep)) (.refl t) h

/-- Resolution of a tree with bound names succeeds. -/
theorem resolve_ok (hwf : t.WellFormed) (hnamed : t.Named) (directory : Directory) :
    ∃ r, t.resolve directory = .ok r := by
  have hstep : ∀ (r : Resolution), ∀ id ∈ t.decls, Relabelled t r.tree →
      ∃ r', resolveDecl directory r id = .ok r' ∧ Relabelled t r'.tree := by
    intro r id hid hr
    obtain ⟨hreach, hsome⟩ := hwf.mem_decls.mp hid
    obtain ⟨d, hd⟩ := Option.isSome_iff_exists.mp hsome
    obtain ⟨name, hname⟩ := Option.isSome_iff_exists.mp (hnamed id d hreach hd)
    obtain ⟨d', hd', hlabels⟩ := hr.decl id hd
    obtain ⟨next, hnext⟩ := resolveDecl_ok directory hd'
      (Option.isSome_of_eq_some (hlabels.fullName name hname))
    exact ⟨next, hnext, hr.trans (resolveDecl_relabelled hnext)⟩
  obtain ⟨r, hr, -⟩ := foldlM_ok (P := fun r : Resolution => Relabelled t r.tree) hstep
    (s := { tree := t }) (.refl t)
  exact ⟨r, hr⟩

/-! ### What leads nowhere -/

/-- Every name that is not in the directory is found. -/
theorem mem_firstUndefined {edges : List Dependency} {edge : Dependency} (hedge : edge ∈ edges)
    (hnone : directory.get? edge.target = none) :
    ∃ first ∈ firstUndefined directory edges, first.target = edge.target := by
  let step (found : List Dependency) (edge : Dependency) : List Dependency :=
    if directory.contains edge.target || found.any (·.target = edge.target) then found
    else found ++ [edge]
  have hcontains : directory.contains edge.target = false := Table.contains_eq_false.mpr hnone
  -- What was found stays found, and a step finds what it looks at.
  have hkeep : ∀ (rest found : List Dependency), (∃ first ∈ found, first.target = edge.target) →
      ∃ first ∈ rest.foldl step found, first.target = edge.target := by
    intro rest
    induction rest with
    | nil => exact fun found h => h
    | cons other rest ih =>
      rintro found ⟨first, hfirst, htarget⟩
      refine ih _ ⟨first, ?_, htarget⟩
      simp only [step]
      split
      · exact hfirst
      · exact List.mem_append_left _ hfirst
  have hfind : ∀ found, ∃ first ∈ step found edge, first.target = edge.target := by
    intro found
    simp only [step, hcontains, Bool.false_or]
    split
    · next hany =>
      obtain ⟨first, hfirst, htarget⟩ := List.any_eq_true.mp hany
      exact ⟨first, hfirst, of_decide_eq_true htarget⟩
    · exact ⟨edge, List.mem_append_right _ (List.mem_singleton.mpr rfl), rfl⟩
  obtain ⟨before, rest, rfl⟩ := List.append_of_mem hedge
  show ∃ first ∈ (before ++ edge :: rest).foldl step [], _
  rw [List.foldl_append, List.foldl_cons]
  exact hkeep rest _ (hfind _)

/-- The name is reported as leading nowhere. -/
def ReportsUndefined (reports : List Diagnostic) (name : String) : Prop :=
  ∃ report ∈ reports, report.kind = .undefinedReference ∧
    report.message = DiagnosticKind.undefinedReference.detailed name

theorem reportsUndefined_of_mem (t : Tree) {edges : List Dependency} {edge : Dependency}
    (hedge : edge ∈ edges) (hnone : directory.get? edge.target = none) :
    ReportsUndefined (t.undefinedReports directory edges) edge.target := by
  obtain ⟨first, hfirst, htarget⟩ := mem_firstUndefined hedge hnone
  refine ⟨_, List.mem_map_of_mem hfirst, rfl, ?_⟩
  rw [htarget]
  rfl

theorem ReportsUndefined.mono {reports reports' : List Diagnostic} {name : String}
    (h : ReportsUndefined reports name) (hsubset : reports ⊆ reports') :
    ReportsUndefined reports' name := by
  obtain ⟨report, hreport, hkind, hmessage⟩ := h
  exact ⟨report, hsubset hreport, hkind, hmessage⟩

/-! ### The edges of every declaration -/

/-- The edges of the declaration `d` that lead to items of the directory. -/
def knownMentions (t : Tree) (directory : Directory) (x : NodeId) (d : Decl) : List Dependency :=
  (t.declMentions directory x d).filter fun edge => directory.contains edge.target

/-- The progress of resolution: the declarations in `done` have their edges, and what they mention
that leads nowhere is reported. -/
structure Resolves (t : Tree) (directory : Directory) (r : Resolution) (done : List NodeId) :
    Prop where
  relabelled : Relabelled t r.tree
  decl : ∀ x d, t.decl? x = some d → ∃ back, r.tree.decl? x =
    some (d.extend (if x ∈ done then t.knownMentions directory x d else []) back)
  reported : ∀ x d, x ∈ done → t.decl? x = some d → ∀ edge ∈ t.declMentions directory x d,
    directory.get? edge.target = none → ReportsUndefined r.diagnostics edge.target

/-- Recorded edges do not change what a declaration mentions. -/
theorem Resolves.declMentions_eq {r : Resolution} {done : List NodeId} {id : NodeId} {d d' : Decl}
    (h : Resolves t directory r done) (hd : t.decl? id = some d) (hd' : r.tree.decl? id = some d') :
    r.tree.declMentions directory id d' = t.declMentions directory id d := by
  obtain ⟨back, hback⟩ := h.decl id d hd
  refine h.relabelled.declMentions_eq directory id ?_
  rw [← Option.some.inj (hback.symm.trans hd'), Decl.kind_extend]

theorem Resolves.step {r r' : Resolution} {done : List NodeId} {id : NodeId}
    (h : Resolves t directory r done) (hnew : id ∉ done)
    (hstep : resolveDecl directory r id = .ok r') : Resolves t directory r' (done ++ [id]) := by
  obtain ⟨d', name, hd', -, rfl⟩ := resolveDecl_eq_ok hstep
  obtain ⟨d, hd, -⟩ := h.relabelled.old_decl id hd'
  rw [h.declMentions_eq hd hd']
  refine ⟨h.relabelled.trans (recordEdges_relabelled ..), fun x dx hdx => ?_,
    fun x dx hx hdx edge hedge hnone => ?_⟩
  · obtain ⟨back, hback⟩ := h.decl x dx hdx
    obtain ⟨more, hmore⟩ := decl?_recordEdges directory id name (t.declMentions directory id d)
      r.tree x
    refine ⟨back ++ more, ?_⟩
    rw [hmore, hback, Option.map_some, Decl.extend_extend]
    by_cases hx : x = id
    · subst hx
      obtain rfl := Option.some.inj (hd.symm.trans hdx)
      rw [if_pos rfl, if_neg hnew, if_pos (List.mem_append_right _ (List.mem_singleton.mpr rfl)),
        List.nil_append]
      rfl
    · rw [if_neg hx, List.append_nil]
      simp [hx]
  · rcases List.mem_append.mp hx with hx | hx
    · exact (h.reported x dx hx hdx edge hedge hnone).mono (List.subset_append_left _ _)
    · obtain rfl := List.mem_singleton.mp hx
      obtain rfl := Option.some.inj (hd.symm.trans hdx)
      exact (reportsUndefined_of_mem r.tree hedge hnone).mono (List.subset_append_right _ _)

theorem Resolves.start (t : Tree) (directory : Directory) :
    Resolves t directory { tree := t } [] where
  relabelled := .refl t
  decl x d hd := ⟨[], by simpa using hd⟩
  reported x d hx := absurd hx List.not_mem_nil

theorem resolve_resolves {r : Resolution} (hwf : t.WellFormed) (h : t.resolve directory = .ok r) :
    Resolves t directory r t.decls :=
  foldlM_done (P := Resolves t directory) (fun _ _ _ _ _ hdone hnew hstep => hdone.step hnew hstep)
    (.start t directory) hwf.nodup_decls h

/-- Resolution records the mentions of every declaration within reach, and nothing else. -/
theorem resolve_decl {r : Resolution} (hwf : t.WellFormed) (h : t.resolve directory = .ok r)
    {x : NodeId} {d : Decl} (hx : t.Reaches t.root x) (hd : t.decl? x = some d) :
    ∃ back, r.tree.decl? x = some (d.extend (t.knownMentions directory x d) back) := by
  obtain ⟨back, hback⟩ := (resolve_resolves hwf h).decl x d hd
  rw [if_pos (hwf.mem_decls.mpr ⟨hx, Option.isSome_of_eq_some hd⟩)] at hback
  exact ⟨back, hback⟩

/-- Whatever a declaration within reach mentions that leads nowhere is reported. -/
theorem resolve_reports {r : Resolution} (hwf : t.WellFormed) (h : t.resolve directory = .ok r)
    {x : NodeId} {d : Decl} (hx : t.Reaches t.root x) (hd : t.decl? x = some d) {edge : Dependency}
    (hedge : edge ∈ t.declMentions directory x d) (hnone : directory.get? edge.target = none) :
    ReportsUndefined r.diagnostics edge.target :=
  (resolve_resolves hwf h).reported x d (hwf.mem_decls.mpr ⟨hx, Option.isSome_of_eq_some hd⟩) hd
    edge hedge hnone

end Tree

end StackTemplate
