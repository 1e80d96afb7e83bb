import StackTemplate.Proofs.Check.Acyclic
import StackTemplate.Proofs.Resolution.Finalizing

/-!
# Handlers of valid modules

Two stages look at the handler of a macro or resource type. The last check reports handlers that are
not references and names of items that are not functions; a name without an item it leaves to
resolution, which reports it. But resolution passes over pseudo parameters, which have no item
either. So in a module without errors a handler refers to a function or to a pseudo parameter
(`compile_handlers`), and nothing is said about the latter (`regional_accepted`).
-/

namespace StackTemplate

open StackTemplate.Tree

namespace Check

variable {t : Tree} {directory : Directory} {handler : NodeId} {name : String}

/-- The handler is a reference to an item of that name, or to an attribute of it. -/
def RefersTo (t : Tree) (handler : NodeId) (name : String) : Prop :=
  t.expr? handler = some (.ref name) ∨ ∃ attributeName,
    t.expr? handler = some (.getAtt name attributeName)

/-- The directory has a function under the name. -/
def DenotesFunction (t : Tree) (directory : Directory) (name : String) : Prop :=
  ∃ y d f, directory.get? name = some y ∧ t.decl? y = some d ∧ d.kind = .function f

theorem RefersTo.namesBelow (h : RefersTo t handler name) : t.NamesBelow handler name := by
  refine ⟨handler, .refl, ?_⟩
  rcases h with he | ⟨attributeName, he⟩ <;> rw [named?_of_expr? he] <;> rfl

theorem RefersTo.congr {t' : Tree} (hkind : t'.kind? handler = t.kind? handler)
    (h : RefersTo t' handler name) : RefersTo t handler name := by
  rwa [RefersTo, expr?_congr hkind] at h

/-- The check accepts the names of functions, and names that nothing has. -/
theorem namedMismatch?_eq_none (hbound : Bound t directory) :
    namedMismatch? t directory name = none ↔
      DenotesFunction t directory name ∨ directory.get? name = none := by
  unfold namedMismatch? DenotesFunction
  cases hget : directory.get? name with
  | none => simp
  | some y =>
    obtain ⟨-, hdecl⟩ := hbound name y hget
    obtain ⟨d, hd⟩ := Option.isSome_iff_exists.mp hdecl
    simp only [Option.bind_some, Option.bind_eq_bind, hd, Option.some.injEq, reduceCtorEq, or_false,
      exists_and_left, exists_eq_left']
    cases d.kind <;> simp

/-- The check accepts references and attributes with such names, and nothing else. -/
theorem handlerMismatch?_eq_none (hbound : Bound t directory) :
    handlerMismatch? t directory handler = none ↔
      ∃ name, RefersTo t handler name ∧
        (DenotesFunction t directory name ∨ directory.get? name = none) := by
  unfold handlerMismatch? RefersTo
  cases he : t.expr? handler with
  | none => simp
  | some e =>
    cases e with
    | ref name | getAtt name attributeName => simp [namedMismatch?_eq_none hbound]
    | _ => simp

/-- If nothing is reported about the handlers, all of them are accepted. -/
theorem handlerMismatch?_of_handlers (hwf : t.WellFormed) (h : handlers t directory = [])
    {x : NodeId} {d : Decl} (hx : t.Reaches t.root x) (hd : t.decl? x = some d)
    (hhandler : handler? d = some handler) : handlerMismatch? t directory handler = none := by
  have hnone : handlerReport? t directory x = none :=
    List.filterMap_eq_nil_iff.mp h x (hwf.mem_decls.mpr ⟨hx, Option.isSome_of_eq_some hd⟩)
  refine Option.eq_none_iff_forall_ne_some.mpr fun found hfound => ?_
  simp [handlerReport?, hd, hhandler, hfound] at hnone

/-- The handler is the field of its declaration, which is no resource. -/
theorem mem_fields_of_handler? {d : Decl} (h : handler? d = some handler) :
    handler ∈ d.kind.fields ∧ ∀ resource, d.kind ≠ .resource resource := by
  unfold handler? at h
  split at h
  · next other hkind =>
    rw [hkind, Option.some.inj h]
    exact ⟨List.mem_singleton.mpr rfl, fun resource => by simp⟩
  · next other hkind =>
    rw [hkind, Option.some.inj h]
    exact ⟨List.mem_singleton.mpr rfl, fun resource => by simp⟩
  · cases h

end Check

variable {t : Tree} {sources : SourceMap} {config : Config} {m : ResolvedModule}

/-! ### Between the two stages -/

/-- Wiring the finalizer leaves handlers alone. -/
theorem Finalizer.Spares.handler {g g' : Tree} {finalizer x handler : NodeId} {d' : Decl}
    (h : Spares finalizer g g') (hne : x ≠ finalizer) (hx : g.Reaches g.root x)
    (hdecl : (g.decl? x).isSome) (hd' : g'.decl? x = some d')
    (hhandler : Check.handler? d' = some handler) :
    ∃ d, g.decl? x = some d ∧ d.kind = d'.kind ∧ g'.kind? handler = g.kind? handler := by
  obtain ⟨d, hd⟩ := Option.isSome_iff_exists.mp hdecl
  obtain ⟨back, hback⟩ := h.decl x d hx hd hne
  obtain rfl := Option.some.inj (hd'.symm.trans hback)
  refine ⟨d, hd, rfl, h.below x d handler handler hx hd hne ?_ .refl⟩
  exact mem_exprSlots_of_fields hd (Check.mem_fields_of_handler? hhandler).1

/-- The handler of the compiled module is that of the folded tree. -/
theorem StageResults.handler {b : Binding} {e : Fold.Evaluation} {r : Resolution}
    {found : Option FinalizerDependencies × Tree} {x handler : NodeId} {d : Decl}
    (h : StageResults b config e r found) (hb : Coherent b.directory b.tree)
    (hx : found.2.Reaches found.2.root x) (hd : found.2.decl? x = some d)
    (hhandler : Check.handler? d = some handler) :
    ∃ d₀, e.tree.Reaches e.tree.root x ∧ e.tree.decl? x = some d₀ ∧
      handler ∈ d₀.kind.fields ∧ found.2.kind? handler = e.tree.kind? handler := by
  have hfolded := (Visits.folded h.evaluate).coherent hb
  have hresolved := (Visits.resolved h.evaluate h.resolve).coherent hb
  have hfinal := (Visits.finalized h.evaluate h.resolve h.analyze).coherent hb
  obtain ⟨hfield, hresource⟩ := Check.mem_fields_of_handler? hhandler
  -- First back over the finalizer, then over the labels of resolution.
  have hback : ∃ d₁, r.tree.Reaches r.tree.root x ∧ r.tree.decl? x = some d₁ ∧
      d₁.kind = d.kind ∧ found.2.kind? handler = r.tree.kind? handler := by
    rcases Finalizer.analyze_wires hresolved.wellFormed hresolved.indexed.bound h.analyze with
      ⟨heq, -⟩ | ⟨finalizer, hget, hwires⟩
    · rw [heq] at hx hd ⊢
      exact ⟨d, hx, hd, rfl, rfl⟩
    · obtain ⟨found', hfound', -, hkeeps⟩ := Finalizer.analyze_spec config.finalizer
        hresolved.wellFormed hresolved.indexed.bound
      obtain rfl := Except.ok.inj (hfound'.symm.trans h.analyze)
      obtain ⟨hx₁, hdecl⟩ := hkeeps.old_decl hresolved.wellFormed hfinal.wellFormed hx hd
      have hne : x ≠ finalizer := by
        rintro rfl
        obtain ⟨d', resource, hd', hkind⟩ := hwires.resource
        obtain rfl := Option.some.inj (hd.symm.trans hd')
        exact hresource resource hkind
      obtain ⟨d₁, hd₁, hkind, hsame⟩ := hwires.spares.handler hne hx₁ hdecl hd hhandler
      exact ⟨d₁, hx₁, hd₁, hkind, hsame⟩
  obtain ⟨d₁, hx₁, hd₁, hkind, hsame⟩ := hback
  have hlabels := resolve_relabelled h.resolve
  obtain ⟨d₀, hd₀, hrelabels⟩ := hlabels.old_decl x hd₁
  rw [hlabels.root_eq, hlabels.reaches] at hx₁
  have hfield₀ : handler ∈ d₀.kind.fields := by
    rwa [← hrelabels.fields_eq, hkind]
  refine ⟨d₀, hx₁, hd₀, hfield₀, hsame.trans (Finalizer.expr_of_relabelled hlabels ?_)⟩
  exact (Finalizer.BelowField.expr ⟨handler, hfield₀, .refl⟩ hfolded.wellFormed hx₁ hd₀).2

/-! ### Valid modules -/

/-- Nothing of an error's kind comes from a stage of a valid module. -/
theorem ResolvedModule.not_error {b : Binding} {e : Fold.Evaluation} {stats : Fold.Stats}
    {r : Resolution} {found : Option FinalizerDependencies × Tree} {d : Diagnostic}
    (hvalid : (ofStages sources config b e stats r found).isValid = true)
    (hd : d ∈ r.diagnostics ++ Check.handlers found.2 b.directory) :
    d.kind = .constantCondition := by
  refine kind_of_isValid hvalid ?_
  show d ∈ _ ++ _ ++ _ ++ r.diagnostics ++ (Check.handlers found.2 b.directory ++ _ ++ _)
  simp only [List.mem_append] at hd ⊢
  tauto

/-- In a module without errors the handler of every macro and resource type is a reference or an
attribute, of a function or of a pseudo parameter that is not declared. -/
theorem compile_handlers (hwf : t.WellFormed) (hm : compile t sources config = .ok m)
    (hvalid : m.isValid = true) {x : NodeId} {d : Decl} {handler : NodeId}
    (hx : m.tree.Reaches m.tree.root x) (hd : m.tree.decl? x = some d)
    (hhandler : Check.handler? d = some handler) :
    ∃ name, Check.RefersTo m.tree handler name ∧
      (Check.DenotesFunction m.tree m.directory name ∨
        m.directory.get? name = none ∧ isPseudoParameter name = true) := by
  obtain ⟨b, e, stats, r, found, hb, h, rfl⟩ := exists_ofStages hwf hm
  have hbound := coherent_of_bind hwf hb
  have hfolded := (Visits.folded h.evaluate).coherent hbound
  have hfinal := (Visits.finalized h.evaluate h.resolve h.analyze).coherent hbound
  have hnone : Check.handlers found.2 b.directory = [] := by
    refine List.eq_nil_iff_forall_not_mem.mpr fun report hreport => ?_
    have hkind := ResolvedModule.not_error hvalid (List.mem_append_right _ hreport)
    rw [List.mem_singleton.mp (Check.handlers_ofKinds found.2 b.directory report hreport)] at hkind
    cases hkind
  obtain ⟨name, hrefers, hfunction | hmissing⟩ :=
    (Check.handlerMismatch?_eq_none hfinal.indexed.bound).mp
      (Check.handlerMismatch?_of_handlers hfinal.wellFormed hnone hx hd hhandler)
  · exact ⟨name, hrefers, .inl hfunction⟩
  · refine ⟨name, hrefers, .inr ⟨hmissing, ?_⟩⟩
    -- Any other name that leads nowhere would have been reported.
    by_contra hpseudo
    obtain ⟨d₀, hx₀, hd₀, hfield, hsame⟩ := h.handler hbound hx hd hhandler
    obtain ⟨edge, hedge, rfl⟩ := exists_declMention b.directory hfolded.wellFormed hx₀
      hd₀ hfield (hrefers.congr hsame).namesBelow (Bool.not_eq_true _ ▸ hpseudo)
    obtain ⟨report, hreport, hkind, -⟩ :=
      resolve_reports hfolded.wellFormed h.resolve hx₀ hd₀ hedge hmissing
    have hkind' := ResolvedModule.not_error hvalid (List.mem_append_left _ hreport)
    rw [hkind] at hkind'
    cases hkind'

/-- A macro with a function as its handler, and a resource to be created last. -/
def shouting : Tree where
  nodes := #[
    { kind := .decl { localName := "Shout", kind := .function {} }, span := default,
      parent := some 4 },
    { kind := .expr (.getAtt "Shout" "Arn"), span := default, parent := some 2 },
    { kind := .decl { localName := "Upper", kind := .macroItem 1 }, span := default,
      parent := some 4 },
    { kind := .decl { localName := "Last", kind := .resource { resourceType := some "Marker" } },
      span := default, parent := some 4 },
    { kind := .module { name := "shouting", items := [0, 2, 3] }, span := default }]
  root := 4

theorem shouting_handlers :
    ∃ m, compile shouting default { finalizer := "Last" } = .ok m ∧ m.isValid = true ∧
      m.tree.expr? 1 = some (.getAtt "Shout" "Arn") ∧
      Check.DenotesFunction m.tree m.directory "Shout" := by
  have hwf : shouting.WellFormed := by
    refine .ofAll (m := { name := "shouting", items := [0, 2, 3] }) rfl rfl ?_
    decide +kernel
  have hflag : ((compile shouting default { finalizer := "Last" }).map fun m =>
      decide (m.isValid = true ∧ m.tree.root = 4 ∧ 2 ∈ m.tree.children 4 ∧
        (m.tree.decl? 2).bind Check.handler? = some 1 ∧
        m.tree.expr? 1 = some (.getAtt "Shout" "Arn"))).toOption = some true := by
    decide +kernel
  obtain ⟨m, hm, hall⟩ := exists_of_toOption_map hflag
  obtain ⟨hvalid, hroot, hchild, hhandler, hexpr⟩ := of_decide_eq_true hall
  obtain ⟨d, hd, hhandler⟩ := Option.bind_eq_some_iff.mp hhandler
  have hx : m.tree.Reaches m.tree.root 2 := Reaches.refl.tail (hroot ▸ hchild)
  obtain ⟨name, hrefers, hfunction⟩ := compile_handlers hwf hm hvalid hx hd hhandler
  obtain rfl : name = "Shout" := by
    rcases hrefers with he | ⟨attributeName, he⟩
    · rw [hexpr] at he
      cases he
    · exact (Expr.getAtt.inj (Option.some.inj (hexpr.symm.trans he))).1.symm
  refine ⟨m, hm, hvalid, hexpr, hfunction.resolve_right fun hpseudo => ?_⟩
  exact absurd hpseudo.2 (by decide)

/-- A macro with a pseudo parameter as its handler. -/
def regional : Tree where
  nodes := #[
    { kind := .expr (.ref "AWS::Region"), span := default, parent := some 1 },
    { kind := .decl { localName := "Upper", kind := .macroItem 0 }, span := default,
      parent := some 2 },
    { kind := .module { name := "regional", items := [1] }, span := default }]
  root := 2

/-- A handler that is no function goes unnoticed: the module is valid. -/
theorem regional_accepted :
    regional.WellFormed ∧ ∃ m d, compile regional default {} = .ok m ∧ m.isValid = true ∧
      m.tree.Reaches m.tree.root 1 ∧ m.tree.decl? 1 = some d ∧ Check.handler? d = some 0 ∧
      ¬ ∃ name, Check.RefersTo m.tree 0 name ∧
        Check.DenotesFunction m.tree m.directory name := by
  have hwf : regional.WellFormed := by
    refine .ofAll (m := { name := "regional", items := [1] }) rfl rfl ?_
    decide +kernel
  have hflag : ((compile regional default {}).map fun m =>
      decide (m.isValid = true ∧ m.tree.root = 2 ∧ 1 ∈ m.tree.children 2 ∧
        (m.tree.decl? 1).bind Check.handler? = some 0 ∧
        m.tree.expr? 0 = some (.ref "AWS::Region") ∧
        m.directory.get? "AWS::Region" = none)).toOption = some true := by
    decide +kernel
  obtain ⟨m, hm, hall⟩ := exists_of_toOption_map hflag
  obtain ⟨hvalid, hroot, hchild, hhandler, hexpr, hget⟩ := of_decide_eq_true hall
  obtain ⟨d, hd, hhandler⟩ := Option.bind_eq_some_iff.mp hhandler
  refine ⟨hwf, m, d, hm, hvalid, Reaches.refl.tail (hroot ▸ hchild), hd, hhandler, ?_⟩
  rintro ⟨name, hrefers, y, d', f, hget', -⟩
  obtain rfl : name = "AWS::Region" := by
    rcases hrefers with he | ⟨attributeName, he⟩
    · exact (Expr.ref.inj (Option.some.inj (hexpr.symm.trans he))).symm
    · rw [hexpr] at he
      cases he
  rw [hget] at hget'
  cases hget'

end StackTemplate
