import StackTemplate.Proofs.Check.Acyclic
import StackTemplate.Proofs.Resolution.Finalizing

/-!
# Edges and the names in expressions

Resolution records an edge for every item that a field of a declaration names (`resolve_covers`).
Then the finalizer gets new expressions: for each resource with a condition, a copy of the condition
and of what the resource is referenced by. The edge to the resource is recorded with them, but no
edges to the other items that the copies name. So the edges of a compiled module cover its
expressions except at the finalizer, and there exactly if it happens to have edges to all that is
copied (`compile_covers_iff`, `deployment_uncovered`).
-/

namespace StackTemplate

open StackTemplate.Tree Finalizer

variable {t g : Tree} {directory : Directory} {sources : SourceMap} {config : Config}
  {m : ResolvedModule}

/-- The name of an item that is counted as a dependency. -/
def Directory.counts (directory : Directory) (name : String) : Prop :=
  (directory.get? name).isSome ∧ isPseudoParameter name = false

/-- The declaration has an edge to an item. -/
def Decl.HasEdgeTo (d : Decl) (name : String) : Prop := ∃ edge ∈ d.dependencies, edge.target = name

/-- The declaration has an edge to every item that its fields name, at any depth. -/
def Tree.Covers (t : Tree) (directory : Directory) (d : Decl) : Prop :=
  ∀ p ∈ d.kind.fields, ∀ z, t.Reaches p z → ∀ name, t.named? z = some name →
    directory.counts name → d.HasEdgeTo name

theorem Tree.covers_iff {x : NodeId} {d : Decl} (hd : t.decl? x = some d) :
    t.Covers directory d ↔
      ∀ name, FieldsName t x name → directory.counts name → d.HasEdgeTo name := by
  constructor
  · intro h name hname
    obtain ⟨p, hp, z, hz, hname⟩ := (fieldsName_iff hd).mp hname
    exact h p hp z hz name hname
  · intro h p hp z hz name hname
    exact h name ((fieldsName_iff hd).mpr ⟨p, hp, z, hz, hname⟩)

/-! ### Resolution -/

/-- Labels do not change what the fields of a declaration name. -/
theorem Tree.Relabelled.fieldsName {x : NodeId} {name : String} (h : Relabelled t g)
    (hwf : t.WellFormed) (hx : t.Reaches t.root x) (hname : FieldsName g x name) :
    FieldsName t x name := by
  obtain ⟨d', hd', p, hp, hname⟩ := hname
  obtain ⟨d, hd, hlabels⟩ := h.old_decl x hd'
  rw [hlabels.fields_eq] at hp
  refine ⟨d, hd, p, hp, (namesBelow_congr fun z hz => expr_of_relabelled h ?_).mp hname⟩
  exact (BelowField.expr ⟨p, hp, hz⟩ hwf hx hd).2

/-- Resolution gives every declaration within reach an edge to each item that its fields name. -/
theorem resolve_covers {r : Resolution} {x : NodeId} {d : Decl} (hwf : t.WellFormed)
    (hr : t.resolve directory = .ok r) (hx : r.tree.Reaches r.tree.root x)
    (hd : r.tree.decl? x = some d) : r.tree.Covers directory d := by
  have hlabels := resolve_relabelled hr
  rw [hlabels.root_eq, hlabels.reaches] at hx
  refine (covers_iff hd).mpr fun name hname hcounts => ?_
  obtain ⟨d₀, hd₀, p, hp, hname⟩ := hlabels.fieldsName hwf hx hname
  obtain ⟨edge, hedge, htarget⟩ :=
    exists_declMention directory hwf hx hd₀ hp hname hcounts.2
  obtain ⟨back, hback⟩ := resolve_decl hwf hr hx hd₀
  obtain rfl := Option.some.inj (hd.symm.trans hback)
  refine ⟨edge, List.mem_append_right _ (List.mem_filter.mpr ⟨hedge, ?_⟩), htarget⟩
  rw [htarget]
  exact (Table.contains_eq_isSome ..).trans hcounts.1

/-! ### The finalizer -/

namespace Finalizer

variable {finalizer : NodeId} {r : ConditionalResource} {name : String}

/-- The expressions below other declarations name what they named. -/
theorem Spares.namesBelow {x p : NodeId} {d : Decl} (h : Spares finalizer t g)
    (hx : t.Reaches t.root x) (hd : t.decl? x = some d) (hne : x ≠ finalizer)
    (hp : p ∈ t.exprSlots x) : g.NamesBelow p name ↔ t.NamesBelow p name :=
  namesBelow_congr fun z hz => h.below x d p z hx hd hne hp hz

theorem mem_exprSlots_of_reference {x e : NodeId} {d : Decl} (hd : t.decl? x = some d)
    (he : d.reference = some e) : e ∈ t.exprSlots x := by
  rw [exprSlots, decl?_eq_some.mp hd]
  exact List.mem_append_right _ (Option.mem_toList.mpr he)

/-- Wiring leaves the resources with conditions. -/
theorem Spares.mem_conditionals (h : Spares finalizer t g) (hindexed : t.Indexed directory) :
    r ∈ conditionals g directory finalizer ↔ r ∈ conditionals t directory finalizer := by
  rw [conditionals, conditionals, mem_conditionalResources, mem_conditionalResources]
  refine and_congr_right fun hget => and_congr_right fun hne => ?_
  obtain ⟨hx, d, hd, -⟩ := hindexed r.name r.id hget
  obtain ⟨back, hback⟩ := h.decl r.id d hx hd hne
  have hbool : d.ifCondition? = some r.condition → g.bool? r.condition = t.bool? r.condition := by
    intro hcondition
    have hslot := mem_exprSlots_of_fields hd (Decl.mem_fields_of_ifCondition? hcondition)
    have hkind := h.below r.id d r.condition r.condition hx hd hne hslot .refl
    rw [bool?, bool?, literal?, literal?, expr?_congr hkind]
  simp only [hd, hback, Option.some.injEq, exists_eq_left']
  refine and_congr_right fun _ => and_congr_right fun hcondition => ?_
  rw [hbool hcondition]

/-- Wiring leaves the names in what it copies. -/
theorem Spares.copies (h : Spares finalizer t g) (hindexed : t.Indexed directory)
    (hr : r ∈ conditionals t directory finalizer) : Copies g r name ↔ Copies t r name := by
  obtain ⟨hget, hne, d, hd, -, hcondition, -⟩ := mem_conditionalResources.mp hr
  obtain ⟨hx, -⟩ := hindexed r.name r.id hget
  obtain ⟨back, hback⟩ := h.decl r.id d hx hd hne
  have hslot := mem_exprSlots_of_fields hd (Decl.mem_fields_of_ifCondition? hcondition)
  rw [Copies, Copies, h.namesBelow hx hd hne hslot, hd, hback]
  refine or_congr_right (exists_congr fun e => and_congr_right fun he => ?_)
  exact h.namesBelow hx hd hne (mem_exprSlots_of_reference hd he)

/-- The finalizer has edges to all items that are named in what is copied to it. -/
def CoversCopies (t : Tree) (directory : Directory) (finalizer : NodeId) (d : Decl) : Prop :=
  ∀ r ∈ conditionals t directory finalizer, ∀ name, Copies t r name → directory.counts name →
    d.HasEdgeTo name

/-- If the edges covered the expressions before, then afterwards they do exactly if they cover what
was copied. -/
theorem Wires.covers_iff {d d' : Decl} (h : Wires directory finalizer t g)
    (hindexed : t.Indexed directory) (hd : t.decl? finalizer = some d)
    (hd' : g.decl? finalizer = some d') (hcovers : t.Covers directory d) :
    g.Covers directory d' ↔ CoversCopies g directory finalizer d' := by
  obtain ⟨hsubset, hedges⟩ := h.edges d d' hd hd'
  rw [Tree.covers_iff hd] at hcovers
  rw [Tree.covers_iff hd']
  constructor
  · intro hall r hr name hcopies hcounts
    rw [h.spares.mem_conditionals hindexed] at hr
    rw [h.spares.copies hindexed hr] at hcopies
    exact hall name (h.new_names name ⟨r, hr, .inl hcopies⟩) hcounts
  · intro hall name hname hcounts
    rcases h.names name hname with hname | ⟨r, hr, hcopies | ⟨-, rfl⟩ | rfl⟩
    · obtain ⟨edge, hedge, htarget⟩ := hcovers name hname hcounts
      exact ⟨edge, hsubset hedge, htarget⟩
    · rw [← h.spares.copies hindexed hr] at hcopies
      exact hall r ((h.spares.mem_conditionals hindexed).mpr hr) name hcopies hcounts
    · exact hedges r hr
    · exact absurd hcounts.2 (by decide)

/-- Edges that covered the expressions of another declaration still do. -/
theorem Spares.covers {x : NodeId} {d d' : Decl} (h : Spares finalizer t g)
    (hx : t.Reaches t.root x) (hd : t.decl? x = some d) (hd' : g.decl? x = some d')
    (hne : x ≠ finalizer) (hcovers : t.Covers directory d) : g.Covers directory d' := by
  obtain ⟨back, hback⟩ := h.decl x d hx hd hne
  obtain rfl := Option.some.inj (hd'.symm.trans hback)
  rw [Tree.covers_iff hd] at hcovers
  refine (Tree.covers_iff hd').mpr fun name hname hcounts => ?_
  obtain ⟨p, hp, hname⟩ := (fieldsName_iff hd').mp hname
  rw [h.namesBelow hx hd hne (mem_exprSlots_of_fields hd hp)] at hname
  obtain ⟨edge, hedge, htarget⟩ := hcovers name ⟨d, hd, p, hp, hname⟩ hcounts
  exact ⟨edge, List.mem_append_left _ hedge, htarget⟩

end Finalizer

/-! ### Compiled modules -/

/-- In a compiled module every declaration of the directory other than the finalizer has an edge to
each item that its fields name. The finalizer does exactly if, in case it is a resource, it has an
edge to each item that is named in the undecided condition or in the reference expression of another
resource. -/
theorem compile_covers_iff (hwf : t.WellFormed) (hm : compile t sources config = .ok m)
    {item : String} {x : NodeId} {d : Decl} (hget : m.directory.get? item = some x)
    (hd : m.tree.decl? x = some d) :
    (item ≠ config.finalizer → m.tree.Covers m.directory d) ∧
      (item = config.finalizer → (m.tree.Covers m.directory d ↔
        ∀ resource, d.kind = .resource resource →
          CoversCopies m.tree m.directory x d)) := by
  obtain ⟨b, e, stats, r, found, hb, h, rfl⟩ := exists_ofStages hwf hm
  have hbound := coherent_of_bind hwf hb
  have hfolded := (Visits.folded h.evaluate).coherent hbound
  have hresolved := (Visits.resolved h.evaluate h.resolve).coherent hbound
  obtain ⟨hx, d₁, hd₁, hname⟩ := hresolved.indexed item x hget
  have hcovers := resolve_covers hfolded.wellFormed h.resolve hx hd₁
  replace hd : found.2.decl? x = some d := hd
  show (_ → found.2.Covers b.directory d) ∧ (_ → (found.2.Covers b.directory d ↔ _))
  rcases analyze_wires hresolved.wellFormed hresolved.indexed.bound h.analyze with
    ⟨heq, hother⟩ | ⟨finalizer, hfinalizer, hwires⟩
  · -- Nothing was wired.
    rw [heq] at hd ⊢
    obtain rfl := Option.some.inj (hd.symm.trans hd₁)
    refine ⟨fun _ => hcovers, ?_⟩
    rintro rfl
    exact iff_of_true hcovers fun resource hkind => absurd hkind (hother x d resource hget hd)
  · constructor
    · intro hne
      refine hwires.spares.covers hx hd₁ hd ?_ hcovers
      -- A declaration has one name only.
      rintro rfl
      obtain ⟨-, d₂, hd₂, hname₂⟩ := hresolved.indexed config.finalizer x hfinalizer
      obtain rfl := Option.some.inj (hd₁.symm.trans hd₂)
      exact hne (Option.some.inj (hname.symm.trans hname₂))
    · rintro rfl
      obtain rfl := Option.some.inj (hget.symm.trans hfinalizer)
      rw [hwires.covers_iff hresolved.indexed hd₁ hd hcovers]
      obtain ⟨d₂, resource, hd₂, hkind⟩ := hwires.resource
      obtain rfl := Option.some.inj (hd.symm.trans hd₂)
      exact ⟨fun hall _ _ => hall, fun hall => hall resource hkind⟩

theorem deployment_covers :
    ∃ m d, compile Pass.deployment default { finalizer := "Last" } = .ok m ∧
      m.directory.get? "Queue" = some 7 ∧ m.tree.decl? 7 = some d ∧
      m.tree.expr? 5 = some (.conditionRef "IsProd") ∧ d.HasEdgeTo "IsProd" := by
  have hwf : Pass.deployment.WellFormed := by
    refine .ofAll (m := { name := "deployment", items := [0, 4, 7, 8] }) rfl rfl ?_
    decide +kernel
  have hflag : ((compile Pass.deployment default { finalizer := "Last" }).map fun m =>
      decide (m.directory.get? "Queue" = some 7 ∧ (m.directory.get? "IsProd").isSome ∧
        (m.tree.decl? 7).any (fun d => decide (5 ∈ d.kind.fields)) ∧
        m.tree.expr? 5 = some (.conditionRef "IsProd"))).toOption = some true := by
    decide +kernel
  obtain ⟨m, hm, hall⟩ := exists_of_toOption_map hflag
  obtain ⟨hget, hcounts, hfield, hexpr⟩ := of_decide_eq_true hall
  obtain ⟨d, hd, hfield⟩ := (Option.any_eq_true ..).mp hfield
  have hcovers := (compile_covers_iff hwf hm hget hd).1 (by decide)
  refine ⟨m, d, hm, hget, hd, hexpr, ?_⟩
  exact hcovers 5 (of_decide_eq_true hfield) 5 .refl "IsProd" (named?_of_expr? hexpr)
    ⟨hcounts, by decide⟩

/-- The condition of the queue is copied to the last resource, which gets an edge to the queue
only. -/
theorem deployment_uncovered :
    Pass.deployment.WellFormed ∧ ∃ m d,
      compile Pass.deployment default { finalizer := "Last" } = .ok m ∧
      m.directory.get? "Last" = some 8 ∧ m.tree.decl? 8 = some d ∧
      ¬ m.tree.Covers m.directory d := by
  have hwf : Pass.deployment.WellFormed := by
    refine .ofAll (m := { name := "deployment", items := [0, 4, 7, 8] }) rfl rfl ?_
    decide +kernel
  have hflag : ((compile Pass.deployment default { finalizer := "Last" }).map fun m =>
      decide (m.directory.get? "Last" = some 8 ∧ (m.directory.get? "IsProd").isSome ∧
        (m.tree.decl? 8).any (fun d => decide
          (17 ∈ d.kind.fields ∧ d.dependencies.map Dependency.target = ["Queue"])) ∧
        18 ∈ m.tree.children 17 ∧ 16 ∈ m.tree.children 18 ∧ 13 ∈ m.tree.children 16 ∧
        m.tree.named? 13 = some "IsProd")).toOption = some true := by
    decide +kernel
  obtain ⟨m, hm, hall⟩ := exists_of_toOption_map hflag
  obtain ⟨hget, hcounts, hdecl, h₁, h₂, h₃, hname⟩ := of_decide_eq_true hall
  obtain ⟨d, hd, hdecl⟩ := (Option.any_eq_true ..).mp hdecl
  obtain ⟨hfield, htargets⟩ := of_decide_eq_true hdecl
  refine ⟨hwf, m, d, hm, hget, hd, fun hcovers => ?_⟩
  obtain ⟨edge, hedge, htarget⟩ := hcovers 17 hfield 13 (.head h₁ (.head h₂ (.head h₃ .refl)))
    "IsProd" hname ⟨hcounts, by decide⟩
  have hmem := List.mem_map_of_mem (f := Dependency.target) hedge
  rw [htarget, htargets] at hmem
  exact absurd hmem (by decide)

end StackTemplate
