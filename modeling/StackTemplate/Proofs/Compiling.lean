import StackTemplate.Compile
import StackTemplate.Proofs.Check.Cycles
import StackTemplate.Proofs.Format.Reading
import StackTemplate.Proofs.Graph.Finder
import StackTemplate.Proofs.Passes
import StackTemplate.Proofs.Tree.Checking

/-!
# Compiling never meets a fault

All trees that a compilation goes through are `Coherent`: well formed, with a name on every
declaration and a directory that leads to declarations within reach. Of a coherent tree nothing can
be asked that it has no answer to, and every batch of replacements that a stage makes in it can be
applied (`Coherent.safe`). So a compilation of a tree without names ends with a module, or because
the fuel runs out, and the only fault that a compilation meets is a name that is set again
(`compile_faultless`).
-/

namespace StackTemplate

open StackTemplate.Tree

variable {t t' : Tree} {directory : Directory} {b : Binding} {config : Config}

/-! ### Graphs -/

/-- What is asked of the vertices on cycles has an answer. -/
structure NameGraph.Resolves (g : NameGraph) : Prop where
  /-- Every number and every low link that the search for components looks up is there. -/
  searched : ∃ s, g.fullDescentChecked = .ok s ∧ s.toDescent = g.fullDescent
  component : ∀ members ∈ g.components, members ≠ []
  cycle : ∀ members ∈ g.cycles, ∀ v ∈ members, ∃ name, g.names.resolve v = .ok name
  path : ∀ members ∈ g.cycles,
    g.cyclePath members ≠ [] ∧ ∀ v ∈ g.cyclePath members, ∃ name, g.names.resolve v = .ok name

theorem NameGraph.Proper.resolves {g : NameGraph} (hg : g.Proper) (hedges : g.edges.Nodup) :
    g.Resolves := by
  have hresolve : ∀ v ∈ g.vertices, ∃ name, g.names.resolve v = .ok name := by
    intro v hv
    exact ⟨g.nameOf v, by rw [Interner.resolve, name?_eq_some hv]⟩
  have hcycle : ∀ members ∈ g.cycles, ∀ v ∈ members, ∃ name, g.names.resolve v = .ok name :=
    fun members hmembers v hv => hresolve v ((cycle_spec hg hmembers).2 v hv).1
  refine ⟨fullDescent_checked hg, (components_condensed hg).nonempty, hcycle,
    fun members hmembers => ?_⟩
  have hpath := cyclePath_closed hg hedges hmembers
  refine ⟨List.ne_nil_of_length_pos (Nat.lt_of_lt_of_le Nat.two_pos hpath.two_le_length), ?_⟩
  exact fun v hv => hcycle members hmembers v (hpath.inside v hv)

/-! ### Coherent trees -/

/-- What holds of every tree on the way, with the directory of its items. -/
structure Coherent (directory : Directory) (t : Tree) : Prop where
  wellFormed : t.WellFormed
  named : t.Named
  indexed : t.Indexed directory

theorem Coherent.keep (h : Coherent directory t) (hwf : t'.WellFormed) (hkeeps : KeepsItems t t') :
    Coherent directory t' where
  wellFormed := hwf
  named := hkeeps.named h.wellFormed hwf h.named
  indexed := hkeeps.indexed h.indexed

theorem Coherent.relabel (h : Coherent directory t) (hlabels : Relabelled t t') :
    Coherent directory t' :=
  h.keep (hlabels.wellFormed h.wellFormed) (hlabels.keepsItems h.wellFormed)

theorem coherent_of_bind (hwf : t.WellFormed) (hb : t.bind = .ok b) :
    Coherent b.directory b.tree := by
  obtain ⟨hlabels, hnamed, -⟩ := bind_spec hwf hb
  exact ⟨hlabels.wellFormed hwf, hnamed, bind_indexed hwf hb⟩

/-- Whatever a stage asks of the tree has an answer, and whatever replacements it makes can be
applied. -/
structure Safe (directory : Directory) (t : Tree) : Prop where
  root : ∃ m, t.kind? t.root = some (.module m)
  node : ∀ x, t.Reaches t.root x → ∃ n, t.node x = .ok n
  expr : ∀ x, t.Reaches t.root x → ∀ c ∈ t.exprSlots x, ∃ e, t.expr c = .ok e
  decl : ∀ x, t.Reaches t.root x → ∀ c ∈ t.itemSlots x, ∃ d, t.decl c = .ok d
  fullName : ∀ x d, t.Reaches t.root x → t.decl x = .ok d → ∃ name, t.fullName x = .ok name
  item : ∀ entry ∈ directory.entries, t.Reaches t.root entry.2 ∧
    (∃ d, t.decl entry.2 = .ok d) ∧ t.fullName entry.2 = .ok entry.1
  /-- The name of a placeholder is cut out of it between two characters and one. -/
  placeholder : ∀ x format parameters segments, t.expr? x = some (.sub format parameters) →
    Format.segments format = .ok segments →
      ∀ s ∈ segments, ∀ name ∈ s.placeholder?, s.raw = Format.placeholderText name
  /-- Constants that are merged start with one whose place is taken over. -/
  merging : ∀ x delimiter values, t.expr? x = some (.join delimiter values) →
    ∀ run ∈ Fold.literalRuns t values, run ≠ []
  /-- The replacements of strings by normalized ones. -/
  extracting : Applicable t (Format.extractions t directory).tree
    (Format.extractions t directory).staged
  /-- The replacements of a folding pass. -/
  folding : ∀ cyclic, Applicable t (Fold.stageAll t directory cyclic).2
    (Fold.stageAll t directory cyclic).1
  /-- The replacements that turn parameters back into placeholders. -/
  reinlining : ∃ batch, t.exprs.foldlM Fold.stageReinline ([], t) = .ok batch ∧
    Applicable t batch.2 batch.1
  resolving : ∃ r, t.resolve directory = .ok r
  finalizing : ∀ name, ∃ found, Finalizer.analyze t directory name = .ok found
  aliases : (Fold.aliasGraph t directory).Resolves
  dependencies : (Check.dependencyGraph t directory).Resolves

theorem Coherent.safe (h : Coherent directory t) : Safe directory t where
  root := h.wellFormed.root_module
  node x hx := node_of_lt (h.wellFormed.lt_size hx)
  expr x hx c hc := by
    obtain ⟨e, he⟩ := Option.isSome_iff_exists.mp (h.wellFormed.expr_slot x c hx hc)
    exact ⟨e, expr_of_expr? he⟩
  decl x hx c hc := by
    obtain ⟨d, hd⟩ := Option.isSome_iff_exists.mp (h.wellFormed.item_slot x c hx hc)
    exact ⟨d, decl_of_decl? hd⟩
  fullName x d hx hd := by
    have hd' := decl?_of_decl hd
    obtain ⟨name, hname⟩ := Option.isSome_iff_exists.mp (h.named x d hx hd')
    exact ⟨name, fullName_of_decl? hd' hname⟩
  item := by
    rintro ⟨name, id⟩ hentry
    obtain ⟨hreach, d, hd, hname⟩ := h.indexed name id (Table.get?_eq_some.mpr hentry)
    exact ⟨hreach, ⟨d, decl_of_decl? hd⟩, fullName_of_decl? hd hname⟩
  placeholder x format parameters segments _ hcut s hs name hname := by
    cases (Format.segmentsFrom_written hcut).1 s hs with
    | placeholder offset other =>
      obtain rfl : other = name := Option.some.inj hname
      rfl
    | dollar | plain | escaped => cases hname
  merging x delimiter values _ run hrun := by
    rw [Fold.literalRuns_eq] at hrun
    exact (Fold.mem_runs hrun).1
  -- Each pass that stages replacements stages them for expressions within reach, once each.
  extracting := by
    obtain ⟨owner, hs, -⟩ := Format.extractions_staged h.wellFormed directory
    exact hs.applicable h.wellFormed
  folding cyclic := by
    obtain ⟨owner, hs, -⟩ := Fold.stageAll_spec h.wellFormed h.indexed.bound cyclic
    exact hs.applicable h.wellFormed
  reinlining := by
    obtain ⟨batch, owner, hrun, hs, -⟩ := Fold.stageReinline_staged h.wellFormed
    exact ⟨batch, hrun, hs.applicable h.wellFormed⟩
  resolving := resolve_ok h.wellFormed h.named directory
  finalizing name := by
    obtain ⟨found, hfound, -⟩ := Finalizer.analyze_spec name h.wellFormed h.indexed.bound
    exact ⟨found, hfound⟩
  aliases := by
    rw [Fold.aliasGraph_eq]
    exact (NameGraph.proper_ofCalls _).resolves (NameGraph.nodup_edges_ofCalls _)
  dependencies := (Check.proper_dependencyGraph t directory).resolves
    (Check.nodup_edges_dependencyGraph t directory)

/-! ### The way of a compilation -/

/-- The trees that the compilation of a bound module goes through. -/
inductive Visits (b : Binding) (config : Config) : Tree → Prop where
  | bound : Visits b config b.tree
  /-- After some folding passes over the normalized tree. -/
  | folding (n : Nat) : Visits b config
      (Fold.Folding.after b.directory n { tree := (Format.normalize b.tree b.directory).tree }).tree
  | folded {e : Fold.Evaluation}
      (he : Fold.evaluate (Format.normalize b.tree b.directory).tree b.directory config.fuel =
        .ok e) : Visits b config e.tree
  | resolved {e : Fold.Evaluation} {r : Resolution}
      (he : Fold.evaluate (Format.normalize b.tree b.directory).tree b.directory config.fuel =
        .ok e)
      (hr : e.tree.resolve b.directory = .ok r) : Visits b config r.tree
  | finalized {e : Fold.Evaluation} {r : Resolution} {found : Option FinalizerDependencies × Tree}
      (he : Fold.evaluate (Format.normalize b.tree b.directory).tree b.directory config.fuel =
        .ok e)
      (hr : e.tree.resolve b.directory = .ok r)
      (hfound : Finalizer.analyze r.tree b.directory config.finalizer = .ok found) :
      Visits b config found.2

/-- All trees on the way are well formed and have the items of the bound one. -/
theorem Visits.keepsItems (h : Visits b config t) (hb : Coherent b.directory b.tree) :
    t.WellFormed ∧ KeepsItems b.tree t := by
  have hnext : ∀ {s s'}, s.WellFormed ∧ KeepsItems b.tree s → s'.WellFormed ∧ KeepsItems s s' →
      s'.WellFormed ∧ KeepsItems b.tree s' :=
    fun hs hs' => ⟨hs'.1, hs.2.trans hs'.2⟩
  have hbound : ∀ {s}, s.WellFormed ∧ KeepsItems b.tree s → Bound s b.directory :=
    fun hs => hs.2.bound hb.indexed.bound
  -- Stage by stage: what holds before a stage holds after it.
  obtain ⟨f, hf⟩ := Format.normalize_rewired hb.wellFormed b.directory
  have hnormal := And.intro hf.wellFormed (hf.keepsItems hb.wellFormed)
  have hfolded : ∀ e, Fold.evaluate (Format.normalize b.tree b.directory).tree b.directory
      config.fuel = .ok e → e.tree.WellFormed ∧ KeepsItems b.tree e.tree := by
    intro e he
    obtain ⟨e', f, he', hf⟩ := Fold.evaluate_rewired config.fuel hnormal.1 (hbound hnormal)
    obtain rfl := Except.ok.inj (he'.symm.trans he)
    exact hnext hnormal ⟨hf.wellFormed, hf.keepsItems hnormal.1⟩
  have hresolved : ∀ e r, Fold.evaluate (Format.normalize b.tree b.directory).tree b.directory
      config.fuel = .ok e → e.tree.resolve b.directory = .ok r →
      r.tree.WellFormed ∧ KeepsItems b.tree r.tree := by
    intro e r he hr
    have hlabels := resolve_relabelled hr
    have hwf := (hfolded e he).1
    exact hnext (hfolded e he) ⟨hlabels.wellFormed hwf, hlabels.keepsItems hwf⟩
  cases h with
  | bound => exact ⟨hb.wellFormed, .refl _⟩
  | folding n =>
    obtain ⟨f, hf⟩ := Fold.after_rewired
      (s := { tree := (Format.normalize b.tree b.directory).tree }) hnormal.1 (hbound hnormal) n
    exact hnext hnormal ⟨hf.wellFormed, hf.keepsItems hnormal.1⟩
  | folded he => exact hfolded _ he
  | resolved he hr => exact hresolved _ _ he hr
  | finalized he hr hfound =>
    have hr := hresolved _ _ he hr
    obtain ⟨found', hfound', hfinal⟩ :=
      Finalizer.analyze_spec config.finalizer hr.1 (hbound hr)
    obtain rfl := Except.ok.inj (hfound'.symm.trans hfound)
    exact hnext hr hfinal

theorem Visits.coherent (h : Visits b config t) (hb : Coherent b.directory b.tree) :
    Coherent b.directory t :=
  hb.keep (h.keepsItems hb).1 (h.keepsItems hb).2

/-! ### The outcome -/

/-- A run that uses up its fuel has made as many passes. -/
theorem Fold.Folding.passes_of_run {s s' : Fold.Folding} {fuel : Nat}
    (h : s.run directory fuel = (false, s')) : s'.passes = s.passes + fuel := by
  induction fuel generalizing s with
  | zero =>
    obtain ⟨-, rfl⟩ := Prod.mk.inj h
    rfl
  | succ fuel ih =>
    rw [run] at h
    by_cases hcount : (s.pass directory).1 = 0
    · simp [hcount] at h
    · simp only [hcount, if_false] at h
      rw [ih h]
      show s.passes + 1 + fuel = s.passes + (fuel + 1)
      omega

/-- Folding ends, or uses up its fuel. -/
theorem Fold.evaluate_outcome {fuel : Nat} {e : Fold.Evaluation}
    (h : Fold.evaluate t directory fuel = .ok e) :
    (∃ stats, e.outcome = .finished stats) ∨ e.outcome = .exhausted fuel := by
  obtain ⟨s, ⟨hrun, rfl⟩ | ⟨reinlined, tree, -, -, rfl⟩⟩ := Fold.evaluate_cases h
  · have hpasses : s.passes = fuel := (Folding.passes_of_run hrun).trans (Nat.zero_add fuel)
    exact .inr (congrArg Outcome.exhausted hpasses)
  · exact .inl ⟨_, rfl⟩

/-- The module that the results of all stages make. -/
def ResolvedModule.ofStages (sources : SourceMap) (config : Config) (b : Binding)
    (e : Fold.Evaluation) (stats : Fold.Stats) (r : Resolution)
    (found : Option FinalizerDependencies × Tree) : ResolvedModule :=
  { tree := found.2
    sources
    config
    directory := b.directory
    diagnostics := b.diagnostics ++ (Format.normalize b.tree b.directory).diagnostics ++
      e.diagnostics ++ r.diagnostics ++
      (Check.handlers found.2 b.directory ++ Check.formats found.2 ++
        Check.dependencyCycles found.2 b.directory)
    normalized := (Format.normalize b.tree b.directory).count
    stats
    finalizer := found.1 }

/-- The stages that follow when names are bound. -/
structure StageResults (b : Binding) (config : Config) (e : Fold.Evaluation) (r : Resolution)
    (found : Option FinalizerDependencies × Tree) : Prop where
  evaluate : Fold.evaluate (Format.normalize b.tree b.directory).tree b.directory config.fuel =
    .ok e
  resolve : e.tree.resolve b.directory = .ok r
  analyze : Finalizer.analyze r.tree b.directory config.finalizer = .ok found

/-- No stage fails. -/
theorem exists_stages (hwf : t.WellFormed) (hb : t.bind = .ok b) (config : Config) :
    ∃ e r found, StageResults b config e r found := by
  have hsafe : ∀ s, Visits b config s → Safe b.directory s :=
    fun s hs => (hs.coherent (coherent_of_bind hwf hb)).safe
  -- No passes have been made over the tree that folding starts from.
  have hnormal := (Visits.folding 0 : Visits b config _).coherent (coherent_of_bind hwf hb)
  obtain ⟨e, f, he, -⟩ :=
    Fold.evaluate_rewired config.fuel hnormal.wellFormed hnormal.indexed.bound
  obtain ⟨r, hr⟩ := (hsafe _ (.folded he)).resolving
  obtain ⟨found, hfound⟩ := (hsafe _ (.resolved he hr)).finalizing config.finalizer
  exact ⟨e, r, found, he, hr, hfound⟩

/-- The stages after folding count if folding ends. -/
theorem compile_eq (sources : SourceMap) (hb : t.bind = .ok b) {e : Fold.Evaluation}
    {r : Resolution} {found : Option FinalizerDependencies × Tree}
    (h : StageResults b config e r found) :
    compile t sources config =
      match e.outcome with
      | .exhausted passes => .error (.fuelExhausted passes)
      | .finished stats => .ok (.ofStages sources config b e stats r found) := by
  have hbound : bindModule t sources config =
      .ok ⟨b.tree, sources, config, b.directory, b.diagnostics⟩ := by
    rw [bindModule, hb]
    rfl
  rw [compile, hbound]
  show (BoundModule.fold _ >>= FoldedModule.resolve) = _
  unfold BoundModule.fold
  simp only [h.evaluate]
  cases houtcome : e.outcome with
  | exhausted passes =>
    simp only [CompileError.ofPass, Bind.bind, Except.bind, houtcome]
    rfl
  | finished stats =>
    simp only [CompileError.ofPass, Bind.bind, Except.bind, houtcome, pure, Except.pure]
    unfold FoldedModule.resolve
    simp only [h.resolve, CompileError.ofPass, Bind.bind, Except.bind, h.analyze,
      Interruption.after]
    rfl

/-- A compilation ends with the fault that binding ends with. -/
theorem compile_eq_fault {i : Interruption} (sources : SourceMap) (h : t.bind = .error i) :
    compile t sources config = .error (.fault i.fault) := by
  rw [compile, bindModule, h]
  rfl

/-- A module without full names compiles without a fault: every tree on the way answers what it is
asked, and the compilation ends with a module or because the fuel has run out. Any other module is
refused: the compilation ends at its first item that has a full name, with the fault that this name
was to be set again. -/
theorem compile_faultless (hwf : t.WellFormed) (sources : SourceMap) (config : Config) :
    (t.Unnamed →
      ∃ b, t.bind = .ok b ∧ (∀ s, Visits b config s → Safe b.directory s) ∧
        ((∃ m, compile t sources config = .ok m ∧ m.directory = b.directory ∧
            Visits b config m.tree) ∨
          compile t sources config = .error (.fuelExhausted config.fuel))) ∧
    (¬ t.Unnamed →
      ∃ item current, t.namedItems.find? (fun item => (t.fullName? item.1).isSome) = some item ∧
        t.fullName? item.1 = some current ∧
        compile t sources config = .error (.fault (.renamed current item.2))) := by
  constructor
  · intro hnew
    obtain ⟨b, hb⟩ := (bind_ok_iff hwf).mpr hnew
    refine ⟨b, hb, fun s hs => (hs.coherent (coherent_of_bind hwf hb)).safe, ?_⟩
    obtain ⟨e, r, found, h⟩ := exists_stages hwf hb config
    rw [compile_eq sources hb h]
    rcases Fold.evaluate_outcome h.evaluate with ⟨stats, houtcome⟩ | houtcome
    · rw [houtcome]
      exact .inl ⟨_, rfl, rfl, .finalized h.evaluate h.resolve h.analyze⟩
    · rw [houtcome]
      exact .inr rfl
  · intro hold
    obtain ⟨item, current, reported, hfirst, hcurrent, hbind⟩ := bind_eq_error hwf hold
    exact ⟨item, current, hfirst, hcurrent, compile_eq_fault sources hbind⟩

/-- A module with a name that is declared twice, aliases that stand for each other, a string with an
open brace and a reference to nothing. -/
def unruly : Tree where
  nodes := #[
    { kind := .expr (.ref "Second"), span := default, parent := some 1 },
    { kind := .decl { localName := "First", kind := .var none 0 }, span := default,
      parent := some 8 },
    { kind := .expr (.ref "First"), span := default, parent := some 3 },
    { kind := .decl { localName := "Second", kind := .var none 2 }, span := default,
      parent := some 8 },
    { kind := .expr (.sub "$\x7bUnclosed" .empty), span := default, parent := some 5 },
    { kind := .decl { localName := "First", kind := .var none 4 }, span := default,
      parent := some 8 },
    { kind := .expr (.ref "Missing"), span := default, parent := some 7 },
    { kind := .decl { localName := "Last", kind := .resource { properties := some 6 } },
      span := default, parent := some 8 },
    { kind := .module { name := "unruly", items := [1, 3, 5, 7] }, span := default }]
  root := 8

/-- An outcome of which something can be computed is a result. -/
theorem exists_of_toOption_map {ε α β : Type} {r : Except ε α} {f : α → β} {v : β}
    (h : (r.map f).toOption = some v) : ∃ a, r = .ok a ∧ f a = v := by
  cases r with
  | error e => cases h
  | ok a => exact ⟨a, rfl, Option.some.inj h⟩

theorem unruly_faultless :
    ∃ m, compile unruly default { finalizer := "Last" } = .ok m ∧ m.diagnostics.length = 6 ∧
      Safe m.directory m.tree := by
  have hwf : unruly.WellFormed := by
    refine .ofAll (m := { name := "unruly", items := [1, 3, 5, 7] }) rfl rfl ?_
    decide +kernel
  have hnew : unruly.Unnamed := .ofAll (by decide +kernel)
  have hcount : ((compile unruly default { finalizer := "Last" }).map fun m =>
      m.diagnostics.length).toOption = some 6 := by decide +kernel
  obtain ⟨m, hm, hsix⟩ := exists_of_toOption_map hcount
  obtain ⟨b, -, hsafe, ⟨m', hm', hdirectory, hvisits⟩ | hfuel⟩ :=
    (compile_faultless hwf default { finalizer := "Last" }).1 hnew
  · obtain rfl := Except.ok.inj (hm.symm.trans hm')
    exact ⟨m, hm, hsix, hdirectory ▸ hsafe m.tree hvisits⟩
  · cases hm.symm.trans hfuel

/-- A module with one parameter. -/
def staged : Tree where
  nodes := #[
    { kind := .decl { localName := "Stage", kind := .parameter {} }, span := default,
      parent := some 1 },
    { kind := .module { name := "staged", items := [0] }, span := default }]
  root := 1

/-- The compiled module is as well formed as the module was, but it has names, and compiling it
again meets a fault. -/
theorem compiled_not_faultless :
    ∃ m, compile staged default {} = .ok m ∧ m.tree.WellFormed ∧
      compile m.tree default {} = .error (.fault (.renamed "Stage" "Stage")) := by
  have htree : ((compile staged default {}).map fun m => m.tree).toOption =
      some (staged.setKind 0
        (.decl { localName := "Stage", fullName := some "Stage", kind := .parameter {} })) := by
    decide +kernel
  obtain ⟨m, hm, htree⟩ := exists_of_toOption_map htree
  refine ⟨m, hm, ?_, ?_⟩ <;> rw [htree]
  · refine .ofAll (m := { name := "staged", items := [0] }) rfl rfl ?_
    decide +kernel
  · exact compile_eq_fault (i := { fault := .renamed "Stage" "Stage" }) default rfl

end StackTemplate
