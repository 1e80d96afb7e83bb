import StackTemplate.Format.Extraction
import StackTemplate.Proofs.Tree.Rewiring

/-!
# Extracting placeholders keeps the tree well formed

The string that replaces an interpolated string holds its parameters and new look-ups, which are
made for it alone.
-/

namespace StackTemplate

namespace Format

open StackTemplate.Tree

variable {t : Tree}

theorem addParameters_spec (found : List Extraction) (ids : List NodeId)
    (parameters : Table NodeId) (hnodup : parameters.values.Nodup) (hids : ids.Nodup)
    (hnew : ∀ id ∈ ids, id ∉ parameters.values) :
    (addParameters parameters found ids).values.Nodup ∧
      ∀ c ∈ (addParameters parameters found ids).values, c ∈ ids ∨ c ∈ parameters.values := by
  induction found generalizing ids parameters with
  | nil => exact ⟨hnodup, fun c hc => .inr hc⟩
  | cons e found ih =>
    cases ids with
    | nil => exact ⟨hnodup, fun c hc => .inr hc⟩
    | cons id ids =>
      obtain ⟨hid, hids⟩ := List.nodup_cons.mp hids
      have hfresh := hnew id (List.mem_cons_self ..)
      obtain ⟨hnodup', hmem⟩ := ih ids (parameters.insert e.parameter id)
        (Table.nodup_values_insert hnodup hfresh) hids (by
          intro id' hid' hmem
          rcases Table.mem_values_insert hnodup hmem with rfl | ⟨hmem, -⟩
          · exact hid hid'
          · exact hnew id' (List.mem_cons_of_mem id hid') hmem)
      refine ⟨hnodup', fun c hc => ?_⟩
      rcases hmem c hc with hc | hc
      · exact .inl (List.mem_cons_of_mem id hc)
      · rcases Table.mem_values_insert hnodup hc with rfl | ⟨hc, -⟩
        · exact .inl (List.mem_cons_self ..)
        · exact .inr hc

theorem children_lookUp (directory : Directory) (name : String) :
    (lookUp directory name).children = [] := by
  unfold lookUp
  split <;> rfl

/-- The string at `y` was made for the one at `x`: it has the same parameters, and new ones for what
was extracted, which look it up and are placed where it was found first. -/
def Extracted (t : Tree) (directory : Directory) (s : Tree) (x y : NodeId) : Prop :=
  ∃ format parameters pieces format' ids, t.expr? x = some (.sub format parameters) ∧
    segments format = .ok pieces ∧
    withParameters (extracting parameters pieces).found format = .ok format' ∧
    ids.length = (extracting parameters pieces).found.length ∧
    (∀ pair ∈ (extracting parameters pieces).found.zip ids,
      t.size ≤ pair.2 ∧ s.expr? pair.2 = some (lookUp directory pair.1.name) ∧
        s.span pair.2 = (t.span x).part pair.1.offset pair.1.length) ∧
    t.size ≤ y ∧
    s.expr? y =
      some (.sub format' (addParameters parameters (extracting parameters pieces).found ids))

theorem Extracted.keep {directory : Directory} {s s' : Tree} {x y : NodeId}
    (h : Extracted t directory s x y) (hs : Keeps s s') : Extracted t directory s' x y := by
  obtain ⟨format, parameters, pieces, format', ids, he, hpieces, hformat, hlength, hids, hle, hy⟩ :=
    h
  refine ⟨format, parameters, pieces, format', ids, he, hpieces, hformat, hlength,
    fun pair hpair => ?_, hle, hs.expr?_eq hy⟩
  obtain ⟨hnew, hlookUp, hspan⟩ := hids pair hpair
  exact ⟨hnew, hs.expr?_eq hlookUp, (hs.span_eq _ (lt_size_of_expr? hlookUp)).trans hspan⟩

/-- The expression at a node is a string with placeholders to extract. -/
def Extractable (t : Tree) (x : NodeId) : Prop :=
  ∃ format parameters pieces format', t.expr? x = some (.sub format parameters) ∧
    segments format = .ok pieces ∧ (extracting parameters pieces).found ≠ [] ∧
    withParameters (extracting parameters pieces).found format = .ok format'

/-- What is staged for an expression: the string made for it, just if there is something to
extract. -/
def ExtractsTo (t : Tree) (directory : Directory) (s : Tree) (x : NodeId) (y? : Option NodeId) :
    Prop :=
  (∀ y ∈ y?, Extracted t directory s x y) ∧ (y?.isSome ↔ Extractable t x)

/-- One step, as far as replacements go. -/
def stageExtraction (directory : Directory) (sofar : Replacements × Tree) (id : NodeId) :
    Replacements × Tree :=
  let s := Normalizing.step directory { tree := sofar.2, staged := sofar.1 } id
  (s.staged, s.tree)

/-- What is reported does not matter for the replacements. -/
theorem stageExtraction_eq (directory : Directory) (s : Normalizing) (id : NodeId) :
    stageExtraction directory (s.staged, s.tree) id =
      ((s.step directory id).staged, (s.step directory id).tree) := by
  unfold stageExtraction Normalizing.step
  dsimp only
  split
  · split
    · rfl
    · split <;> rfl
  · rfl

/-- The look-up made for a placeholder to extract. -/
def makeLookUp (directory : Directory) (span : Span) (e : Extraction) (s : Tree) : NodeId × Tree :=
  s.addExpr (lookUp directory e.name) (span.part e.offset e.length)

theorem makes_makeLookUp (t : Tree) (directory : Directory) (span : Span) (e : Extraction) :
    Makes t (makeLookUp directory span) (fun _ => none)
      (fun s e y => t.size ≤ y ∧ s.expr? y = some (lookUp directory e.name) ∧
        s.span y = span.part e.offset e.length) e where
  grows s _ := (Grows.leaf s _ (children_lookUp directory e.name)).1
  old _ _ _ h := nomatch h
  new s _ _ := (Grows.leaf s _ (children_lookUp directory e.name)).2
  holds s hs := ⟨hs.size_le, expr?_addExpr s _ _, span_addExpr s _ _⟩

/-- One new look-up was made for each placeholder found in a string at `span`. -/
structure MadeLookUps (t : Tree) (directory : Directory) (span : Span) (found : List Extraction)
    (s s' : Tree) (ids : List NodeId) : Prop where
  grows : Grows s s' fun _ => False
  adds : AddsExprs s s'
  length : ids.length = found.length
  nodup : ids.Nodup
  sprout : ∀ id ∈ ids, Sprout s s' id
  each : ∀ pair ∈ found.zip ids, t.size ≤ pair.2 ∧
    s'.expr? pair.2 = some (lookUp directory pair.1.name) ∧
    s'.span pair.2 = span.part pair.1.offset pair.1.length

theorem madeLookUps_addEach {s : Tree} (directory : Directory) (span : Span)
    (found : List Extraction) (hs : Keeps t s) :
    MadeLookUps t directory span found s (addEach (makeLookUp directory span) found s).2
      (addEach (makeLookUp directory span) found s).1 := by
  obtain ⟨hgrows, hlength, hnodup, hmem, heach⟩ := addEach_spec
    (fun s s' _ _ hlt hs h => ⟨h.1, hs.expr?_eq h.2.1, (hs.span_eq _ hlt).trans h.2.2⟩)
    (fun e (_ : e ∈ found) => makes_makeLookUp t directory span e) (by simp) s hs
  have hadds := (AddsExprs.addEach (f := makeLookUp directory span)
    (fun e (_ : e ∈ found) _ _ => ⟨.add _ _ _, .add _ _ _⟩) hs).1
  exact ⟨hgrows, hadds, hlength, hnodup, fun id hid => (hmem id hid).resolve_right (by simp), heach⟩

/-- The string made in place of the one at `x` holds the parameters of the latter and the new
look-ups, so it can be staged. -/
theorem MadeLookUps.block {directory : Directory} {span : Span} {found : List Extraction}
    {s s' : Tree} {ids : List NodeId} (h : MadeLookUps t directory span found s s' ids)
    {staged : Replacements} {owner : NodeId → NodeId} {x : NodeId} (hs : Staged t staged s owner)
    (hwf : t.WellFormed) (hx : x ∈ t.exprs) (hfresh : staged.lookup x = none) {format : String}
    {parameters : Table NodeId} (he : t.expr? x = some (.sub format parameters))
    (format' : String) :
    Block t s (s'.addExpr (.sub format' (addParameters parameters found ids)) span).2 x
      (s'.addExpr (.sub format' (addParameters parameters found ids)) span).1 := by
  have hreach := (hwf.mem_exprs.mp hx).1
  have hchildren : t.children x = parameters.values := children_of_expr? he
  obtain ⟨hvalues, hchild⟩ := addParameters_spec found ids parameters
    (hchildren ▸ hwf.nodup hreach) h.nodup fun c hc hold => by
      rw [← hchildren] at hold
      have hlt := Nat.lt_of_lt_of_le (hwf.lt_size (hreach.tail hold)) hs.keeps.size_le
      exact Nat.not_le.mpr hlt (h.sprout c hc).size_le
  refine hs.block_cap hwf hx hfresh h.grows h.adds _ hvalues fun c hc => ?_
  rw [hchildren]
  exact (hchild c hc).imp_left (h.sprout c)

theorem MadeLookUps.extracted {directory : Directory} {s s' : Tree} {ids : List NodeId}
    {x : NodeId} {format format' : String} {parameters : Table NodeId} {pieces : List Segment}
    (h : MadeLookUps t directory (t.span x) (extracting parameters pieces).found s s' ids)
    (hs : Keeps t s) (he : t.expr? x = some (.sub format parameters))
    (hpieces : segments format = .ok pieces)
    (hformat : withParameters (extracting parameters pieces).found format = .ok format')
    (span : Span) :
    Extracted t directory
      (s'.addExpr (.sub format' (addParameters parameters (extracting parameters pieces).found ids))
        span).2 x
      (s'.addExpr (.sub format' (addParameters parameters (extracting parameters pieces).found ids))
        span).1 := by
  refine ⟨format, parameters, pieces, format', ids, he, hpieces, hformat, h.length,
    fun pair hpair => ?_, Nat.le_trans hs.size_le h.grows.size_le, expr?_addExpr _ _ _⟩
  obtain ⟨hnew, hlookUp, hplace⟩ := h.each pair hpair
  exact ⟨hnew, (Keeps.add _ _ _).expr?_eq hlookUp,
    ((Keeps.add _ _ _).span_eq _ (lt_size_of_expr? hlookUp)).trans hplace⟩

theorem stages_extraction (directory : Directory) (hwf : t.WellFormed) {sofar : Replacements × Tree}
    {owner : NodeId → NodeId} {x : NodeId} (hs : Staged t sofar.1 sofar.2 owner)
    (hx : x ∈ t.exprs) (hfresh : sofar.1.lookup x = none) :
    Stages t (ExtractsTo t directory) sofar (stageExtraction directory sofar x) x := by
  have hleft : ¬ Extractable t x → ExtractsTo t directory sofar.2 x none := fun hnot =>
    ⟨fun _ h => (nomatch h), by simpa using hnot⟩
  have hlt := hwf.lt_size (hwf.mem_exprs.mp hx).1
  have hexpr : sofar.2.expr? x = t.expr? x := expr?_congr (hs.keeps.kind_eq x hlt)
  have hspan : sofar.2.span x = t.span x := hs.keeps.span_eq x hlt
  -- What is staged so far keeps `t`, so the step sees the string that `t` has at `x`.
  unfold stageExtraction Normalizing.step
  dsimp only
  split
  · next format parameters he =>
    rw [hexpr] at he
    split
    · next malformed hmalformed =>
      refine .inl ⟨rfl, hleft ?_⟩
      rintro ⟨format', parameters', pieces, _, he', hpieces, -⟩
      cases he.symm.trans he'
      rw [hmalformed] at hpieces
      cases hpieces
    · next pieces hpieces =>
      split
      · next e found format' hfound hformat =>
        have hmade := madeLookUps_addEach directory (sofar.2.span x)
          (extracting parameters pieces).found hs.keeps
        refine .inr ⟨_, rfl, ?_, hmade.block hs hwf hx hfresh he format', ?_, ?_⟩
        · rw [isFinal, he]
          rfl
        · rintro _ ⟨⟩
          rw [hspan] at hmade ⊢
          exact hmade.extracted hs.keeps he hpieces hformat _
        · refine iff_of_true rfl ⟨format, parameters, pieces, format', he, hpieces, ?_, hformat⟩
          rw [hfound]
          exact List.cons_ne_nil e found
      · next hneither =>
        refine .inl ⟨rfl, hleft ?_⟩
        rintro ⟨format', parameters', pieces', newFormat, he', hpieces', hfound, hformat⟩
        cases he.symm.trans he'
        obtain rfl := Except.ok.inj (hpieces.symm.trans hpieces')
        obtain ⟨e, found, hcons⟩ := List.exists_cons_of_ne_nil hfound
        exact hneither e found newFormat hcons hformat
  · next hno =>
    refine .inl ⟨rfl, hleft ?_⟩
    rintro ⟨format, parameters, -, -, he, -⟩
    exact hno format parameters (hexpr.trans he)

/-- The replacements of all strings within reach, and the tree that they were made in. -/
def extractions (t : Tree) (directory : Directory) : Normalizing :=
  t.exprs.foldl (Normalizing.step directory) { tree := t }

/-- All strings with something to extract are replaced together, each by one made for it. -/
theorem extractions_staged (hwf : t.WellFormed) (directory : Directory) :
    ∃ owner, Staged t (extractions t directory).staged (extractions t directory).tree owner ∧
      (∀ x y, (extractions t directory).staged.lookup x = some y →
        Extracted t directory (extractions t directory).tree x y) ∧
      ∀ x ∈ t.exprs, ((extractions t directory).staged.lookup x).isSome ↔ Extractable t x := by
  obtain ⟨owner, hs, hextracted⟩ := Staged.foldl hwf (Q := ExtractsTo t directory)
    (fun s s' x y? _ _ hs h => ⟨fun y hy => (h.1 y hy).keep hs, h.2⟩)
    fun sofar owner x hs hx hfresh => stages_extraction directory hwf hs hx hfresh
  have hfold : ∀ (xs : List NodeId) (s : Normalizing),
      xs.foldl (stageExtraction directory) (s.staged, s.tree) =
        ((xs.foldl (Normalizing.step directory) s).staged,
          (xs.foldl (Normalizing.step directory) s).tree) := by
    intro xs s
    refine List.foldl_hom (fun s : Normalizing => (s.staged, s.tree)) fun s id => ?_
    exact stageExtraction_eq directory s id
  rw [hfold t.exprs { tree := t }] at hs hextracted
  exact ⟨owner, hs, fun x y hy => (hextracted x (hs.key x y hy).1).1 y hy,
    fun x hx => (hextracted x hx).2⟩

/-- Extracting placeholders changes expressions only. -/
theorem normalize_rewired (hwf : t.WellFormed) (directory : Directory) :
    ∃ f, Rewired t (normalize t directory).tree f := by
  obtain ⟨owner, hs, -⟩ := extractions_staged hwf directory
  exact ⟨_, hs.rewired hwf⟩

end Format

end StackTemplate
