import StackTemplate.Proofs.Fold.Circular
import StackTemplate.Proofs.Fold.Reinlining
import StackTemplate.Proofs.Format.Extracting
import StackTemplate.Proofs.Format.Normalizing
import StackTemplate.Proofs.Order.Reordering

/-!
# What passes stage for equal terms

Each of the three passes decides by the term of an expression and by what names mean. So for
expressions with the same term in two trees it stages nothing, or replacements that match
(`extractions_agree`, `stageAll_agree`, `reinline_agree`).

A folding pass looks at operands but hands them on unseen. To see which of them it hands on, it is
run on terms with *quoted* operands (`Term.quote`): the answer is a pattern that both replacements
are read off from (`Reads`).
-/

namespace StackTemplate

/-- A term marked as one that stays. No expression reads like this, for literals have no
operands. -/
def Term.quote (e : Term) : Term := .node (.literal default) [e]

namespace Order

open StackTemplate.Tree Fold

variable {t g t' g' : Tree} {x x' y y' : NodeId} {directory directory' : Directory}
  {staged staged' : Replacements} {e e' : Expr}

/-- Two options are related if both have a value or none has, and the values are related. -/
theorem rel_of_isSome {α β : Type} {R : α → β → Prop} {a? : Option α} {b? : Option β}
    (hiff : a?.isSome ↔ b?.isSome) (h : ∀ a, a? = some a → ∀ b, b? = some b → R a b) :
    Option.Rel R a? b? := by
  cases a? with
  | none =>
    cases b? with
    | none => exact .none
    | some b => simp at hiff
  | some a =>
    cases b? with
    | none => simp at hiff
    | some b => exact .some (h a rfl b rfl)

/-! ### Patterns -/

/-- A node that was made as a pattern says: with the heads of the pattern, down to old expressions
where terms are quoted. -/
inductive Reads (t g : Tree) : NodeId → Term → Prop where
  | quoted {x : NodeId} (mem : x ∈ t.exprs) : Reads t g x (t.term x).quote
  | made {y : NodeId} {e : Expr} {patterns : List Term} (size_le : t.size ≤ y)
    (expr_eq : g.expr? y = some e) (length_eq : patterns.length = e.children.length)
    (below : ∀ pair ∈ patterns.zip e.children, Reads t g pair.2 pair.1) :
    Reads t g y (.node e.head patterns)

/-- A literal has no operands. -/
theorem children_of_head {l : Literal} (h : e.head = .literal l) : e.children = [] := by
  cases e <;> first | rfl | cases h

theorem exists_zip_zip {α β γ : Type} {as : List α} {bs : List β} {cs : List γ}
    (hlength : cs.length = as.length) {pair : α × β} (h : pair ∈ as.zip bs) :
    ∃ c, (c, pair.1) ∈ cs.zip as ∧ (c, pair.2) ∈ cs.zip bs := by
  obtain ⟨i, hi⟩ := List.mem_iff_getElem?.mp h
  obtain ⟨ha, hb⟩ := List.getElem?_zip_eq_some.mp hi
  have hlt : i < cs.length := hlength ▸ (List.getElem?_eq_some_iff.mp ha).1
  have hc : cs[i]? = some cs[i] := List.getElem?_eq_getElem hlt
  exact ⟨cs[i], List.mem_of_getElem? (List.getElem?_zip_eq_some.mpr ⟨hc, ha⟩),
    List.mem_of_getElem? (List.getElem?_zip_eq_some.mpr ⟨hc, hb⟩)⟩

/-- Nodes made after one pattern match. -/
theorem Reads.matches {p : Term} (h : Reads t g y p) (h' : Reads t' g' y' p) :
    Matches t g t' g' y y' := by
  -- A quotation is not the pattern of an expression.
  have hquoted : ∀ {e : Expr} {patterns : List Term} {e₀ : Term},
      Term.node e.head patterns = e₀.quote → patterns.length = e.children.length → False := by
    intro e patterns e₀ heq hlength
    obtain ⟨hhead, rfl⟩ := Term.node.inj heq
    rw [children_of_head hhead] at hlength
    cases hlength
  induction h generalizing y' with
  | @quoted x hx =>
    generalize hp : (t.term x).quote = p at h'
    cases h' with
    | @quoted x' hx' =>
      obtain ⟨-, hterm⟩ := Term.node.inj hp
      exact .old hx hx' (List.cons.inj hterm).1.symm
    | made hle' he' hlength' hbelow' => exact (hquoted hp.symm hlength').elim
  | @made y e patterns hle he hlength hbelow ih =>
    generalize hp : Term.node e.head patterns = p at h'
    cases h' with
    | quoted hx' => exact (hquoted hp hlength).elim
    | @made y' e' patterns' hle' he' hlength' hbelow' =>
      obtain ⟨hhead, rfl⟩ := Term.node.inj hp
      refine .new hle hle' he he' hhead.symm (hlength'.symm.trans hlength) fun pair hpair => ?_
      obtain ⟨p, hfirst, hsecond⟩ := exists_zip_zip hlength hpair
      exact ih _ hfirst (hbelow' _ hsecond)

/-- A copy reads like the original. -/
theorem reads_of_mirrors (h : Mirrors t g x y) (hx : t.Grounded x)
    (hexpr : ∀ z, t.Reaches x z → (t.expr? z).isSome) : Reads t g y (t.term x) := by
  induction h with
  | @intro x y kind ys hnew hkind hlength hkind' hspan below ih =>
    obtain ⟨e, he⟩ := Option.isSome_iff_exists.mp (hexpr x .refl)
    obtain rfl : kind = .expr e := by
      rw [expr?_eq_some.mp he] at hkind
      exact (Option.some.inj hkind).symm
    have hchildren : (e.refill ys).children = ys := Expr.children_refill hlength
    rw [Tree.term_eq hx he, ← Expr.head_refill e ys]
    refine .made hnew (expr?_eq_some.mpr hkind') ?_ fun pair hpair => ?_
    · rw [hchildren, List.length_map]
      exact hlength.symm
    · rw [hchildren, List.zip_map_left] at hpair
      obtain ⟨⟨a, b⟩, hab, rfl⟩ := List.mem_map.mp hpair
      have ha : a ∈ t.children x := by
        rw [children_of_expr? he]
        exact (List.of_mem_zip hab).1
      exact ih (a, b) hab (hx.child ha) fun z hz => hexpr z ((Reaches.refl.tail ha).trans hz)

/-- A new literal. -/
theorem reads_literal {l : Literal} (hle : t.size ≤ y) (he : g.expr? y = some (.literal l)) :
    Reads t g y (.literal l) :=
  .made hle he rfl fun _ hpair => absurd hpair List.not_mem_nil

/-- What was made to replace an expression reads like the answer on terms. -/
theorem reads_realised {r : Reduct} (hwf : t.WellFormed) (hx : x ∈ t.exprs) (hfits : r.Fits t x)
    (hr : r.Realised t g y) : Reads t g y (r.term t fun c => (t.term c).quote) := by
  have hoperand : ∀ c ∈ t.children x, Reads t g c (t.term c).quote := fun c hc =>
    .quoted (hwf.mem_exprs_of_child hx hc)
  cases r with
  | existing id =>
    obtain rfl : y = id := hr
    exact hoperand y hfits
  | copied id =>
    exact reads_of_mirrors hr (hwf.grounded_of_reaches hfits.1) fun z hz =>
      hwf.expr_of_reaches hfits.1 hfits.2 hz
  | constant l => exact reads_literal hr.1 hr.2
  -- What is new reads as an expression over literals and operands, part by part.
  | strings parts =>
    obtain ⟨hle, ids, he, hlength, hparts⟩ := hr
    refine .made hle he (by rw [List.length_map]; exact hlength.symm) fun pair hpair => ?_
    rw [List.zip_map_left] at hpair
    obtain ⟨part, hpart, rfl⟩ := List.mem_map.mp hpair
    exact reads_literal (hparts part hpart).1 (hparts part hpart).2
  | joined delimiter parts =>
    obtain ⟨hle, ids, he, hlength, hparts⟩ := hr
    refine .made hle he (by rw [List.length_map]; exact hlength.symm) fun pair hpair => ?_
    rw [List.zip_map_left] at hpair
    obtain ⟨⟨part, id⟩, hpart, rfl⟩ := List.mem_map.mp hpair
    have hrealised := hparts _ hpart
    cases part with
    | kept id' =>
      obtain rfl : id = id' := hrealised
      refine hoperand id (hfits.mem ?_)
      exact List.mem_filterMap.mpr ⟨.kept id, (List.of_mem_zip hpart).1, rfl⟩
    | merged text span => exact reads_literal hrealised.1 hrealised.2
  | interpolated format parameters =>
    obtain ⟨hle, he⟩ := hr
    refine .made hle he (by rw [List.length_map]; rfl) fun pair hpair => ?_
    have hpair : pair ∈ (parameters.values.map fun c => (t.term c).quote).zip parameters.values :=
      hpair
    rw [← List.map_prod_right_eq_zip] at hpair
    obtain ⟨c, hc, rfl⟩ := List.mem_map.mp hpair
    exact hoperand c (hfits.mem hc)

/-! ### Folding -/

/-- Of the circular names only membership matters. -/
theorem contract?_congr {scope : Scope} {cyclic cyclic' : List String}
    (h : ∀ name, cyclic'.contains name = cyclic.contains name) (head : Head)
    (os : List Term.Operand) :
    Term.contract? scope cyclic' head os = Term.contract? scope cyclic head os := by
  unfold Term.contract?
  simp only [h]

theorem isSome_of_answers {cyclic : List String} {y? : Option NodeId}
    (h : Answers t directory cyclic g x y?) :
    y?.isSome = ((t.expr? x).bind (reduct? t directory cyclic)).isSome := by
  cases y? with
  | none =>
    have hnone : (t.expr? x).bind (reduct? t directory cyclic) = none := h
    rw [hnone]
    rfl
  | some y =>
    obtain ⟨r, hr, -⟩ := h
    rw [hr]
    rfl

/-- A folding pass stages for expressions with the same term what matches. -/
theorem stageAll_agree {cyclic cyclic' : List String} (hwf : t.WellFormed) (hwf' : t'.WellFormed)
    (hbound : Bound t directory) (hbound' : Bound t' directory')
    (hscope : t'.scope directory' = t.scope directory)
    (hcyclic : ∀ name, cyclic'.contains name = cyclic.contains name)
    (hanswers : ∀ x ∈ t.exprs, Answers t directory cyclic g x (staged.lookup x))
    (hanswers' : ∀ x ∈ t'.exprs, Answers t' directory' cyclic' g' x (staged'.lookup x)) :
    Agree t g t' g' staged staged' := by
  intro x hx x' hx' hterm
  obtain ⟨hreach, hexpr⟩ := hwf.mem_exprs.mp hx
  obtain ⟨hreach', hexpr'⟩ := hwf'.mem_exprs.mp hx'
  obtain ⟨e, he⟩ := Option.isSome_iff_exists.mp hexpr
  obtain ⟨e', he'⟩ := Option.isSome_iff_exists.mp hexpr'
  -- Both decisions are the one that is taken on the quoted term.
  have hsame : (reduct? t' directory' cyclic' e').map (Reduct.term t' fun c => (t'.term c).quote) =
      (reduct? t directory cyclic e).map (Reduct.term t fun c => (t.term c).quote) := by
    rw [term_eq (hwf.grounded_of_reaches hreach) he,
      term_eq (hwf'.grounded_of_reaches hreach') he'] at hterm
    obtain ⟨hhead, hoperands⟩ := Term.node.inj hterm
    have hquoted := congrArg (List.map fun e : Term => (e, e.quote)) hoperands
    rw [List.map_map, List.map_map] at hquoted
    rw [← contract?_term hwf hbound, ← contract?_term hwf' hbound', hscope, hhead,
      contract?_congr hcyclic]
    exact congrArg _ hquoted
  have hanswer := hanswers x hx
  have hanswer' := hanswers' x' hx'
  refine rel_of_isSome ?_ fun y hy y' hy' => ?_
  · have hsome := congrArg Option.isSome hsame
    rw [Option.isSome_map, Option.isSome_map] at hsome
    rw [isSome_of_answers hanswer, isSome_of_answers hanswer', he, he', Option.bind_some,
      Option.bind_some, hsome]
  · rw [hy] at hanswer
    rw [hy'] at hanswer'
    obtain ⟨r, hr, hrealised⟩ := hanswer
    obtain ⟨r', hr', hrealised'⟩ := hanswer'
    rw [he, Option.bind_some] at hr
    rw [he', Option.bind_some] at hr'
    rw [hr, hr'] at hsame
    have hreads := reads_realised hwf hx (reduct?_fits hwf hbound he hr) hrealised
    have hreads' := reads_realised hwf' hx' (reduct?_fits hwf' hbound' he' hr') hrealised'
    rw [Option.some.inj hsame] at hreads'
    exact hreads.matches hreads'

/-! ### Interpolated strings -/

/-- The parameters of a string, read as terms. -/
def namedTerms (t : Tree) (parameters : Table NodeId) : List (String × Term) :=
  parameters.entries.map fun entry => (entry.1, t.term entry.2)

section Strings

variable {format : String} {parameters parameters' : Table NodeId}

/-- What has the same term as a string is a string with the same format and parameters. -/
theorem sub_of_term_eq (hwf : t.WellFormed) (hwf' : t'.WellFormed) (hx : x ∈ t.exprs)
    (hx' : x' ∈ t'.exprs) (hterm : t'.term x' = t.term x)
    (he : t.expr? x = some (.sub format parameters)) :
    ∃ parameters', t'.expr? x' = some (.sub format parameters') ∧
      namedTerms t' parameters' = namedTerms t parameters := by
  obtain ⟨hreach, -⟩ := hwf.mem_exprs.mp hx
  obtain ⟨hreach', hexpr'⟩ := hwf'.mem_exprs.mp hx'
  obtain ⟨e', he'⟩ := Option.isSome_iff_exists.mp hexpr'
  rw [Tree.term_eq (hwf.grounded_of_reaches hreach) he,
    Tree.term_eq (hwf'.grounded_of_reaches hreach') he'] at hterm
  obtain ⟨hhead, hoperands⟩ := Term.node.inj hterm
  have hzip : ∀ (t : Tree) (parameters : Table NodeId), namedTerms t parameters =
      parameters.keys.zip (parameters.values.map t.term) := by
    intro t parameters
    rw [namedTerms, Table.keys, Table.values, List.map_map, List.zip_map']
    rfl
  cases e' with
  | sub format' parameters' =>
    obtain ⟨rfl, hkeys⟩ := Head.sub.inj hhead
    refine ⟨parameters', he', ?_⟩
    rw [hzip, hzip, hkeys]
    exact congrArg _ hoperands
  | _ => cases hhead

theorem keys_of_namedTerms (h : namedTerms t' parameters' = namedTerms t parameters) :
    parameters'.keys = parameters.keys := by
  have hkeys := congrArg (List.map Prod.fst) h
  rw [namedTerms, namedTerms, List.map_map, List.map_map] at hkeys
  exact hkeys

theorem values_of_namedTerms (h : namedTerms t' parameters' = namedTerms t parameters) :
    parameters'.values.map t'.term = parameters.values.map t.term := by
  have hvalues := congrArg (List.map Prod.snd) h
  rw [namedTerms, namedTerms, List.map_map, List.map_map] at hvalues
  rw [Table.values, Table.values, List.map_map, List.map_map]
  exact hvalues

end Strings

/-! ### Extracting placeholders -/

open Format

/-- Of the parameters only the names matter to what is extracted. -/
theorem extracting_congr {parameters parameters' : Table NodeId}
    (h : parameters'.keys = parameters.keys) (pieces : List Segment) :
    extracting parameters' pieces = extracting parameters pieces := by
  have hcontains : parameters'.contains = parameters.contains := by
    funext name
    rw [Table.contains, Table.contains, h]
  have hsize : parameters'.size = parameters.size := by
    have hlength := congrArg List.length h
    rwa [Table.keys, Table.keys, List.length_map, List.length_map] at hlength
  have hstep : Extracting.step parameters' = Extracting.step parameters := by
    unfold Extracting.step localOwner?
    rw [hcontains, h, hsize]
  rw [extracting, extracting, hstep]

theorem lookUp_congr (h : ∀ name, directory'.contains name = directory.contains name)
    (name : String) : lookUp directory' name = lookUp directory name := by
  rw [lookUp, lookUp, splitTarget, splitTarget, h]

theorem extractable_of_term_eq (hwf : t.WellFormed) (hwf' : t'.WellFormed) (hx : x ∈ t.exprs)
    (hx' : x' ∈ t'.exprs) (hterm : t'.term x' = t.term x) (h : Extractable t x) :
    Extractable t' x' := by
  obtain ⟨format, parameters, pieces, format', he, hpieces, hfound, hformat⟩ := h
  obtain ⟨parameters', he', hnamed⟩ := sub_of_term_eq hwf hwf' hx hx' hterm he
  refine ⟨format, parameters', pieces, format', he', hpieces, ?_⟩
  rw [extracting_congr (keys_of_namedTerms hnamed)]
  exact ⟨hfound, hformat⟩

/-- Strings made for strings with the same term match. -/
theorem matches_of_extracted (hwf : t.WellFormed) (hwf' : t'.WellFormed)
    (hcontains : ∀ name, directory'.contains name = directory.contains name) (hx : x ∈ t.exprs)
    (hx' : x' ∈ t'.exprs) (hterm : t'.term x' = t.term x) (h : Extracted t directory g x y)
    (h' : Extracted t' directory' g' x' y') : Matches t g t' g' y y' := by
  obtain ⟨format, parameters, pieces, newFormat, ids, he, hpieces, hformat, hlength, hids, hle,
    hy⟩ := h
  obtain ⟨_, parameters', _, newFormat', ids', he', hpieces', hformat', hlength', hids', hle',
    hy'⟩ := h'
  obtain ⟨parameters'', he'', hnamed⟩ := sub_of_term_eq hwf hwf' hx hx' hterm he
  cases he'.symm.trans he''
  obtain rfl := Except.ok.inj (hpieces.symm.trans hpieces')
  -- Only the names of parameters matter for what is found.
  have hfound := extracting_congr (keys_of_namedTerms hnamed) pieces
  rw [hfound] at hformat' hlength' hids'
  obtain rfl := Except.ok.inj (hformat.symm.trans hformat')
  obtain ⟨hvalues, hzip⟩ := zip_of_map_eq (values_of_namedTerms hnamed)
  have hchildren : (Expr.sub newFormat (addParameters parameters
      (extracting parameters pieces).found ids)).children = parameters.values ++ ids := by
    rw [Expr.children, values_addExtracted, List.map_snd_zip (Nat.le_of_eq hlength)]
  have hchildren' : (Expr.sub newFormat (addParameters parameters'
      (extracting parameters' pieces).found ids')).children = parameters'.values ++ ids' := by
    rw [Expr.children, values_addExtracted, hfound, List.map_snd_zip (Nat.le_of_eq hlength')]
  refine .new hle hle' hy hy' ?_ ?_ fun pair hpair => ?_
  · rw [Expr.head, Expr.head, keys_addExtracted parameters hlength,
      keys_addExtracted parameters' (hfound ▸ hlength'), hfound, keys_of_namedTerms hnamed]
  · rw [hchildren, hchildren', List.length_append, List.length_append, hvalues, hlength, hlength']
  · rw [hchildren, hchildren', List.zip_append hvalues.symm] at hpair
    rcases List.mem_append.mp hpair with hpair | hpair
    · -- Parameters that were there have the same terms.
      obtain ⟨hc, hc'⟩ := List.of_mem_zip hpair
      replace hc : pair.1 ∈ t.children x := (children_of_expr? he).symm ▸ hc
      replace hc' : pair.2 ∈ t'.children x' := (children_of_expr? he').symm ▸ hc'
      exact .old (hwf.mem_exprs_of_child hx hc) (hwf'.mem_exprs_of_child hx' hc')
        (hzip pair hpair)
    · -- Look-ups for one name are the same and have no operands.
      obtain ⟨e, hfirst, hsecond⟩ := exists_zip_zip hlength.symm hpair
      obtain ⟨hnew, hlookUp, -⟩ := hids _ hfirst
      obtain ⟨hnew', hlookUp', -⟩ := hids' _ hsecond
      rw [lookUp_congr hcontains] at hlookUp'
      refine .new hnew hnew' hlookUp hlookUp' rfl rfl fun pair hpair => ?_
      rw [children_lookUp] at hpair
      exact absurd hpair List.not_mem_nil

/-- Extracting placeholders stages for expressions with the same term what matches. -/
theorem extractions_agree (hwf : t.WellFormed) (hwf' : t'.WellFormed)
    (hcontains : ∀ name, directory'.contains name = directory.contains name)
    (hextracted : ∀ x y, staged.lookup x = some y → Extracted t directory g x y)
    (hextractable : ∀ x ∈ t.exprs, (staged.lookup x).isSome ↔ Extractable t x)
    (hextracted' : ∀ x y, staged'.lookup x = some y → Extracted t' directory' g' x y)
    (hextractable' : ∀ x ∈ t'.exprs, (staged'.lookup x).isSome ↔ Extractable t' x) :
    Agree t g t' g' staged staged' := by
  intro x hx x' hx' hterm
  have hiff : (staged.lookup x).isSome ↔ (staged'.lookup x').isSome := by
    rw [hextractable x hx, hextractable' x' hx']
    exact ⟨extractable_of_term_eq hwf hwf' hx hx' hterm,
      extractable_of_term_eq hwf' hwf hx' hx hterm.symm⟩
  refine rel_of_isSome hiff fun y hy y' hy' => ?_
  exact matches_of_extracted hwf hwf' hcontains hx hx' hterm (hextracted x y hy)
    (hextracted' x' y' hy')

/-! ### Turning parameters back -/

/-- The text of the placeholder that a term can be written as. -/
def inlineTargetOf? : Term → Option String
  | .node (.ref name) _ => some name
  | .node (.getAtt name attributeName) _ => some (name ++ "." ++ attributeName)
  | _ => none

theorem inlineTargetOf?_term (t : Tree) (x : NodeId) :
    inlineTargetOf? (t.term x) = (t.expr? x).bind inlineTarget? := by
  obtain ⟨es, hes⟩ := head_term (t := t) x
  rw [hes]
  cases t.expr? x with
  | none => rfl
  | some e => cases e <;> rfl

section Strings

variable {parameters parameters' : Table NodeId}
  (hnamed : namedTerms t' parameters' = namedTerms t parameters)

include hnamed

theorem inlinable_eq : inlinable t' parameters' = inlinable t parameters := by
  have hterms : ∀ (t : Tree) (parameters : Table NodeId), inlinable t parameters =
      (namedTerms t parameters).filterMap fun entry =>
        (inlineTargetOf? entry.2).map fun target => (entry.1, target) := by
    intro t parameters
    rw [inlinable, namedTerms, List.filterMap_map]
    simp only [Function.comp_def, inlineTargetOf?_term]
  rw [hterms, hterms, hnamed]

/-- Of equal strings equal parameters stay. -/
theorem namedTerms_filter (p : String → Bool) :
    namedTerms t' (parameters'.filter fun name _ => p name) =
      namedTerms t (parameters.filter fun name _ => p name) := by
  have hfilter : ∀ (t : Tree) (parameters : Table NodeId),
      namedTerms t (parameters.filter fun name _ => p name) =
        (namedTerms t parameters).filter fun entry => p entry.1 := by
    intro t parameters
    rw [namedTerms, namedTerms, List.filter_map]
    rfl
  rw [hfilter, hfilter, hnamed]

/-- Equal strings are replaced by equal strings. -/
theorem reinlined?_rel (format : String) :
    Option.Rel (fun e e' => ∃ newFormat left left', e = .sub newFormat left ∧
        e' = .sub newFormat left' ∧ namedTerms t' left' = namedTerms t left)
    (reinlined? format parameters (inlinable t parameters))
    (reinlined? format parameters' (inlinable t' parameters')) := by
  have hkeys := keys_of_namedTerms hnamed
  have hattribute := hasLocalAttribute_congr format hkeys
  unfold reinlined? reinlineWith
  rw [inlinable_eq hnamed, settled_congr hkeys, hattribute]
  split
  · exact .none
  split
  · exact .none
  cases replacePlaceholders (fun name =>
      ((settled parameters (inlinable t parameters)).lookup name).map placeholderText) format with
  | error malformed => exact .none
  | ok newFormat => exact .some ⟨newFormat, _, _, rfl, rfl, namedTerms_filter hnamed _⟩

end Strings

theorem isSome_of_reinlines {y? : Option NodeId} (h : Reinlines t g x y?)
    (he : t.expr? x = some e) : y?.isSome ↔ Reinlinable t e := by
  cases y? with
  | none => exact iff_of_false (by simp) (h e he)
  | some y =>
    obtain ⟨-, e', he', hstring, -⟩ := h
    obtain rfl := Option.some.inj (he.symm.trans he')
    exact iff_of_true rfl hstring

/-- A string that is replaced, and one with the same term. -/
theorem reinlined_of_term_eq (hwf : t.WellFormed) (hwf' : t'.WellFormed) (hx : x ∈ t.exprs)
    (hx' : x' ∈ t'.exprs) (hterm : t'.term x' = t.term x) (he : t.expr? x = some e)
    (he' : t'.expr? x' = some e') (h : Reinlinable t e) :
    Reinlinable t' e' ∧ ∃ newFormat left left', inlined t e = .sub newFormat left ∧
      inlined t' e' = .sub newFormat left' ∧ namedTerms t' left' = namedTerms t left := by
  obtain ⟨format, parameters, rfl, hsome⟩ := h
  obtain ⟨parameters', hsub, hnamed⟩ := sub_of_term_eq hwf hwf' hx hx' hterm he
  obtain rfl := Option.some.inj (hsub.symm.trans he')
  have hrel := reinlined?_rel hnamed format
  rw [Reinlinable, inlined, inlined]
  obtain ⟨e, he⟩ := Option.isSome_iff_exists.mp hsome
  cases he' : reinlined? format parameters' (inlinable t' parameters') with
  | none =>
    rw [he, he'] at hrel
    cases hrel
  | some e' =>
    rw [he, he'] at hrel
    obtain ⟨hrel⟩ := hrel
    rw [he, Option.getD_some, Option.getD_some]
    exact ⟨⟨format, parameters', rfl, Option.isSome_of_eq_some he'⟩, hrel⟩

/-- Turning parameters back stages for expressions with the same term what matches. -/
theorem reinline_agree (hwf : t.WellFormed) (hwf' : t'.WellFormed)
    (hanswers : ∀ x ∈ t.exprs, Reinlines t g x (staged.lookup x))
    (hanswers' : ∀ x ∈ t'.exprs, Reinlines t' g' x (staged'.lookup x)) :
    Agree t g t' g' staged staged' := by
  intro x hx x' hx' hterm
  obtain ⟨e, he⟩ := Option.isSome_iff_exists.mp (hwf.mem_exprs.mp hx).2
  obtain ⟨e', he'⟩ := Option.isSome_iff_exists.mp (hwf'.mem_exprs.mp hx').2
  have hanswer := hanswers x hx
  have hanswer' := hanswers' x' hx'
  -- Whether a string is replaced, and by what, is said by its term.
  refine rel_of_isSome ?_ fun y hy y' hy' => ?_
  · rw [isSome_of_reinlines hanswer he, isSome_of_reinlines hanswer' he']
    exact ⟨fun h => (reinlined_of_term_eq hwf hwf' hx hx' hterm he he' h).1,
      fun h => (reinlined_of_term_eq hwf' hwf hx' hx hterm.symm he' he h).1⟩
  · rw [hy] at hanswer
    rw [hy'] at hanswer'
    obtain ⟨hle, e₁, he₁, hstring, hexpr_y⟩ := hanswer
    obtain ⟨hle', e₁', he₁', -, hexpr_y'⟩ := hanswer'
    obtain rfl := Option.some.inj (he.symm.trans he₁)
    obtain rfl := Option.some.inj (he'.symm.trans he₁')
    obtain ⟨newFormat, left, left', hinlined, hinlined', hnamed⟩ :=
      (reinlined_of_term_eq hwf hwf' hx hx' hterm he he' hstring).2
    obtain ⟨hlength, hzip⟩ := zip_of_map_eq (values_of_namedTerms hnamed)
    have hsublist := children_inlined t e
    have hsublist' := children_inlined t' e'
    rw [hinlined, ← children_of_expr? he] at hsublist
    rw [hinlined', ← children_of_expr? he'] at hsublist'
    refine .new hle hle' (hexpr_y.trans (congrArg some hinlined))
      (hexpr_y'.trans (congrArg some hinlined')) ?_ hlength fun pair hpair => ?_
    · rw [Expr.head, Expr.head, keys_of_namedTerms hnamed]
    · obtain ⟨hc, hc'⟩ := List.of_mem_zip hpair
      replace hc := hsublist.mem hc
      replace hc' := hsublist'.mem hc'
      exact .old (hwf.mem_exprs_of_child hx hc) (hwf'.mem_exprs_of_child hx' hc')
        (hzip pair hpair)

end Order

end StackTemplate
