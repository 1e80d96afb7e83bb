import Mathlib.Data.Set.Function
import StackTemplate.Proofs.Format.Occurrences
import StackTemplate.Proofs.Format.Referring
import StackTemplate.Proofs.Tree.Counting

/-!
# Extraction leaves nothing to extract

The *open names* of a string are the names in its placeholders that mean items. Extraction replaces
just the strings that have open names (`Exhausts`), and supplies each of these with one parameter
for each open name (`Exhausts.exists_supplied`). The strings that come of it have no open names, so
there is nothing left for a second run (`normalize_of_closed`). All replacements are made in one
walk, which meets the operands of a replaced string in the string that replaces it; so the walk
comes to every string, and counts it once if it is replaced (`slotWork_eq`).
-/

namespace StackTemplate.Format

open StackTemplate.Tree

variable {t t' : Tree} {directory : Directory} {f : NodeId → NodeId} {x y : NodeId}
  {format : String} {parameters : Table NodeId} {pieces : List Segment} {ids : List NodeId}

/-! ### Open names -/

/-- The names in the placeholders of the string at a node that mean items, each once. There are none
in a malformed format. -/
def openNames (t : Tree) (x : NodeId) : List String :=
  match t.expr? x with
  | some (.sub format parameters) =>
    match segments format with
    | .ok pieces => itemNames parameters pieces
    | .error _ => []
  | _ => []

theorem openNames_eq (he : t.expr? x = some (.sub format parameters))
    (hcut : segments format = .ok pieces) : openNames t x = itemNames parameters pieces := by
  unfold openNames
  simp only [he, hcut]

theorem itemNames_mapValues (f : NodeId → NodeId) (parameters : Table NodeId)
    (pieces : List Segment) :
    itemNames (parameters.mapValues f) pieces = itemNames parameters pieces := by
  unfold itemNames meansItem
  rw [Table.keys_mapValues]

/-- A string has something to extract just if it has open names. -/
theorem extractable_iff : Extractable t x ↔ openNames t x ≠ [] := by
  constructor
  · rintro ⟨format, parameters, pieces, format', he, hcut, hne, -⟩
    rw [openNames_eq he hcut]
    exact mt found_eq_nil_iff.mpr hne
  · intro hopen
    unfold openNames at hopen
    split at hopen
    · next format parameters he =>
      split at hopen
      · next pieces hcut =>
        obtain ⟨format', -, hformat, -⟩ :=
          (extracting_spec parameters pieces).segments_withParameters hcut
        have hne := mt found_eq_nil_iff.mp hopen
        exact ⟨format, parameters, pieces, format', he, hcut, hne, hformat⟩
      · exact absurd rfl hopen
    · exact absurd rfl hopen

/-- In a string without open names every placeholder names a parameter or asks for an attribute of
one. -/
theorem local_of_closed {names : List String} {name : String} (hclosed : openNames t x = [])
    (he : t.expr? x = some (.sub format parameters)) (hnames : placeholders format = .ok names)
    (hname : name ∈ names) : name ∈ parameters.keys ∨
      ∃ owner ∈ parameters.keys, ∃ attributeName,
        Text.cutAtFirstDot? name = some (owner, attributeName) := by
  unfold placeholders at hnames
  cases hcut : segments format with
  | error m =>
    rw [hcut] at hnames
    cases hnames
  | ok pieces =>
    rw [hcut] at hnames
    obtain rfl := Except.ok.inj hnames
    have hnot : ¬ Foreign parameters name := by
      intro hforeign
      have hmem := mem_itemNames.mpr ⟨hname, hforeign⟩
      rw [← openNames_eq he hcut, hclosed] at hmem
      exact absurd hmem List.not_mem_nil
    by_cases hkey : name ∈ parameters.keys
    · exact .inl hkey
    · have howner : localOwner? parameters name ≠ none := fun hnone => hnot ⟨hkey, hnone⟩
      obtain ⟨owner, howner⟩ := Option.ne_none_iff_exists'.mp howner
      obtain ⟨-, hmem, hattribute⟩ := localOwner?_eq_some.mp howner
      exact .inr ⟨owner, hmem, hattribute⟩

/-! ### One walk for all strings -/

section Staged

variable {staged : Replacements} {g : Tree} {owner : NodeId → NodeId}
  (hs : Staged t staged g owner) (hwf : t.WellFormed)
  (hextracted : ∀ x y, staged.lookup x = some y → Extracted t directory g x y)

include hs hwf hextracted

/-- Below a slot as many slots change as there were strings to replace. The operands of a replaced
string are among those of the one that replaces it, and its other operands are new. -/
theorem slotWork_eq (hx : t.Reaches t.root x) : g.slotWork (fun id => staged.lookup id) x =
    (t.descendants x).countP fun z => (staged.lookup z).isSome := by
  refine (hwf.grounded_of_reaches hx).induct (P := fun x => t.Reaches t.root x →
    g.slotWork (fun id => staged.lookup id) x =
      (t.descendants x).countP fun z => (staged.lookup z).isSome) ?_ hx
  intro x hgrounded ih hx
  have hbelow : totalOf (g.slotWork fun id => staged.lookup id) (t.children x) =
      ((t.children x).flatMap t.descendants).countP fun z => (staged.lookup z).isSome := by
    rw [totalOf_congr fun c hc => ih c hc (hx.tail hc), totalOf_eq_sum, List.countP_flatMap]
    rfl
  have hsettles := hs.settles hwf hx
  rw [descendants_eq hgrounded, List.countP_cons, ← hbelow]
  cases hlookup : staged.lookup x with
  | none =>
    have hstays := follow_of_none hsettles hlookup
    rw [slotWork, hstays, if_pos rfl, work_eq hsettles, hs.children_old hwf hx]
    simp
  | some y =>
    obtain ⟨hle, new, hchildren, hnew⟩ := (hextracted x y hlookup).exists_operands
    have hne : y ≠ x := (Nat.lt_of_lt_of_le (hwf.lt_size hx) hle).ne'
    have hsettles' := hsettles.replacement hlookup
    -- Nothing changes at the new operands, which hold nothing.
    have hzero : ∀ c ∈ new, g.slotWork (fun id => staged.lookup id) c = 0 := by
      intro c hc
      obtain ⟨hcle, hempty⟩ := hnew c hc
      have hmem : c ∈ g.children y := by
        rw [hchildren]
        exact List.mem_append_right _ hc
      rw [slotWork, hs.follow_new hwf hcle, if_pos rfl, work_eq (hsettles'.child hmem), hempty]
      rfl
    rw [slotWork, hs.follow_made hwf hlookup hle, if_neg hne, work_eq hsettles', hchildren,
      totalOf_eq_sum, List.map_append, List.sum_append, List.map_congr_left hzero,
      ← totalOf_eq_sum]
    simp [Nat.add_comm]

/-- The walk counts the strings that it replaces. -/
theorem count_apply :
    (g.apply staged).1 = t.exprs.countP fun x => (staged.lookup x).isSome := by
  rw [hs.count_apply hwf, ← hs.slotWork_host hwf .refl hwf.expr?_root,
    slotWork_eq hs hwf hextracted .refl, exprs, List.countP_filter, reachable]
  -- Only expressions are replaced.
  refine List.countP_congr fun z _ => ?_
  cases hlookup : staged.lookup z with
  | none => simp
  | some y =>
    have hexpr := (hwf.mem_exprs.mp (hs.key z y hlookup).1).2
    simp [hexpr]

end Staged

/-- The second tree is the first with the open names of all strings extracted; `f` says where slots
lead. -/
structure Exhausts (t t' : Tree) (directory : Directory) (f : NodeId → NodeId) : Prop
    extends Normalizes t t' directory f where
  /-- Just the strings with open names are replaced. -/
  replaces : ∀ x ∈ t.exprs, f x = x ↔ openNames t x = []
  span_eq : ∀ x, t.Reaches t.root x → t'.span x = t.span x

theorem normalize_exhausts (hwf : t.WellFormed) (directory : Directory) :
    (∃ f, Exhausts t (normalize t directory).tree directory f) ∧
      (normalize t directory).count = t.exprs.countP fun x => openNames t x ≠ [] := by
  obtain ⟨owner, hs, hextracted, hextractable⟩ := extractions_staged hwf directory
  have hstaged : ∀ x ∈ t.exprs,
      (extractions t directory).staged.lookup x = none ↔ openNames t x = [] := by
    intro x hx
    rw [← Option.not_isSome_iff_eq_none, hextractable x hx, extractable_iff, not_not]
  constructor
  · refine ⟨_,
      { toNormalizes := normalizes_follow hs hwf hextracted
        replaces := fun x hx => ?_
        span_eq := fun x hx => ?_ }⟩
    · exact (hs.follow_eq_self_iff hwf (hwf.mem_exprs.mp hx).1).trans (hstaged x hx)
    · exact (hs.span_apply hwf x).trans (hs.keeps.span_eq x (hwf.lt_size hx))
  · show ((extractions t directory).tree.apply (extractions t directory).staged).1 = _
    rw [count_apply hs hwf hextracted]
    refine List.countP_congr fun x hx => ?_
    rw [decide_eq_true_iff, hextractable x hx, extractable_iff]

/-! ### The strings afterwards -/

/-- The string at `x` has become one with a parameter more for each of its open names: `entry` gives
the parameter for a name, and what it holds. -/
structure Supplied (t t' : Tree) (directory : Directory) (f : NodeId → NodeId) (x : NodeId)
    (format : String) (parameters : Table NodeId) (pieces : List Segment)
    (entry : String → String × NodeId) : Prop where
  reaches : t'.Reaches t'.root (f x)
  /-- The open names have one parameter each, after the parameters that were there, and placeholders
  for them name these parameters. -/
  content : ∃ format' parameters', t'.expr? (f x) = some (.sub format' parameters') ∧
    parameters'.entries =
      (parameters.mapValues f).entries ++ (itemNames parameters pieces).map entry ∧
    replacePlaceholders (fun name => if name ∈ itemNames parameters pieces then
      some (placeholderText (entry name).1) else none) format = .ok format'
  fresh : ∀ name ∈ itemNames parameters pieces, (entry name).1 ∉ parameters.keys
  lookUp_eq : ∀ name ∈ itemNames parameters pieces,
    t'.expr? (entry name).2 = some (lookUp directory name)
  /-- A parameter points to where its name occurs first, if the placeholder there, counted from the
  start of the string, ends before positions do. -/
  place : ∀ name ∈ itemNames parameters pieces, ∃ p, firstFor? pieces name = some p ∧
    ((t.span x).start + p.offset + p.raw.utf8ByteSize < Span.positionLimit →
      (t'.span (entry name).2).source = (t.span x).source ∧
        (t'.span (entry name).2).start = (t.span x).start + p.offset ∧
        (t'.span (entry name).2).stop =
          (t'.span (entry name).2).start + p.raw.utf8ByteSize)

/-- A name that is not open keeps its placeholders. -/
theorem parameterFor?_of_not_mem {name : String} (hname : name ∉ itemNames parameters pieces) :
    parameterFor? (extracting parameters pieces).found name = none := by
  rw [← (extracting_occurs parameters pieces).names_eq, List.mem_map] at hname
  rw [parameterFor?, Option.map_eq_none_iff, List.find?_eq_none]
  intro e he heq
  exact hname ⟨e, he, of_decide_eq_true heq⟩

section Extracted

variable (parameters) (hlength : ids.length = (extracting parameters pieces).found.length)

include hlength

/-- The look-ups are for the open names, in order. -/
theorem names_zip : ((extracting parameters pieces).found.zip ids).map (fun pair => pair.1.name) =
    itemNames parameters pieces := by
  calc ((extracting parameters pieces).found.zip ids).map (fun pair => pair.1.name)
      = (((extracting parameters pieces).found.zip ids).map Prod.fst).map (·.name) := by
        rw [List.map_map]
        rfl
    _ = itemNames parameters pieces := by
        rw [List.map_fst_zip (Nat.le_of_eq hlength.symm)]
        exact (extracting_occurs parameters pieces).names_eq

/-- What an open name has got is a function of the name, since no two extractions are for one
name. -/
theorem exists_entry : ∃ entry : String → String × NodeId,
    ∀ pair ∈ (extracting parameters pieces).found.zip ids,
      entry pair.1.name = (pair.1.parameter, pair.2) := by
  let pairs := (extracting parameters pieces).found.zip ids
  let key (pair : Extraction × NodeId) : String := pair.1.name
  have hnodup : (pairs.map key).Nodup := by
    show (((extracting parameters pieces).found.zip ids).map fun pair => pair.1.name).Nodup
    rw [names_zip parameters hlength, ← (extracting_occurs parameters pieces).names_eq]
    exact (extracting_occurs parameters pieces).nodup
  have hinj : Set.InjOn key {pair | pair ∈ pairs} := fun a ha b hb hab =>
    List.inj_on_of_nodup_map hnodup ha hb hab
  refine ⟨fun name => ((Function.invFunOn key {pair | pair ∈ pairs} name).1.parameter,
    (Function.invFunOn key {pair | pair ∈ pairs} name).2), fun pair hpair => ?_⟩
  show ((Function.invFunOn key {pair | pair ∈ pairs} (key pair)).1.parameter, _) = _
  rw [hinj.leftInvOn_invFunOn hpair]

end Extracted

namespace Exhausts

variable (h : Exhausts t t' directory f) (hwf : t.WellFormed)

include h hwf

/-- A string that is where it was had no open names. -/
theorem itemNames_eq_nil (hx : t.Reaches t.root x) (he : t.expr? x = some (.sub format parameters))
    (hcut : segments format = .ok pieces) (hstays : f x = x) :
    itemNames parameters pieces = [] := by
  have hmem := hwf.mem_exprs.mpr ⟨hx, Option.isSome_of_eq_some he⟩
  rw [← openNames_eq he hcut]
  exact (h.replaces x hmem).mp hstays

/-- No string has open names. -/
theorem openNames_eq_nil (hy : t'.Reaches t'.root y) : openNames t' y = [] := by
  by_contra hopen
  obtain ⟨format', parameters', pieces', -, he', hcut', -⟩ := extractable_iff.mpr hopen
  rw [openNames_eq he' hcut'] at hopen
  obtain ⟨name, hname⟩ := List.exists_mem_of_ne_nil _ hopen
  obtain ⟨x, format, parameters, hx, he, rfl⟩ := h.exists_string hwf hy he'
  cases h.becomes x _ hx he with
  | kept stays content =>
    rw [stays, content] at he'
    obtain ⟨rfl, rfl⟩ := Expr.sub.inj (Option.some.inj he')
    rw [itemNames_mapValues, h.itemNames_eq_nil hwf hx he hcut' stays] at hname
    exact absurd hname List.not_mem_nil
  | extracted cut renamed length_eq lookUps entries_eq content =>
    rw [content] at he'
    obtain ⟨rfl, rfl⟩ := Expr.sub.inj (Option.some.inj he')
    have hnames := (extracting_spec parameters _).placeholders_withParameters cut renamed
    rw [placeholders, hcut'] at hnames
    have hseen := Except.ok.inj hnames
    dsimp only at hseen
    obtain ⟨hmem, hforeign⟩ := mem_itemNames.mp hname
    rw [hseen] at hmem
    obtain ⟨old, hold, rfl⟩ := List.mem_map.mp hmem
    exact not_foreign_renamed length_eq entries_eq hold hforeign

theorem exists_supplied (hx : t.Reaches t.root x) (he : t.expr? x = some (.sub format parameters))
    (hcut : segments format = .ok pieces) :
    ∃ entry, Supplied t t' directory f x format parameters pieces entry := by
  cases h.becomes x _ hx he with
  | kept stays content =>
    -- A string that stays has nothing to extract.
    have hnone := h.itemNames_eq_nil hwf hx he hcut stays
    refine ⟨fun name => (name, x),
      { reaches := h.reaches x hx
        content := ⟨format, parameters.mapValues f, stays.symm ▸ content, ?_, ?_⟩
        fresh := by simp [hnone]
        lookUp_eq := by simp [hnone]
        place := by simp [hnone] }⟩
    · rw [hnone, List.map_nil, List.append_nil]
    · simpa [hnone] using replacePlaceholders_none hcut
  | @extracted _ format' _ parameters' _ ids cut renamed length_eq lookUps entries_eq content
      places =>
    obtain rfl := Except.ok.inj (hcut.symm.trans cut)
    obtain ⟨entry, hentry⟩ := exists_entry parameters length_eq
    -- Each name to extract has its look-up at the same place in the list of new nodes.
    have hpair : ∀ name ∈ itemNames parameters pieces,
        ∃ pair ∈ (extracting parameters pieces).found.zip ids, pair.1.name = name := by
      intro name hname
      rw [← names_zip parameters length_eq] at hname
      exact List.mem_map.mp hname
    refine ⟨entry,
      { reaches := h.reaches x hx
        content := ⟨format', parameters', content, ?_, ?_⟩
        fresh := fun name hname => ?_
        lookUp_eq := fun name hname => ?_
        place := fun name hname => ?_ }⟩
    · rw [entries_eq, ← names_zip parameters length_eq, List.map_map]
      exact congrArg _ (List.map_congr_left fun pair hpair => (hentry pair hpair).symm)
    · rw [← renamed, withParameters_eq]
      refine congrArg (replacePlaceholders · format) (funext fun name => ?_)
      split
      · next hname =>
        obtain ⟨hseen, hforeign⟩ := mem_itemNames.mp hname
        obtain ⟨pair, hmem, rfl, hparameter⟩ := exists_pair_of_foreign length_eq hseen hforeign
        rw [hparameter, hentry pair hmem, Option.map_some]
      · next hname => rw [parameterFor?_of_not_mem hname, Option.map_none]
    · obtain ⟨pair, hmem, rfl⟩ := hpair name hname
      rw [hentry pair hmem]
      exact (extracting_spec parameters pieces).fresh pair.1 (List.of_mem_zip hmem).1
    · obtain ⟨pair, hmem, rfl⟩ := hpair name hname
      rw [hentry pair hmem]
      exact lookUps pair hmem
    · obtain ⟨pair, hmem, rfl⟩ := hpair name hname
      obtain ⟨p, hfirst, hoffset, hlength⟩ :=
        (extracting_occurs parameters pieces).first pair.1 (List.of_mem_zip hmem).1
      have hplace : t'.span pair.2 = (t.span x).part p.offset p.raw.utf8ByteSize := by
        rw [places pair hmem, h.span_eq x hx, hoffset, hlength]
      rw [hentry pair hmem, hplace]
      refine ⟨p, hfirst, fun hend => ?_⟩
      rw [Span.part_eq hend]
      exact ⟨rfl, rfl, rfl⟩

end Exhausts

/-! ### Nothing to extract -/

theorem step_of_closed (directory : Directory) (s : Normalizing)
    (hclosed : openNames s.tree x = []) :
    (s.step directory x).staged = s.staged ∧ (s.step directory x).tree = s.tree := by
  unfold Normalizing.step
  split
  · next format parameters he =>
    split
    · exact ⟨rfl, rfl⟩
    · next pieces hcut =>
      rw [openNames_eq he hcut, ← found_eq_nil_iff] at hclosed
      dsimp only
      rw [hclosed]
      exact ⟨rfl, rfl⟩
  · exact ⟨rfl, rfl⟩

/-- Where no string has open names, extraction does nothing. -/
theorem normalize_of_closed (directory : Directory) (hclosed : ∀ x ∈ t.exprs, openNames t x = []) :
    (normalize t directory).count = 0 ∧ (normalize t directory).tree = t := by
  have hfold : (extractions t directory).staged = [] ∧ (extractions t directory).tree = t := by
    unfold extractions
    refine List.foldlRecOn (motive := fun s : Normalizing => s.staged = [] ∧ s.tree = t)
      t.exprs _ ⟨rfl, rfl⟩ ?_
    rintro s ⟨hstaged, rfl⟩ x hx
    obtain ⟨hstaged', htree⟩ := step_of_closed directory s (hclosed x hx)
    exact ⟨hstaged'.trans hstaged, htree⟩
  show ((extractions t directory).tree.apply (extractions t directory).staged).1 = 0 ∧
    ((extractions t directory).tree.apply (extractions t directory).staged).2 = t
  rw [hfold.1, hfold.2]
  exact ⟨rfl, rfl⟩

/-! ### Completeness -/

/-- What an extraction of the placeholders of all strings comes to. -/
structure Complete (t : Tree) (directory : Directory) (after : Normalized) : Prop where
  /-- Every placeholder names a parameter of its string, or asks for an attribute of one. -/
  placeholder_local : ∀ y format parameters names, after.tree.Reaches after.tree.root y →
    after.tree.expr? y = some (.sub format parameters) → placeholders format = .ok names →
    ∀ name ∈ names, name ∈ parameters.keys ∨ ∃ owner ∈ parameters.keys, ∃ attributeName,
      Text.cutAtFirstDot? name = some (owner, attributeName)
  /-- The strings are those that were there, with one parameter more for each open name. -/
  supplied : ∃ f, Rewired t after.tree f ∧ ∀ x format parameters pieces, t.Reaches t.root x →
    t.expr? x = some (.sub format parameters) → segments format = .ok pieces →
    ∃ entry, Supplied t after.tree directory f x format parameters pieces entry
  /-- The strings with open names are counted. -/
  count_eq : after.count = t.exprs.countP fun x => openNames t x ≠ []
  /-- A second run does nothing. -/
  again : ∀ directory', (normalize after.tree directory').count = 0 ∧
    (normalize after.tree directory').tree = after.tree

/-- Extraction is complete, also where strings are parameters of strings. -/
theorem normalize_complete (hwf : t.WellFormed) (directory : Directory) :
    Complete t directory (normalize t directory) := by
  obtain ⟨⟨f, h⟩, hcount⟩ := normalize_exhausts hwf directory
  refine
    { placeholder_local := fun y format parameters names hy he hnames name hname => ?_
      supplied := ⟨f, h.rewired, fun x format parameters pieces hx he hcut => ?_⟩
      count_eq := hcount
      again := fun directory' => ?_ }
  · exact local_of_closed (h.openNames_eq_nil hwf hy) he hnames hname
  · exact h.exists_supplied hwf hx he hcut
  · apply normalize_of_closed
    intro y hy
    exact h.openNames_eq_nil hwf (h.rewired.wellFormed.mem_exprs.mp hy).1

/-- A module with a string that names an item twice, after a character of two bytes, and an
attribute of an item, an attribute of a local parameter, and the parameter. The parameter has the
name of a fresh one, and holds a string that names an item. -/
def layered : Tree where
  nodes := #[
    { kind := .expr (.sub "${Stage}" .empty), span := ⟨0, 60, 70, by decide⟩, parent := some 1 },
    { kind := .expr (.sub "é${Db}-${P1.Arn}-${Db}-${Db.Arn}-${P1}" (.ofList [("P1", 0)])),
      span := ⟨0, 10, 52, by decide⟩, parent := some 2 },
    { kind := .decl { localName := "Label", kind := .var none 1 }, span := ⟨0, 4, 52, by decide⟩,
      parent := some 3 },
    { kind := .module { items := [2] }, span := ⟨0, 0, 70, by decide⟩ }]
  root := 3

theorem layered_complete : layered.WellFormed ∧ openNames layered 0 = ["Stage"] ∧
    openNames layered 1 = ["Db", "Db.Arn"] ∧
    Complete layered {} (normalize layered {}) := by
  have hwf : layered.WellFormed := by
    refine .ofAll (m := { items := [2] }) rfl rfl ?_
    decide +kernel
  refine ⟨hwf, ?_, ?_, normalize_complete hwf {}⟩
  · decide +kernel
  · decide +kernel

example : (normalize layered {}).tree.expr? 6 =
    some (.sub "é${P2}-${P1.Arn}-${P2}-${P3}-${P1}"
      (.ofList [("P1", 8), ("P2", 4), ("P3", 5)])) := by
  decide +kernel

example : (normalize layered {}).tree.span 5 = ⟨0, 34, 43, by decide⟩ := by decide +kernel

end StackTemplate.Format
