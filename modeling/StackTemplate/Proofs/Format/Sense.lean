import StackTemplate.Proofs.Fold.Term
import StackTemplate.Proofs.Format.Extracting
import StackTemplate.Proofs.Format.Normalizing

/-!
# What interpolated strings say

The *sense* of an expression is what it says without regard to the names of local parameters: in an
interpolated string a placeholder for a local parameter says what the parameter says, and any other
placeholder says the look-up that its name means.

An extraction replaces placeholders of the second sort by placeholders of the first
(`Becomes`, `renamed_cases`), and the string says what it said (`sense_extracted`).
-/

namespace StackTemplate

open Format

variable {t t' : Tree} {directory : Directory} {f : NodeId → NodeId} {x y : NodeId} {e : Expr}

/-! ### Sense -/

/-- What an expression says. -/
inductive Sense where
  /-- Text of a format. -/
  | text (raw : String)
  /-- An escape in a format. -/
  | escape
  /-- A placeholder that asks for an attribute of a local parameter. -/
  | misuse (name : String)
  /-- An expression over its operands. -/
  | node (head : Head) (operands : List Sense)
  /-- An interpolated string, piece by piece. -/
  | string (pieces : List Sense)

instance : Inhabited Sense := ⟨.escape⟩

/-- What a placeholder says, where `sense` is what nodes say. -/
def Format.placeholderSense (directory : Directory) (parameters : Table NodeId)
    (sense : NodeId → Sense) (name : String) : Sense :=
  match parameters.get? name with
  | some id => sense id
  | none =>
    if (localOwner? parameters name).isSome then .misuse name
    else .node (lookUp directory name).head []

/-- What a segment says, where `sense` is what nodes say. -/
def Format.Segment.sense (directory : Directory) (parameters : Table NodeId)
    (sense : NodeId → Sense) (s : Segment) : Sense :=
  match s.kind with
  | .text => .text s.raw
  | .escaped => .escape
  | .placeholder name => placeholderSense directory parameters sense name

/-- What an expression says, where `sense` is what nodes say. A string with a malformed format says
that format. -/
def Expr.sense (directory : Directory) (sense : NodeId → Sense) : Expr → Sense
  | .sub format parameters =>
    match segments format with
    | .ok ss => .string (ss.map (Segment.sense directory parameters sense))
    | .error _ => .node (.sub format parameters.keys) (parameters.values.map sense)
  | e => .node e.head (e.children.map sense)

namespace Tree

/-- What the node says, as far as `depth` levels. -/
def senseWithin (t : Tree) (directory : Directory) : (depth : Nat) → NodeId → Sense
  | 0, _ => default
  | depth + 1, id =>
    match t.expr? id with
    | some e => e.sense directory (t.senseWithin directory depth)
    | none => default

/-- What the node says. -/
def sense (t : Tree) (directory : Directory) (id : NodeId) : Sense :=
  t.senseWithin directory t.size id

end Tree

theorem Table.mem_values_of_get? {table : Table NodeId} {name : String} {id : NodeId}
    (h : table.get? name = some id) : id ∈ table.values :=
  List.mem_map.mpr ⟨(name, id), get?_eq_some.mp h, rfl⟩

/-- What a segment says depends on what placeholders say. -/
theorem Format.Segment.sense_congr {parameters parameters' : Table NodeId}
    {sense sense' : NodeId → Sense} (h : ∀ name, placeholderSense directory parameters sense name =
      placeholderSense directory parameters' sense' name) (s : Segment) :
    s.sense directory parameters sense = s.sense directory parameters' sense' := by
  unfold Segment.sense
  cases s.kind with
  | text => rfl
  | escaped => rfl
  | placeholder name => exact h name

/-- What an expression says depends on what its operands say. -/
theorem Expr.sense_congr {sense sense' : NodeId → Sense}
    (h : ∀ c ∈ e.children, sense c = sense' c) :
    e.sense directory sense = e.sense directory sense' := by
  cases e with
  | sub format parameters =>
    have hplaceholder : ∀ name, placeholderSense directory parameters sense name =
        placeholderSense directory parameters sense' name := by
      intro name
      unfold placeholderSense
      split
      · next hget => exact h _ (Table.mem_values_of_get? hget)
      · rfl
    have hoperands : parameters.values.map sense = parameters.values.map sense' :=
      List.map_congr_left h
    simp only [Expr.sense, funext (Segment.sense_congr hplaceholder), hoperands]
  | _ => exact congrArg (Sense.node _) (List.map_congr_left h)

theorem Tree.senseWithin_congr {n m : Nat} (hn : Within t.children t.size n x)
    (hm : Within t.children t.size m x) :
    t.senseWithin directory n x = t.senseWithin directory m x := by
  induction n generalizing m x with
  | zero => exact hn.elim
  | succ n ih =>
    cases m with
    | zero => exact hm.elim
    | succ m =>
      rw [senseWithin, senseWithin]
      cases he : t.expr? x with
      | none => rfl
      | some e =>
        refine Expr.sense_congr fun c hc => ?_
        rw [← children_of_expr? he] at hc
        exact ih (hn.2 c hc) (hm.2 c hc)

theorem Tree.sense_eq (hx : t.Grounded x) (he : t.expr? x = some e) :
    t.sense directory x = e.sense directory (t.sense directory) := by
  have hwithin := (within_of_grounded hx).mono (Nat.le_succ t.size)
  rw [sense, senseWithin_congr (within_of_grounded hx) hwithin, senseWithin, he]
  refine Expr.sense_congr fun c hc => ?_
  rw [← children_of_expr? he] at hc
  exact senseWithin_congr (hwithin.2 c hc) (within_of_grounded (hx.child hc))

theorem localOwner?_mapValues (f : NodeId → NodeId) (parameters : Table NodeId) (name : String) :
    localOwner? (parameters.mapValues f) name = localOwner? parameters name := by
  unfold localOwner? Table.contains
  rw [Table.keys_mapValues]

/-- Operands elsewhere that say the same leave an expression saying the same. -/
theorem Expr.sense_mapSlots (f : NodeId → NodeId) (sense : NodeId → Sense) (e : Expr) :
    (e.mapSlots f).sense directory sense = e.sense directory (sense ∘ f) := by
  cases e with
  | sub format parameters =>
    have hplaceholder : ∀ name, placeholderSense directory (parameters.mapValues f) sense name =
        placeholderSense directory parameters (sense ∘ f) name := by
      intro name
      unfold placeholderSense
      rw [Table.get?_mapValues, localOwner?_mapValues]
      cases parameters.get? name <;> rfl
    simp only [Expr.mapSlots, Expr.sense, funext (Segment.sense_congr hplaceholder),
      Table.keys_mapValues, Table.values_mapValues, List.map_map]
  | _ => simp [Expr.mapSlots, Expr.sense, Expr.head, Expr.children]

/-! ### What expressions become -/

namespace Format

open StackTemplate.Tree

/-- What has become of an expression, if `f` says where slots lead: it is where it was, or it is a
string whose placeholders were extracted. -/
inductive Becomes (t' : Tree) (directory : Directory) (f : NodeId → NodeId) (x : NodeId) :
    Expr → Prop where
  | kept {e : Expr} (stays : f x = x) (content : t'.expr? x = some (e.mapSlots f)) :
      Becomes t' directory f x e
  | extracted {format format' : String} {parameters parameters' : Table NodeId}
      {pieces : List Segment} {ids : List NodeId}
      (cut : segments format = .ok pieces)
      (renamed : withParameters (extracting parameters pieces).found format = .ok format')
      (length_eq : ids.length = (extracting parameters pieces).found.length)
      (lookUps : ∀ pair ∈ (extracting parameters pieces).found.zip ids,
        t'.expr? pair.2 = some (lookUp directory pair.1.name))
      (entries_eq : parameters'.entries = (parameters.mapValues f).entries ++
        ((extracting parameters pieces).found.zip ids).map fun pair => (pair.1.parameter, pair.2))
      (content : t'.expr? (f x) = some (.sub format' parameters'))
      (places : ∀ pair ∈ (extracting parameters pieces).found.zip ids,
        t'.span pair.2 = (t'.span x).part pair.1.offset pair.1.length) :
      Becomes t' directory f x (.sub format parameters)

/-- The second tree is the first with the placeholders of its strings extracted; `f` says where
slots lead. -/
structure Normalizes (t t' : Tree) (directory : Directory) (f : NodeId → NodeId) : Prop where
  rewired : Rewired t t' f
  reaches : ∀ x, t.Reaches t.root x → t'.Reaches t'.root (f x)
  becomes : ∀ x e, t.Reaches t.root x → t.expr? x = some e → Becomes t' directory f x e

theorem mapSlots_lookUp (directory : Directory) (name : String) :
    (lookUp directory name).mapSlots f = lookUp directory name := by
  unfold lookUp
  split <;> rfl

/-- A string that was made for another has the operands of that one, and new operands that have none
themselves. -/
theorem Extracted.exists_operands {s : Tree} (h : Extracted t directory s x y) :
    t.size ≤ y ∧ ∃ new, s.children y = t.children x ++ new ∧
      ∀ c ∈ new, t.size ≤ c ∧ s.children c = [] := by
  obtain ⟨format, parameters, pieces, format', ids, he, -, -, -, hids, hle, hy⟩ := h
  refine ⟨hle, ((extracting parameters pieces).found.zip ids).map Prod.snd, ?_, ?_⟩
  · rw [children_of_expr? hy, Expr.children, values_addExtracted, children_of_expr? he]
    rfl
  · intro c hc
    obtain ⟨pair, hpair, rfl⟩ := List.mem_map.mp hc
    obtain ⟨hnew, hlookUp, -⟩ := hids pair hpair
    rw [children_of_expr? hlookUp, children_lookUp]
    exact ⟨hnew, rfl⟩

section Staged

variable {staged : Replacements} {g : Tree} {owner : NodeId → NodeId}
  (hs : Staged t staged g owner) (hwf : t.WellFormed)
  (hextracted : ∀ x y, staged.lookup x = some y → Extracted t directory g x y)

include hs hwf hextracted

/-- A replaced string keeps its operands, so nothing falls out of reach. -/
theorem reachesAfter_follow (hx : t.Reaches t.root x) :
    g.ReachesAfter (fun id => staged.lookup id) g.root
      (g.follow (fun id => staged.lookup id) x) := by
  induction hx with
  | refl =>
    have hnone := hs.lookup_of_not_expr hwf hwf.expr?_root
    rw [follow_of_none (hs.settles hwf .refl) hnone, hs.keeps.root_eq]
    exact .refl
  | @tail p c hp hc ih =>
    refine ih.tail (mem_slotsAfter.mpr ⟨c, ?_, rfl⟩)
    cases hlookup : staged.lookup p with
    | none => rwa [follow_of_none (hs.settles hwf hp) hlookup, hs.children_old hwf hp]
    | some y =>
      obtain ⟨hle, new, hchildren, -⟩ := (hextracted p y hlookup).exists_operands
      rw [hs.follow_made hwf hlookup hle, hchildren]
      exact List.mem_append_left _ hc

theorem becomes_follow (hx : t.Reaches t.root x) (he : t.expr? x = some e) :
    Becomes (g.apply staged).2 directory (g.follow fun id => staged.lookup id) x e := by
  have hreach := reachesAfter_follow hs hwf hextracted hx
  cases hlookup : staged.lookup x with
  | none =>
    have hstays := follow_of_none (hs.settles hwf hx) hlookup
    rw [hstays] at hreach
    refine .kept hstays (hs.expr?_apply hwf hreach ?_)
    rw [expr?_congr (hs.keeps.kind_eq x (hwf.lt_size hx)), he]
  | some y =>
    obtain ⟨format, parameters, pieces, format', ids, he', hpieces, hformat, hlength, hids, hle,
      hy⟩ := hextracted x y hlookup
    obtain rfl := Option.some.inj (he.symm.trans he')
    -- Its slot now leads to the string that was made for it, and from there to the look-ups.
    have hmade := hs.follow_made hwf hlookup hle
    rw [hmade] at hreach
    have hcontent := hs.expr?_apply hwf hreach hy
    refine .extracted hpieces hformat hlength (fun pair hpair => ?_) ?_ (hmade ▸ hcontent)
      fun pair hpair => ?_
    · obtain ⟨hpair_le, hpair_expr, -⟩ := hids pair hpair
      have hmem : pair.2 ∈ g.children y := by
        rw [children_of_expr? hy, Expr.children, values_addExtracted]
        exact List.mem_append_right _ (List.mem_map_of_mem hpair)
      have hpair_reach := hreach.tail (mem_slotsAfter.mpr ⟨pair.2, hmem, rfl⟩)
      rw [hs.follow_new hwf hpair_le] at hpair_reach
      rw [hs.expr?_apply hwf hpair_reach hpair_expr, mapSlots_lookUp]
    · rw [Table.entries_mapValues, entries_addExtracted, List.map_append,
        Table.entries_mapValues, List.map_map]
      refine congrArg _ (List.map_congr_left fun pair hpair => ?_)
      exact congrArg _ (hs.follow_new hwf (hids pair hpair).1)
    · -- Nodes do not move, whatever their slots hold.
      rw [hs.span_apply hwf, hs.span_apply hwf, (hids pair hpair).2.2,
        hs.keeps.span_eq x (hwf.lt_size hx)]

theorem normalizes_follow :
    Normalizes t (g.apply staged).2 directory (g.follow fun id => staged.lookup id) where
  rewired := hs.rewired hwf
  reaches _ hx := (hs.reaches_apply hwf).mpr (reachesAfter_follow hs hwf hextracted hx)
  becomes _ _ hx he := becomes_follow hs hwf hextracted hx he

end Staged

theorem normalize_spec (hwf : t.WellFormed) (directory : Directory) :
    ∃ f, Normalizes t (normalize t directory).tree directory f := by
  obtain ⟨owner, hs, hextracted, -⟩ := extractions_staged hwf directory
  exact ⟨_, normalizes_follow hs hwf hextracted⟩

/-! ### Strings say the same -/

section Extracted

variable {parameters parameters' : Table NodeId} {pieces : List Segment} {ids : List NodeId}
  (hlength : ids.length = (extracting parameters pieces).found.length)
  (hentries : parameters'.entries = (parameters.mapValues f).entries ++
    ((extracting parameters pieces).found.zip ids).map fun pair => (pair.1.parameter, pair.2))

include hlength hentries

theorem keys_extracted : parameters'.keys =
    parameters.keys ++ (extracting parameters pieces).found.map (·.parameter) := by
  have hfirst : (((extracting parameters pieces).found.zip ids).map Prod.fst).map (·.parameter) =
      (extracting parameters pieces).found.map (·.parameter) := by
    rw [List.map_fst_zip (Nat.le_of_eq hlength.symm)]
  rw [← hfirst, List.map_map, Table.keys, hentries, List.map_append, List.map_map]
  exact congrArg (· ++ _) (Table.keys_mapValues f parameters)

omit hlength in
/-- The values are those of the parameters that were there, and the look-ups. -/
theorem values_extracted : parameters'.values =
    parameters.values.map f ++ ((extracting parameters pieces).found.zip ids).map Prod.snd := by
  rw [Table.values, hentries, List.map_append, List.map_map]
  exact congrArg (· ++ _) (Table.values_mapValues f parameters)

omit hlength in
/-- The look-ups are operands of the string. -/
theorem mem_children_extracted {format' : String} {pair : Extraction × NodeId}
    (hcontent : t'.expr? y = some (.sub format' parameters'))
    (hpair : pair ∈ (extracting parameters pieces).found.zip ids) : pair.2 ∈ t'.children y := by
  rw [children_of_expr? hcontent, Expr.children, values_extracted hentries]
  exact List.mem_append_right _ (List.mem_map_of_mem hpair)

omit hentries in
/-- Every placeholder that names an item is looked up. -/
theorem exists_pair_of_foreign {name : String}
    (hname : name ∈ pieces.filterMap Segment.placeholder?) (hforeign : Foreign parameters name) :
    ∃ pair ∈ (extracting parameters pieces).found.zip ids, pair.1.name = name ∧
      parameterFor? (extracting parameters pieces).found name = some pair.1.parameter := by
  obtain ⟨e, he, heq, hparameter⟩ :=
    (extracting_spec parameters pieces).exists_parameterFor? hname hforeign
  have hmem : e ∈ ((extracting parameters pieces).found.zip ids).map Prod.fst := by
    rwa [List.map_fst_zip (Nat.le_of_eq hlength.symm)]
  obtain ⟨pair, hpair, rfl⟩ := List.mem_map.mp hmem
  exact ⟨pair, hpair, heq, hparameter⟩

/-- A placeholder for a parameter or for an attribute of one stays as it is, and any other comes to
name the parameter that looks it up. -/
theorem renamed_cases {name : String} (hname : name ∈ pieces.filterMap Segment.placeholder?) :
    (∃ id, parameters.get? name = some id ∧
      parameterFor? (extracting parameters pieces).found name = none ∧
      parameters'.get? name = some (f id)) ∨
    (∃ owner, localOwner? parameters name = some owner ∧
      parameterFor? (extracting parameters pieces).found name = none ∧
      localOwner? parameters' name = some owner) ∨
    ∃ pair ∈ (extracting parameters pieces).found.zip ids, pair.1.name = name ∧
      Foreign parameters name ∧
      parameterFor? (extracting parameters pieces).found name = some pair.1.parameter ∧
      parameters'.get? pair.1.parameter = some pair.2 := by
  have hspec := extracting_spec parameters pieces
  cases hget : parameters.get? name with
  | some id =>
    refine .inl ⟨id, rfl, hspec.parameterFor?_eq_none fun hforeign => ?_, ?_⟩
    · rw [Table.get?_eq_none.mpr hforeign.1] at hget
      cases hget
    · rw [Table.get?_eq_some, hentries]
      refine List.mem_append_left _ (List.mem_map.mpr ⟨(name, id), ?_, rfl⟩)
      exact Table.get?_eq_some.mp hget
  | none =>
    cases howner : localOwner? parameters name with
    | some owner =>
      refine .inr (.inl ⟨owner, rfl, hspec.parameterFor?_eq_none fun hforeign => ?_, ?_⟩)
      · rw [hforeign.2] at howner
        cases howner
      · exact hspec.localOwner? (keys_extracted hlength hentries) howner
    | none =>
      have hforeign : Foreign parameters name := ⟨Table.get?_eq_none.mp hget, howner⟩
      obtain ⟨pair, hpair, rfl, hparameter⟩ := exists_pair_of_foreign hlength hname hforeign
      refine .inr (.inr ⟨pair, hpair, rfl, hforeign, hparameter, ?_⟩)
      rw [Table.get?_eq_some, hentries]
      exact List.mem_append_right _ (List.mem_map.mpr ⟨pair, hpair, rfl⟩)

/-- A placeholder says under its new name what it said under its old one. -/
theorem placeholderSense_extracted {sense sense' : NodeId → Sense} {name : String}
    (hsame : ∀ id ∈ parameters.values, sense' (f id) = sense id)
    (hlookUps : ∀ pair ∈ (extracting parameters pieces).found.zip ids,
      sense' pair.2 = .node (lookUp directory pair.1.name).head [])
    (hname : name ∈ pieces.filterMap Segment.placeholder?) :
    placeholderSense directory parameters' sense'
        ((parameterFor? (extracting parameters pieces).found name).getD name) =
      placeholderSense directory parameters sense name := by
  unfold placeholderSense
  rcases renamed_cases hlength hentries hname with ⟨id, hget, hsame', hget'⟩ |
    ⟨owner, howner, hsame', howner'⟩ | ⟨pair, hpair, rfl, hforeign, hparameter, hget'⟩
  · simp only [hsame', Option.getD_none, hget, hget']
    exact hsame id (Table.mem_values_of_get? hget)
  · have hget := Table.get?_eq_none.mpr (localOwner?_eq_some.mp howner).1
    have hget' := Table.get?_eq_none.mpr (localOwner?_eq_some.mp howner').1
    simp only [hsame', Option.getD_none, hget, hget', howner, howner']
  · have hget := Table.get?_eq_none.mpr hforeign.1
    simp only [hparameter, Option.getD_some, hget, hget', hforeign.2]
    exact hlookUps pair hpair

/-- A string says with fresh parameters what it said without them. -/
theorem sense_extracted {format format' : String} {sense sense' : NodeId → Sense}
    (hcut : segments format = .ok pieces)
    (hformat : withParameters (extracting parameters pieces).found format = .ok format')
    (hsame : ∀ id ∈ parameters.values, sense' (f id) = sense id)
    (hlookUps : ∀ pair ∈ (extracting parameters pieces).found.zip ids,
      sense' pair.2 = .node (lookUp directory pair.1.name).head []) :
    (Expr.sub format' parameters').sense directory sense' =
      (Expr.sub format parameters).sense directory sense := by
  obtain ⟨format'', pieces', hformat', hcut', hcontent⟩ :=
    (extracting_spec parameters pieces).segments_withParameters hcut
  obtain rfl := Except.ok.inj (hformat.symm.trans hformat')
  simp only [Expr.sense, hcut, hcut', Sense.string.injEq]
  -- What a segment says does not depend on its place.
  let say (c : SegmentKind × String) : Sense :=
    Segment.sense directory parameters' sense' ⟨c.1, 0, c.2⟩
  calc pieces'.map (Segment.sense directory parameters' sense')
      = (pieces'.map Segment.content).map say := by rw [List.map_map]; rfl
    _ = pieces.map (Segment.sense directory parameters sense) := by
      rw [hcontent, List.map_map]
      refine List.map_congr_left fun s hs => ?_
      show (s.rename _).sense directory parameters' sense' = _
      cases hkind : s.kind with
      | text =>
        have hnone : s.placeholder? = none := by rw [Segment.placeholder?, hkind]
        simp only [Segment.rename_of_none hnone, Segment.sense, hkind]
      | escaped =>
        have hnone : s.placeholder? = none := by rw [Segment.placeholder?, hkind]
        simp only [Segment.rename_of_none hnone, Segment.sense, hkind]
      | placeholder name =>
        have hsome : s.placeholder? = some name := by rw [Segment.placeholder?, hkind]
        have hrename : (s.rename (parameterFor? (extracting parameters pieces).found)).kind =
            .placeholder ((parameterFor? (extracting parameters pieces).found name).getD name) := by
          rw [Segment.rename, hsome, Option.bind_some]
          cases parameterFor? (extracting parameters pieces).found name with
          | none => exact hkind
          | some target => rfl
        simp only [Segment.sense, hrename, hkind]
        exact placeholderSense_extracted hlength hentries hsame hlookUps
          (List.mem_filterMap.mpr ⟨s, hs, hsome⟩)

/-- No placeholder is left that names an item. -/
theorem not_foreign_renamed {name : String} (hname : name ∈ pieces.filterMap Segment.placeholder?) :
    ¬ Foreign parameters'
      ((parameterFor? (extracting parameters pieces).found name).getD name) := by
  rintro ⟨hkeys, howner⟩
  rcases renamed_cases hlength hentries hname with ⟨id, -, hsame, hget'⟩ |
    ⟨owner, -, hsame, howner'⟩ | ⟨pair, -, -, -, hparameter, hget'⟩
  · rw [hsame, Option.getD_none] at hkeys
    rw [Table.get?_eq_none.mpr hkeys] at hget'
    cases hget'
  · rw [hsame, Option.getD_none, howner'] at howner
    cases howner
  · rw [hparameter, Option.getD_some] at hkeys
    rw [Table.get?_eq_none.mpr hkeys] at hget'
    cases hget'

end Extracted

end Format

end StackTemplate
