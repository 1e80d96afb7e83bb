import StackTemplate.Proofs.Format.Extracting
import StackTemplate.Proofs.Resolution.Guards

/-!
# Which placeholders are extracted, and where they are found

An extraction goes through the segments of a format once. It takes up the names that mean items,
each where it occurs first (`extracting_occurs`).
-/

namespace StackTemplate.Format

variable {parameters : Table NodeId} {pieces : List Segment} {name : String}

/-- The names in the placeholders that mean items, each once, in the order in which they occur
first. -/
def itemNames (parameters : Table NodeId) (pieces : List Segment) : List String :=
  ((pieces.filterMap Segment.placeholder?).filter (meansItem parameters)).eraseDups

/-- The first placeholder for a name. -/
def firstFor? (pieces : List Segment) (name : String) : Option Segment :=
  pieces.find? fun p => p.placeholder? = some name

theorem foreign_iff : Foreign parameters name ↔ meansItem parameters name = true := by
  rw [meansItem_eq]
  simp [Foreign, Table.contains]

theorem mem_itemNames : name ∈ itemNames parameters pieces ↔
    name ∈ pieces.filterMap Segment.placeholder? ∧ Foreign parameters name := by
  unfold itemNames
  rw [List.mem_eraseDups, List.mem_filter, foreign_iff]

/-- One segment more adds its name if that means an item and is new. -/
theorem itemNames_append (parameters : Table NodeId) (pieces : List Segment) (p : Segment) :
    itemNames parameters (pieces ++ [p]) = itemNames parameters pieces ++
      p.placeholder?.toList.filter fun name =>
        meansItem parameters name && !(itemNames parameters pieces).contains name := by
  have hcontains : ∀ name, (itemNames parameters pieces).contains name =
      ((pieces.filterMap Segment.placeholder?).filter (meansItem parameters)).contains name := by
    intro name
    rw [Bool.eq_iff_iff, List.contains_iff_mem, List.contains_iff_mem, itemNames,
      List.mem_eraseDups]
  simp only [hcontains]
  unfold itemNames
  rw [List.filterMap_append, List.filter_append, List.eraseDups_append]
  refine congrArg _ ?_
  cases hname : p.placeholder? with
  | none => simp [hname, List.removeAll]
  | some name =>
    cases hitem : meansItem parameters name <;>
      cases hold : ((pieces.filterMap Segment.placeholder?).filter
        (meansItem parameters)).contains name <;>
      simp_all [List.removeAll, List.eraseDups_cons]

/-- What a segment adds to the extractions: one for its name, if that means an item and was not
taken up before. -/
theorem found_step (parameters : Table NodeId) (s : Extracting) (p : Segment) :
    (s.step parameters p).found = s.found ++
      (p.placeholder?.toList.filter fun name =>
        meansItem parameters name && !(s.found.map (·.name)).contains name).map fun name =>
          { name
            parameter := numberedParameter (nextFree parameters.keys parameters.size s.last)
            offset := p.offset
            length := p.raw.utf8ByteSize } := by
  unfold Extracting.step
  cases p.placeholder? with
  | none => simp
  | some name =>
    have hany : (s.found.map (·.name)).contains name = s.found.any (·.name = name) := by
      rw [Bool.eq_iff_iff, List.contains_iff_mem, List.mem_map, List.any_eq_true]
      simp
    rw [Option.toList_some, List.filter_singleton, hany, meansItem_eq]
    dsimp only
    cases parameters.contains name <;> cases s.found.any (·.name = name) <;>
      cases localOwner? parameters name <;> simp

/-- The extractions are for the names in the segments that mean items, each at the first segment
with the name. -/
structure Occurs (parameters : Table NodeId) (pieces : List Segment) (found : List Extraction) :
    Prop where
  names_eq : found.map (·.name) = itemNames parameters pieces
  nodup : (found.map (·.name)).Nodup
  first : ∀ e ∈ found, ∃ p, firstFor? pieces e.name = some p ∧ e.offset = p.offset ∧
    e.length = p.raw.utf8ByteSize

theorem Occurs.step {s : Extracting} (h : Occurs parameters pieces s.found) (p : Segment) :
    Occurs parameters (pieces ++ [p]) (s.step parameters p).found := by
  have hnames : (s.step parameters p).found.map (·.name) =
      itemNames parameters (pieces ++ [p]) := by
    rw [found_step, List.map_append, List.map_map, h.names_eq, itemNames_append]
    exact congrArg _ (List.map_id _)
  refine ⟨hnames, ?_, ?_⟩
  · rw [hnames, itemNames_append, ← h.names_eq, List.nodup_append]
    refine ⟨h.nodup, ?_, ?_⟩
    · have hone : p.placeholder?.toList.Nodup := by cases p.placeholder? <;> simp
      exact hone.filter _
    · rintro name hold _ hnew rfl
      simp_all
  · rw [found_step, List.forall_mem_append]
    constructor
    · intro e he
      obtain ⟨q, hq, hplace⟩ := h.first e he
      refine ⟨q, ?_, hplace⟩
      unfold firstFor? at hq ⊢
      rw [List.find?_append, hq, Option.some_or]
    · intro e he
      obtain ⟨name, hname, rfl⟩ := List.mem_map.mp he
      obtain ⟨hp, hnew⟩ := List.mem_filter.mp hname
      rw [Option.mem_toList] at hp
      rw [Bool.and_eq_true, ← foreign_iff, h.names_eq] at hnew
      -- A name that means an item and was not taken up did not occur.
      have hnone : pieces.find? (fun q => q.placeholder? = some name) = none := by
        rw [List.find?_eq_none]
        intro q hq hqname
        have hmem : name ∈ itemNames parameters pieces := by
          rw [mem_itemNames, List.mem_filterMap]
          exact ⟨⟨q, hq, of_decide_eq_true hqname⟩, hnew.1⟩
        simp [hmem] at hnew
      refine ⟨p, ?_, rfl, rfl⟩
      unfold firstFor?
      rw [List.find?_append, hnone, Option.none_or]
      simpa using hp

theorem extracting_occurs (parameters : Table NodeId) (pieces : List Segment) :
    Occurs parameters pieces (extracting parameters pieces).found := by
  induction pieces using List.reverseRecOn with
  | nil => exact ⟨rfl, List.nodup_nil, fun e he => absurd he List.not_mem_nil⟩
  | append_singleton pieces p ih =>
    unfold extracting at ih ⊢
    rw [List.foldl_append]
    exact ih.step p

theorem found_eq_nil_iff :
    (extracting parameters pieces).found = [] ↔ itemNames parameters pieces = [] := by
  rw [← (extracting_occurs parameters pieces).names_eq, List.map_eq_nil_iff]

end StackTemplate.Format
