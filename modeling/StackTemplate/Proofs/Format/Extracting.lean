import Mathlib.Data.List.Nodup
import Mathlib.Data.List.Perm.Subperm
import StackTemplate.Format.Extraction
import StackTemplate.Proofs.Fold.Spelling
import StackTemplate.Proofs.Text.Basic

/-!
# What an extraction finds

The fresh parameters of a string are numbered upwards, past the names that are taken, so no two are
the same and none is a parameter that the string had (`Extracts`). A format with its placeholders
under other names is cut into the same segments (`segmentsFrom_rename`). Fresh names have no dots:
an attribute that was asked of a parameter is still asked of that parameter, and not of a fresh
one.
-/

namespace StackTemplate.Format

variable {format : String} {ss : List Segment} {cs rest : List Char} {offset : Nat}
  {target? : String → Option String} {parameters : Table NodeId} {name : String}

/-! ### Segments under other names -/

/-- A segment without its place. -/
def Segment.content (s : Segment) : SegmentKind × String := (s.kind, s.raw)

theorem Segment.rename_of_none {s : Segment} (h : s.placeholder? = none) :
    s.rename target? = s := by
  rw [rename, h]
  rfl

theorem segmentsFrom_placeholder (hname : Nameable name) (offset : Nat) (rest : List Char) :
    segmentsFrom offset ((placeholderText name).toList ++ rest) =
      (segmentsFrom (offset + 3 + Text.byteSize name.toList) rest).map
        (⟨.placeholder name, offset, placeholderText name⟩ :: ·) := by
  obtain ⟨hne, hall⟩ := hname
  have hclose : '\x7d' ∉ name.toList := not_mem_of_all_isNameChar hall (by decide)
  have hmark : '!' ∉ name.toList := not_mem_of_all_isNameChar hall (by decide)
  obtain ⟨c, tail, hcons⟩ := List.exists_cons_of_ne_nil hne
  have htext : (placeholderText name).toList ++ rest =
      '$' :: '\x7b' :: (c :: tail ++ '\x7d' :: rest) := by
    simp [placeholderText, hcons]
  have hback : String.ofList (c :: tail) = name := by
    rw [← hcons, String.ofList_toList]
  rw [hcons] at hclose hmark hall
  have hcut := cutAtBrace?_append hclose rest
  rw [htext, segmentsFrom]
  · split
    · next hnone =>
      rw [hcut] at hnone
      cases hnone
    · next hnone =>
      rw [hcut] at hnone
      cases hnone
    · next hsome =>
      rw [hcut] at hsome
      obtain ⟨heq, rfl⟩ := Prod.mk.inj (Option.some.inj hsome)
      obtain ⟨rfl, rfl⟩ := List.cons.inj heq
      simp only [if_pos hall, hback, hcons]
  · rintro rest' heq
    exact hmark (List.mem_cons.mpr (.inl (List.cons.inj heq).1.symm))

theorem segmentsFrom_dollar (h : rest.head? ≠ some '\x7b') (offset : Nat) :
    segmentsFrom offset ('$' :: rest) =
      (segmentsFrom (offset + 1) rest).map (⟨.text, offset, "$"⟩ :: ·) := by
  rw [segmentsFrom]
  · rintro rest' rfl
    exact h rfl
  · rintro rest' rfl
    exact h rfl

theorem segmentsFrom_text {run : List Char} (hne : run ≠ []) (hrun : '$' ∉ run)
    (hrest : ∀ c ∈ rest.head?, c = '$') (offset : Nat) :
    segmentsFrom offset (run ++ rest) = (segmentsFrom (offset + Text.byteSize run) rest).map
      (⟨.text, offset, String.ofList run⟩ :: ·) := by
  obtain ⟨c, tail, rfl⟩ := List.exists_cons_of_ne_nil hne
  obtain ⟨hc, htail⟩ := not_or.mp (mt List.mem_cons.mpr hrun)
  have hplain : ∀ d ∈ tail, (d != '$') = true := fun d hd =>
    bne_iff_ne.mpr fun heq => htail (heq ▸ hd)
  have hstop : rest.takeWhile (· != '$') = [] ∧ rest.dropWhile (· != '$') = rest := by
    cases rest with
    | nil => exact ⟨rfl, rfl⟩
    | cons d rest =>
      obtain rfl := hrest d rfl
      exact ⟨rfl, rfl⟩
  rw [List.cons_append, segmentsFrom]
  · rw [List.takeWhile_append_of_pos hplain, List.dropWhile_append_of_pos hplain, hstop.1, hstop.2,
      List.append_nil]
  · exact fun _ heq => absurd heq.symm hc
  · exact fun _ heq => absurd heq.symm hc
  · exact fun heq => hc heq.symm

/-- A placeholder begins with the same sign under any name. -/
theorem head?_rename (ss : List Segment) (hwritten : ∀ s ∈ ss, s.Written) :
    ((ss.map (Segment.rename target?)).flatMap (·.raw.toList)).head? =
      (ss.flatMap (·.raw.toList)).head? := by
  induction ss with
  | nil => rfl
  | cons s ss ih =>
    obtain ⟨hs, hss⟩ := List.forall_mem_cons.mp hwritten
    have hhead : (s.rename target?).raw.toList.head? = s.raw.toList.head? := by
      rw [Segment.raw_rename]
      cases hs with
      | placeholder offset name =>
        cases htarget : target? name with
        | none => simp [Segment.placeholder?, htarget]
        | some target => simp [Segment.placeholder?, htarget, placeholderText]
      | _ => rfl
    rw [List.map_cons, List.flatMap_cons, List.flatMap_cons, List.head?_append, List.head?_append,
      hhead, ih hss]

/-- A format with its placeholders under other names is cut into the same segments. -/
theorem segmentsFrom_rename (hvalid : ∀ name target, target? name = some target → Nameable target)
    (h : segmentsFrom offset cs = .ok ss) (offset' : Nat) :
    ∃ ss', segmentsFrom offset' ((ss.map (Segment.rename target?)).flatMap (·.raw.toList)) =
      .ok ss' ∧ ss'.map Segment.content = ss.map fun s => (s.rename target?).content := by
  fun_induction segmentsFrom offset cs generalizing ss offset' with
  | case1 offset =>
    obtain rfl := Except.ok.inj h
    exact ⟨[], by simp [segmentsFrom], rfl⟩
  | case2 offset rest ih =>
    obtain ⟨tail, htail, rfl⟩ := exists_of_map_cons h
    obtain ⟨ss', hss', hcontent⟩ := ih htail (offset' + 3)
    refine ⟨⟨.escaped, offset', "$\x7b!"⟩ :: ss', ?_, ?_⟩
    · have hraw : "$\x7b!".toList = ['$', '\x7b', '!'] := by decide
      rw [List.map_cons, List.flatMap_cons, Segment.rename_of_none rfl, hraw, List.cons_append,
        List.cons_append, List.singleton_append, segmentsFrom, hss']
      rfl
    · rw [List.map_cons, List.map_cons, hcontent, Segment.rename_of_none rfl]
      rfl
  | case3 | case4 | case6 => cases h
  | case5 offset c name after name' hname segment hmark hcut =>
    rename_i ih
    obtain ⟨tail, htail, rfl⟩ := exists_of_map_cons h
    -- The placeholder keeps its name or takes the other one; both can stand in braces.
    obtain ⟨other, hother, hrename⟩ : ∃ other, Nameable other ∧ segment.rename target? =
        ⟨.placeholder other, offset, placeholderText other⟩ := by
      cases htarget : target? (String.ofList name') with
      | none =>
        refine ⟨String.ofList name', ?_, ?_⟩
        · rw [Nameable, String.toList_ofList]
          exact ⟨List.cons_ne_nil c name, hname⟩
        · simp [Segment.rename, Segment.placeholder?, segment, htarget]
      | some target =>
        exact ⟨target, hvalid _ target htarget, by
          simp [Segment.rename, Segment.placeholder?, segment, htarget]⟩
    obtain ⟨ss', hss', hcontent⟩ := ih htail (offset' + 3 + Text.byteSize other.toList)
    refine ⟨⟨.placeholder other, offset', placeholderText other⟩ :: ss', ?_, ?_⟩
    · rw [List.map_cons, List.flatMap_cons, hrename, segmentsFrom_placeholder hother, hss']
      rfl
    · rw [List.map_cons, List.map_cons, hcontent, hrename]
      rfl
  | case7 offset rest hmark hbrace ih =>
    obtain ⟨tail, htail, rfl⟩ := exists_of_map_cons h
    obtain ⟨ss', hss', hcontent⟩ := ih htail (offset' + 1)
    obtain ⟨hwritten, hraw⟩ := segmentsFrom_written htail
    refine ⟨⟨.text, offset', "$"⟩ :: ss', ?_, ?_⟩
    · have hdollar : "$".toList = ['$'] := by decide
      rw [List.map_cons, List.flatMap_cons, Segment.rename_of_none rfl, hdollar,
        List.singleton_append, segmentsFrom_dollar, hss']
      · rfl
      · -- No brace comes to stand behind the dollar sign, since the rest begins as it did.
        rw [head?_rename tail hwritten, hraw]
        exact head?_ne_some hbrace
    · rw [List.map_cons, List.map_cons, hcontent, Segment.rename_of_none rfl]
      rfl
  | case8 offset c rest hmark hbrace hdollar run hle =>
    rename_i ih
    obtain ⟨tail, htail, rfl⟩ := exists_of_map_cons h
    obtain ⟨ss', hss', hcontent⟩ := ih htail (offset' + Text.byteSize run)
    obtain ⟨hwritten, hraw⟩ := segmentsFrom_written htail
    have hstop : ∀ d ∈ ((tail.map (Segment.rename target?)).flatMap (·.raw.toList)).head?,
        d = '$' := by
      rw [head?_rename tail hwritten, hraw]
      exact fun d hd => eq_dollar_of_head?_dropWhile hd
    refine ⟨⟨.text, offset', String.ofList run⟩ :: ss', ?_, ?_⟩
    · rw [List.map_cons, List.flatMap_cons, Segment.rename_of_none rfl, String.toList_ofList,
        segmentsFrom_text (List.cons_ne_nil c _) (dollar_not_mem_run hdollar rest) hstop, hss']
      rfl
    · rw [List.map_cons, List.map_cons, hcontent, Segment.rename_of_none rfl]
      rfl

/-- Placeholders under other names are still the placeholders of the format. -/
theorem segments_replacePlaceholders
    (hvalid : ∀ name target, target? name = some target → Nameable target)
    (h : segments format = .ok ss) :
    ∃ newFormat ss',
      replacePlaceholders (fun name => (target? name).map placeholderText) format =
        .ok newFormat ∧
      segments newFormat = .ok ss' ∧
      ss'.map Segment.content = ss.map fun s => (s.rename target?).content := by
  obtain ⟨ss', hss', hcontent⟩ := segmentsFrom_rename hvalid h 0
  refine ⟨_, ss', by rw [replacePlaceholders, h]; rfl, ?_, hcontent⟩
  rw [segments, String.toList_join, List.flatMap_map, ← hss', List.flatMap_map]
  simp only [Segment.raw_rename]

/-! ### Fresh parameters -/

/-- A fresh parameter is written with a letter and digits. -/
theorem toList_numberedParameter (n : Nat) :
    (numberedParameter n).toList = 'P' :: Nat.toDigits 10 n := by
  have heq : numberedParameter n = "P" ++ n.repr := rfl
  rw [heq, String.toList_append, Nat.toList_repr]
  rfl

theorem isDigit_of_mem {n : Nat} {c : Char} (h : c ∈ Nat.toDigits 10 n) : c.isDigit :=
  Nat.isDigit_of_mem_toDigits (by decide) (by decide) h

theorem numberedParameter_injective : Function.Injective numberedParameter := by
  intro m n h
  have hdigits := congrArg String.toList h
  rw [toList_numberedParameter, toList_numberedParameter] at hdigits
  have hread := congrArg (Nat.ofDigitChars 10 · 0) (List.cons.inj hdigits).2
  simpa [Nat.ofDigitChars_toDigits] using hread

theorem nameable_numberedParameter (n : Nat) : Nameable (numberedParameter n) := by
  rw [Nameable, toList_numberedParameter]
  refine ⟨List.cons_ne_nil _ _, List.all_eq_true.mpr fun c hc => ?_⟩
  rcases List.mem_cons.mp hc with rfl | hc
  · decide
  · simp [isNameChar, Char.isAlphanum, isDigit_of_mem hc]

theorem dot_not_mem_numberedParameter (n : Nat) : '.' ∉ (numberedParameter n).toList := by
  rw [toList_numberedParameter, List.mem_cons, not_or]
  exact ⟨by decide, fun hmem => absurd (isDigit_of_mem hmem) (by decide)⟩

/-- The search passes over taken numbers only, and ends at one that is not taken or after all its
tries. -/
theorem nextFree_spec (taken : List String) (tries n : Nat) :
    n < nextFree taken tries n ∧
      (∀ m, n < m → m < nextFree taken tries n → numberedParameter m ∈ taken) ∧
      (numberedParameter (nextFree taken tries n) ∉ taken ∨
        nextFree taken tries n = n + tries + 1) := by
  induction tries generalizing n with
  | zero =>
    refine ⟨Nat.lt_succ_self n, fun m hm hlt => ?_, .inr rfl⟩
    exact absurd hm (Nat.not_lt.mpr (Nat.le_of_lt_succ hlt))
  | succ tries ih =>
    rw [nextFree]
    split
    · next htaken =>
      obtain ⟨hlt, hpassed, hend⟩ := ih (n + 1)
      refine ⟨Nat.lt_of_succ_lt hlt, fun m hm hm' => ?_, hend.imp_right fun h => by omega⟩
      rcases Nat.eq_or_lt_of_le hm with rfl | hm
      · exact List.contains_iff_mem.mp htaken
      · exact hpassed m hm hm'
    · next hfree =>
      refine ⟨Nat.lt_succ_self n, fun m hm hlt => ?_, .inl ?_⟩
      · exact absurd hm (Nat.not_lt.mpr (Nat.le_of_lt_succ hlt))
      · rwa [List.contains_iff_mem] at hfree

/-- With as many tries as there are names, a free number is found: that many names cannot take one
number more. -/
theorem nextFree_not_mem {taken : List String} {tries : Nat} (h : taken.length ≤ tries) (n : Nat) :
    numberedParameter (nextFree taken tries n) ∉ taken := by
  obtain ⟨-, hpassed, hend⟩ := nextFree_spec taken tries n
  refine hend.elim id fun hlast hmem => ?_
  have hsub : (List.range' (n + 1) (tries + 1)).map numberedParameter ⊆ taken := by
    intro name hname
    obtain ⟨m, hm, rfl⟩ := List.mem_map.mp hname
    obtain ⟨hle, hlt⟩ := List.mem_range'_1.mp hm
    rcases Nat.lt_or_ge m (nextFree taken tries n) with hbefore | hafter
    · exact hpassed m hle hbefore
    · rwa [show nextFree taken tries n = m by omega] at hmem
  have hnodup : ((List.range' (n + 1) (tries + 1)).map numberedParameter).Nodup :=
    List.Nodup.map numberedParameter_injective List.nodup_range'
  have hlength := (List.subperm_of_subset hnodup hsub).length_le
  rw [List.length_map, List.length_range'] at hlength
  omega

/-! ### Extractions -/

/-- The placeholder asks for no local parameter, and for no attribute of one. -/
def Foreign (parameters : Table NodeId) (name : String) : Prop :=
  name ∉ parameters.keys ∧ localOwner? parameters name = none

/-- What an extraction has found among the placeholders that it has seen: those that are foreign,
with parameters of their own. -/
structure Extracts (parameters : Table NodeId) (seen : List String) (s : Extracting) : Prop where
  foreign : ∀ e ∈ s.found, e.name ∈ seen ∧ Foreign parameters e.name
  complete : ∀ name ∈ seen, Foreign parameters name → ∃ e ∈ s.found, e.name = name
  numbered : ∀ e ∈ s.found, ∃ n ≤ s.last, e.parameter = numberedParameter n
  fresh : ∀ e ∈ s.found, e.parameter ∉ parameters.keys
  nodup : (s.found.map (·.parameter)).Nodup

/-- A name that is not foreign, or was found before, adds nothing. -/
theorem Extracts.pass {seen : List String} {s : Extracting} (h : Extracts parameters seen s)
    {name : String} (hname : Foreign parameters name → ∃ e ∈ s.found, e.name = name)
    (misuses : List (String × Nat × Nat)) :
    Extracts parameters (seen ++ [name]) { s with misuses } where
  foreign e he := (h.foreign e he).imp_left (List.mem_append_left _)
  complete other hother hforeign := by
    rcases List.mem_append.mp hother with hother | hother
    · exact h.complete other hother hforeign
    · obtain rfl := List.mem_singleton.mp hother
      exact hname hforeign
  numbered := h.numbered
  fresh := h.fresh
  nodup := h.nodup

/-- A foreign name gets the next parameter that is free: earlier ones have smaller numbers. -/
theorem Extracts.extend {seen : List String} {s : Extracting} (h : Extracts parameters seen s)
    {name : String} (hname : Foreign parameters name) {last : Nat} (hlt : s.last < last)
    (hfresh : numberedParameter last ∉ parameters.keys) (offset length : Nat) :
    Extracts parameters (seen ++ [name])
      { s with found := s.found ++ [⟨name, numberedParameter last, offset, length⟩], last } where
  foreign := by
    refine List.forall_mem_append.mpr ⟨fun e he => ?_, List.forall_mem_singleton.mpr ⟨?_, hname⟩⟩
    · exact (h.foreign e he).imp_left (List.mem_append_left _)
    · exact List.mem_append_right _ (List.mem_singleton.mpr rfl)
  complete other hother hforeign := by
    rcases List.mem_append.mp hother with hother | hother
    · obtain ⟨e, he, heq⟩ := h.complete other hother hforeign
      exact ⟨e, List.mem_append_left _ he, heq⟩
    · obtain rfl := List.mem_singleton.mp hother
      exact ⟨_, List.mem_append_right _ (List.mem_singleton.mpr rfl), rfl⟩
  numbered := by
    refine List.forall_mem_append.mpr ⟨fun e he => ?_, List.forall_mem_singleton.mpr ?_⟩
    · obtain ⟨n, hn, heq⟩ := h.numbered e he
      exact ⟨n, Nat.le_of_lt (Nat.lt_of_le_of_lt hn hlt), heq⟩
    · exact ⟨last, Nat.le_refl _, rfl⟩
  fresh := List.forall_mem_append.mpr ⟨h.fresh, List.forall_mem_singleton.mpr hfresh⟩
  nodup := by
    rw [List.map_append, List.map_singleton, List.nodup_append]
    refine ⟨h.nodup, List.nodup_singleton _, fun parameter hparameter other hother heq => ?_⟩
    obtain ⟨e, he, rfl⟩ := List.mem_map.mp hparameter
    obtain rfl := List.mem_singleton.mp hother
    obtain ⟨n, hn, hparameter⟩ := h.numbered e he
    rw [hparameter] at heq
    have := numberedParameter_injective heq
    omega

theorem Extracts.step {seen : List String} {s : Extracting} (h : Extracts parameters seen s)
    (segment : Segment) :
    Extracts parameters (seen ++ segment.placeholder?.toList) (s.step parameters segment) := by
  unfold Extracting.step
  cases segment.placeholder? with
  | none => simpa using h
  | some name =>
    dsimp only [Option.toList_some]
    split
    · next hknown =>
      refine h.pass (fun hforeign => ?_) s.misuses
      rw [Bool.or_eq_true, List.any_eq_true, Table.contains, List.contains_iff_mem] at hknown
      obtain ⟨e, he, heq⟩ := hknown.resolve_left hforeign.1
      exact ⟨e, he, of_decide_eq_true heq⟩
    · next hnew =>
      rw [Bool.or_eq_true, not_or, Table.contains, List.contains_iff_mem] at hnew
      split
      · next owner howner =>
        refine h.pass (fun hforeign => ?_) _
        rw [hforeign.2] at howner
        cases howner
      · next howner =>
        have hsize : parameters.keys.length ≤ parameters.size := by
          rw [Table.keys, List.length_map]
          exact Nat.le_refl _
        exact h.extend ⟨hnew.1, howner⟩ (nextFree_spec parameters.keys parameters.size s.last).1
          (nextFree_not_mem hsize s.last) _ _

/-- All foreign placeholders of a format are found, and no others. -/
theorem extracting_spec (parameters : Table NodeId) (ss : List Segment) :
    Extracts parameters (ss.filterMap Segment.placeholder?) (extracting parameters ss) := by
  have hrun : ∀ (ss : List Segment) (seen : List String) (s : Extracting),
      Extracts parameters seen s →
      Extracts parameters (seen ++ ss.filterMap Segment.placeholder?)
        (ss.foldl (Extracting.step parameters) s) := by
    intro ss
    induction ss with
    | nil => simp
    | cons segment ss ih =>
      intro seen s h
      have := ih _ _ (h.step segment)
      rw [List.append_assoc] at this
      cases hsegment : segment.placeholder? with
      | none => simpa [hsegment] using this
      | some name => simpa [hsegment] using this
  exact hrun ss [] {} ⟨by simp, by simp, by simp, by simp, by simp⟩

/-! ### The string with fresh parameters -/

/-- Fresh parameters come after the ones that are there. -/
theorem entries_addParameters {found : List Extraction} (ids : List NodeId)
    (hfresh : ∀ e ∈ found, e.parameter ∉ parameters.keys)
    (hnodup : (found.map (·.parameter)).Nodup) :
    (addParameters parameters found ids).entries =
      parameters.entries ++ (found.zip ids).map fun pair => (pair.1.parameter, pair.2) := by
  induction found generalizing parameters ids with
  | nil => simp [addParameters]
  | cons e found ih =>
    cases ids with
    | nil => simp [addParameters]
    | cons id ids =>
      obtain ⟨he, hfresh⟩ := List.forall_mem_cons.mp hfresh
      obtain ⟨hother, hnodup⟩ := List.nodup_cons.mp hnodup
      have hstep : addParameters parameters (e :: found) (id :: ids) =
          addParameters (parameters.insert e.parameter id) found ids := rfl
      have hinsert := Table.entries_insert id he
      have hrest : ∀ e' ∈ found, e'.parameter ∉ (parameters.insert e.parameter id).keys := by
        intro e' he' hmem
        rw [Table.keys, hinsert, List.map_append, List.mem_append] at hmem
        rcases hmem with hmem | hmem
        · exact hfresh e' he' hmem
        · exact hother (List.mem_map.mpr ⟨e', he', List.mem_singleton.mp hmem⟩)
      rw [hstep, ih ids hrest hnodup, hinsert, List.append_assoc]
      rfl

theorem entries_addExtracted (parameters : Table NodeId) (pieces : List Segment)
    (ids : List NodeId) :
    (addParameters parameters (extracting parameters pieces).found ids).entries =
      parameters.entries ++ ((extracting parameters pieces).found.zip ids).map
        fun pair => (pair.1.parameter, pair.2) :=
  entries_addParameters ids (extracting_spec parameters pieces).fresh
    (extracting_spec parameters pieces).nodup

theorem values_addExtracted (parameters : Table NodeId) (pieces : List Segment)
    (ids : List NodeId) :
    (addParameters parameters (extracting parameters pieces).found ids).values =
      parameters.values ++ ((extracting parameters pieces).found.zip ids).map Prod.snd := by
  rw [Table.values, entries_addExtracted, List.map_append, List.map_map]
  rfl

theorem keys_addExtracted (parameters : Table NodeId) {pieces : List Segment} {ids : List NodeId}
    (hlength : ids.length = (extracting parameters pieces).found.length) :
    (addParameters parameters (extracting parameters pieces).found ids).keys =
      parameters.keys ++ (extracting parameters pieces).found.map (·.parameter) := by
  rw [Table.keys, entries_addExtracted, List.map_append, List.map_map,
    ← List.map_fst_zip (Nat.le_of_eq hlength.symm), List.map_map,
    List.map_fst_zip (Nat.le_of_eq hlength.symm)]
  rfl

/-- The fresh parameter of a name. -/
def parameterFor? (found : List Extraction) (name : String) : Option String :=
  (found.find? (·.name = name)).map (·.parameter)

theorem withParameters_eq (found : List Extraction) (format : String) :
    withParameters found format =
      replacePlaceholders (fun name => (parameterFor? found name).map placeholderText) format := by
  simp only [withParameters, parameterFor?, Option.map_map, Function.comp_def]

section Extracts

variable {seen : List String} {s : Extracting} {parameters' : Table NodeId}
  (h : Extracts parameters seen s)

include h

/-- Only foreign placeholders go under other names. -/
theorem Extracts.parameterFor?_eq_none (hname : ¬ Foreign parameters name) :
    parameterFor? s.found name = none := by
  rw [parameterFor?, Option.map_eq_none_iff, List.find?_eq_none]
  intro e he heq
  rw [decide_eq_true_eq] at heq
  exact hname (heq ▸ (h.foreign e he).2)

/-- Every foreign placeholder goes under another name. -/
theorem Extracts.exists_parameterFor? (hseen : name ∈ seen) (hname : Foreign parameters name) :
    ∃ e ∈ s.found, e.name = name ∧ parameterFor? s.found name = some e.parameter := by
  obtain ⟨e, he, heq⟩ := h.complete name hseen hname
  obtain ⟨e', he'⟩ : ∃ e', s.found.find? (·.name = name) = some e' := by
    rw [← Option.isSome_iff_exists, List.find?_isSome]
    exact ⟨e, he, decide_eq_true heq⟩
  refine ⟨e', List.mem_of_find?_eq_some he', by simpa using List.find?_some he', ?_⟩
  rw [parameterFor?, he', Option.map_some]

theorem Extracts.nameable {target : String} (htarget : parameterFor? s.found name = some target) :
    Nameable target := by
  obtain ⟨e, he, rfl⟩ := Option.map_eq_some_iff.mp htarget
  obtain ⟨n, -, hn⟩ := h.numbered e (List.mem_of_find?_eq_some he)
  rw [hn]
  exact nameable_numberedParameter n

theorem Extracts.segments_withParameters (hss : segments format = .ok ss) :
    ∃ format' ss', withParameters s.found format = .ok format' ∧ segments format' = .ok ss' ∧
      ss'.map Segment.content = ss.map fun p => (p.rename (parameterFor? s.found)).content := by
  rw [withParameters_eq]
  exact segments_replacePlaceholders (fun name target htarget => h.nameable htarget) hss

theorem Extracts.placeholders_withParameters {format' : String} (hss : segments format = .ok ss)
    (hformat : withParameters s.found format = .ok format') :
    placeholders format' = .ok ((ss.filterMap Segment.placeholder?).map fun name =>
      (parameterFor? s.found name).getD name) := by
  obtain ⟨format'', hformat', hnames⟩ := placeholders_replacePlaceholders hss
    fun name _ target (htarget : parameterFor? s.found name = some target) => h.nameable htarget
  rw [withParameters_eq, hformat'] at hformat
  rwa [← Except.ok.inj hformat]

/-- What is asked of a local parameter is not asked of a fresh one. -/
theorem Extracts.localOwner?
    (hkeys : parameters'.keys = parameters.keys ++ s.found.map (·.parameter))
    {owner : String} (howner : localOwner? parameters name = some owner) :
    Format.localOwner? parameters' name = some owner := by
  obtain ⟨hname, hmem, attributeName, hcut⟩ := localOwner?_eq_some.mp howner
  refine localOwner?_eq_some.mpr ⟨?_, ?_, attributeName, hcut⟩
  · rw [hkeys, List.mem_append, not_or]
    refine ⟨hname, fun hfresh => ?_⟩
    obtain ⟨e, he, rfl⟩ := List.mem_map.mp hfresh
    obtain ⟨n, -, hn⟩ := h.numbered e he
    refine dot_not_mem_numberedParameter n ?_
    rw [← hn, (Text.cutAtFirstDot?_eq_some.mp hcut).1]
    exact List.mem_append_right _ (List.mem_cons_self ..)
  · rw [hkeys]
    exact List.mem_append_left _ hmem

end Extracts

end StackTemplate.Format
