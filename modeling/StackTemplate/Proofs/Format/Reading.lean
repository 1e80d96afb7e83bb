import Mathlib.Data.List.Basic
import Mathlib.Data.List.TakeWhile
import StackTemplate.Format.Placeholder

/-!
# What a format says

The *reading* of a format is a sequence of characters and open placeholders. Escapes read as what
they stand for, and placeholders that have a text read as that text.

`segments` takes text in runs. `scan` takes it character by character, which is how proofs follow
it, and `scan_eq` says that both read the same.
-/

namespace StackTemplate.Format

/-- A character, or a placeholder that is open. -/
inductive Glyph where
  | char (c : Char)
  | hole (name : String)
deriving DecidableEq

/-- What a segment says, where some names have texts. -/
def Segment.glyphs (text? : String → Option String) (s : Segment) : List Glyph :=
  match s.kind with
  | .text => s.raw.toList.map .char
  | .escaped => [.char '$', .char '\x7b']
  | .placeholder name =>
    match text? name with
    | some text => text.toList.map .char
    | none => [.hole name]

/-- What a format says, where some names have texts. -/
def reading (text? : String → Option String) (format : String) : Except Malformed (List Glyph) :=
  (segments format).map (·.flatMap (Segment.glyphs text?))

/-! ### The form of segments -/

/-- The segment is written the way its kind is. -/
inductive Segment.Written : Segment → Prop
  | dollar (offset : Nat) : Written ⟨.text, offset, "$"⟩
  | plain (offset : Nat) (raw : String) : '$' ∉ raw.toList → Written ⟨.text, offset, raw⟩
  | escaped (offset : Nat) : Written ⟨.escaped, offset, "$\x7b!"⟩
  | placeholder (offset : Nat) (name : String) : name.toList ≠ [] → name.toList.all isNameChar →
    Written ⟨.placeholder name, offset, placeholderText name⟩

theorem exists_of_map_cons {s : Segment} {rest : Except Malformed (List Segment)}
    {ss : List Segment} (h : rest.map (s :: ·) = .ok ss) : ∃ ss', rest = .ok ss' ∧ ss = s :: ss' := by
  cases rest with
  | error m => cases h
  | ok ss' => exact ⟨ss', rfl, (Except.ok.inj h).symm⟩

theorem dollar_not_mem_run {c : Char} (hc : c ≠ '$') (rest : List Char) :
    '$' ∉ c :: rest.takeWhile (· != '$') := by
  intro hmem
  rcases List.mem_cons.mp hmem with heq | hmem
  · exact hc heq.symm
  · simpa using List.mem_takeWhile_imp hmem

/-- A run of text ends at a dollar sign, if not at the end. -/
theorem eq_dollar_of_head?_dropWhile {rest : List Char} {d : Char}
    (h : d ∈ (rest.dropWhile (· != '$')).head?) : d = '$' := by
  have hnot := List.head?_dropWhile_not (· != '$') rest
  rw [Option.mem_def.mp h] at hnot
  simpa using hnot

/-- Segments are the format cut in pieces, and each is written the way its kind is. -/
theorem segmentsFrom_written {offset : Nat} {cs : List Char} {ss : List Segment}
    (h : segmentsFrom offset cs = .ok ss) :
    (∀ s ∈ ss, s.Written) ∧ ss.flatMap (·.raw.toList) = cs := by
  fun_induction segmentsFrom offset cs generalizing ss with
  | case1 offset =>
    obtain rfl := Except.ok.inj h
    exact ⟨fun s hs => absurd hs List.not_mem_nil, rfl⟩
  | case2 offset rest ih =>
    obtain ⟨ss', hss', rfl⟩ := exists_of_map_cons h
    obtain ⟨hwritten, hrest⟩ := ih hss'
    refine ⟨List.forall_mem_cons.mpr ⟨.escaped offset, hwritten⟩, ?_⟩
    rw [List.flatMap_cons, hrest]
    simp
  -- The openings at which the format cannot be cut.
  | case3 | case4 | case6 => cases h
  | case5 offset c name after name' hname segment hnot hcut =>
    rename_i ih
    obtain ⟨ss', hss', rfl⟩ := exists_of_map_cons h
    obtain ⟨hwritten, hrest⟩ := ih hss'
    refine ⟨List.forall_mem_cons.mpr ⟨.placeholder offset _ ?_ ?_, hwritten⟩, ?_⟩
    · rw [String.toList_ofList]
      exact List.cons_ne_nil c name
    · rw [String.toList_ofList]
      exact hname
    · rw [List.flatMap_cons, hrest]
      simp [segment, name', placeholderText]
  | case7 offset rest hescape hbrace ih =>
    obtain ⟨ss', hss', rfl⟩ := exists_of_map_cons h
    obtain ⟨hwritten, hrest⟩ := ih hss'
    refine ⟨List.forall_mem_cons.mpr ⟨.dollar offset, hwritten⟩, ?_⟩
    rw [List.flatMap_cons, hrest]
    simp
  | case8 offset c rest hescape hbrace hdollar run hle =>
    rename_i ih
    obtain ⟨ss', hss', rfl⟩ := exists_of_map_cons h
    obtain ⟨hwritten, hrest⟩ := ih hss'
    refine ⟨List.forall_mem_cons.mpr ⟨.plain offset _ ?_, hwritten⟩, ?_⟩
    · rw [String.toList_ofList]
      exact dollar_not_mem_run hdollar rest
    · rw [List.flatMap_cons, hrest, String.toList_ofList, List.cons_append,
        List.takeWhile_append_dropWhile]

/-! ### Reading character by character -/

/-- What characters say if no name has a text, or nothing if they are no format. -/
def scan (cs : List Char) : Option (List Glyph) :=
  match cs with
  | [] => some []
  | '$' :: '\x7b' :: '!' :: rest => (scan rest).map ([.char '$', .char '\x7b'] ++ ·)
  | '$' :: '\x7b' :: rest =>
    match h : cutAtBrace? rest with
    | none | some ([], _) => none
    | some (c :: name, after) =>
      if (c :: name).all isNameChar then
        have := eq_of_cutAtBrace? h
        (scan after).map (.hole (String.ofList (c :: name)) :: ·)
      else none
  | c :: rest => (scan rest).map (.char c :: ·)
termination_by cs.length
decreasing_by all_goals simp_all <;> omega

theorem scan_char {c : Char} {cs : List Char} (h : c = '$' → cs.head? ≠ some '\x7b') :
    scan (c :: cs) = (scan cs).map (.char c :: ·) := by
  rw [scan]
  · rintro rest rfl rfl
    exact h rfl rfl
  · rintro rest rfl rfl
    exact h rfl rfl

theorem scan_escape (cs : List Char) :
    scan ('$' :: '\x7b' :: '!' :: cs) = (scan cs).map ([.char '$', .char '\x7b'] ++ ·) := by
  rw [scan]

theorem scan_plain {cs : List Char} (h : '$' ∉ cs) (rest : List Char) :
    scan (cs ++ rest) = (scan rest).map (cs.map .char ++ ·) := by
  induction cs with
  | nil => simp
  | cons c cs ih =>
    obtain ⟨hc, hcs⟩ := not_or.mp (mt List.mem_cons.mpr h)
    rw [List.cons_append, scan_char fun heq => absurd heq.symm hc, ih hcs, Option.map_map]
    rfl

/-- The characters of a name are no braces, dollar signs or exclamation marks. -/
theorem not_mem_of_all_isNameChar {name : List Char} {c : Char} (h : name.all isNameChar)
    (hc : isNameChar c = false) : c ∉ name := by
  intro hmem
  have hname := List.all_eq_true.mp h c hmem
  rw [hc] at hname
  cases hname

theorem cutAtBrace?_append {name : List Char} (h : '\x7d' ∉ name) (rest : List Char) :
    cutAtBrace? (name ++ '\x7d' :: rest) = some (name, rest) := by
  induction name with
  | nil => rfl
  | cons c name ih =>
    obtain ⟨hc, hname⟩ := not_or.mp (mt List.mem_cons.mpr h)
    rw [List.cons_append, cutAtBrace?, if_neg (Ne.symm hc), ih hname]
    rfl

/-- A dollar sign and a brace that are no escape open a placeholder. -/
theorem scan_brace {cs : List Char} (h : cs.head? ≠ some '!') :
    scan ('$' :: '\x7b' :: cs) =
      match cutAtBrace? cs with
      | none | some ([], _) => none
      | some (c :: name, after) =>
        if (c :: name).all isNameChar then
          (scan after).map (.hole (String.ofList (c :: name)) :: ·)
        else none := by
  rw [scan]
  · split <;> simp_all
  · rintro rest rfl
    exact h rfl

theorem scan_hole {name : List Char} (hne : name ≠ []) (hname : name.all isNameChar)
    (rest : List Char) :
    scan ('$' :: '\x7b' :: (name ++ '\x7d' :: rest)) =
      (scan rest).map (.hole (String.ofList name) :: ·) := by
  have hclose : '\x7d' ∉ name := not_mem_of_all_isNameChar hname (by decide)
  have hmark : '!' ∉ name := not_mem_of_all_isNameChar hname (by decide)
  obtain ⟨c, name, rfl⟩ := List.exists_cons_of_ne_nil hne
  rw [scan_brace, cutAtBrace?_append hclose]
  · simp only [if_pos hname]
  · intro hhead
    exact hmark (Option.some.inj hhead ▸ List.mem_cons_self ..)

theorem exists_of_scan_brace {cs : List Char} {gs : List Glyph} (h : cs.head? ≠ some '!')
    (hscan : scan ('$' :: '\x7b' :: cs) = some gs) :
    ∃ name after gs', cs = name ++ '\x7d' :: after ∧ name.all isNameChar ∧
      scan after = some gs' ∧ gs = .hole (String.ofList name) :: gs' := by
  rw [scan_brace h] at hscan
  split at hscan
  · cases hscan
  · cases hscan
  · next c name after hcut =>
    split at hscan
    · next hname =>
      obtain ⟨gs', hgs', rfl⟩ := Option.map_eq_some_iff.mp hscan
      exact ⟨c :: name, after, gs', eq_of_cutAtBrace? hcut, hname, hgs', rfl⟩
    · cases hscan

theorem head?_ne_some {cs : List Char} {c : Char} (h : ∀ rest, cs = c :: rest → False) :
    cs.head? ≠ some c := by
  intro hhead
  obtain ⟨rest, hrest⟩ := List.head?_eq_some_iff.mp hhead
  exact h rest hrest

/-- Runs of text and single characters read the same. -/
theorem scan_eq (offset : Nat) (cs : List Char) :
    scan cs =
      (segmentsFrom offset cs).toOption.map (·.flatMap (Segment.glyphs fun _ => none)) := by
  fun_induction segmentsFrom offset cs with
  | case1 offset => simp [scan, Except.toOption]
  | case2 offset rest ih =>
    rw [scan_escape, ih]
    cases segmentsFrom (offset + 3) rest <;> rfl
  -- Neither cuts off a placeholder without an end, without a name or with a bad character.
  | case3 offset rest hmark hcut =>
    rw [scan_brace (head?_ne_some hmark), hcut]
    rfl
  | case4 offset rest hmark after hcut =>
    rw [scan_brace (head?_ne_some hmark), hcut]
    rfl
  | case5 offset c name after name' hname segment hmark hcut =>
    rename_i ih
    rw [scan_hole (List.cons_ne_nil c name) hname, ih]
    cases segmentsFrom (offset + 3 + Text.byteSize name') after <;> rfl
  | case6 offset rest hmark c name after hcut name' hname =>
    rw [scan_brace (head?_ne_some hmark), hcut]
    exact if_neg hname
  | case7 offset rest hmark hbrace ih =>
    rw [scan_char fun _ => head?_ne_some hbrace, ih]
    cases segmentsFrom (offset + 1) rest with
    | error m => rfl
    | ok ss => simp [Except.map, Except.toOption, Segment.glyphs]
  | case8 offset c rest hmark hbrace hdollar run hle =>
    rename_i ih
    have hsplit : c :: rest = run ++ rest.dropWhile (· != '$') := by
      rw [List.cons_append, List.takeWhile_append_dropWhile]
    have hplain : '$' ∉ run := dollar_not_mem_run hdollar rest
    rw [hsplit, scan_plain hplain, ih]
    cases segmentsFrom (offset + Text.byteSize run) (rest.dropWhile (· != '$')) with
    | error m => rfl
    | ok ss => simp [Except.map, Except.toOption, Segment.glyphs]

theorem scan_toList {format : String} {gs : List Glyph} :
    scan format.toList = some gs ↔ reading (fun _ => none) format = .ok gs := by
  rw [scan_eq 0, reading, segments]
  cases segmentsFrom 0 format.toList with
  | error m => simp [Except.toOption, Except.map]
  | ok ss => simp [Except.toOption, Except.map]

/-! ### Open placeholders -/

/-- The open placeholders among glyphs. -/
def holes (gs : List Glyph) : List String :=
  gs.filterMap fun
    | .hole name => some name
    | .char _ => none

theorem holes_append (gs gs' : List Glyph) : holes (gs ++ gs') = holes gs ++ holes gs' :=
  List.filterMap_append

theorem holes_map_char (cs : List Char) : holes (cs.map .char) = [] := by
  simp [holes]

variable {text? : String → Option String} {ss : List Segment}

/-- The placeholders that are open are those without a text. -/
theorem holes_glyphs (s : Segment) :
    holes (s.glyphs text?) = s.placeholder?.toList.filter fun name => (text? name).isNone := by
  unfold Segment.placeholder?
  cases hkind : s.kind with
  | text => simp [Segment.glyphs, hkind, holes_map_char]
  | escaped => simp [Segment.glyphs, hkind, holes]
  | placeholder name =>
    cases htext : text? name with
    | none => simp [Segment.glyphs, hkind, htext, holes]
    | some text => simp [Segment.glyphs, hkind, htext, holes_map_char]

theorem exists_placeholder_of_mem_holes {name : String}
    (h : name ∈ holes (ss.flatMap (Segment.glyphs text?))) :
    ∃ s ∈ ss, s.placeholder? = some name := by
  induction ss with
  | nil => cases h
  | cons s ss ih =>
    rw [List.flatMap_cons, holes_append, holes_glyphs] at h
    rcases List.mem_append.mp h with h | h
    · exact ⟨s, List.mem_cons_self .., Option.mem_toList.mp (List.mem_filter.mp h).1⟩
    · obtain ⟨s', hs', hname⟩ := ih h
      exact ⟨s', List.mem_cons_of_mem _ hs', hname⟩

theorem holes_segments (ss : List Segment) :
    holes (ss.flatMap (Segment.glyphs fun _ => none)) = ss.filterMap Segment.placeholder? := by
  induction ss with
  | nil => rfl
  | cons s ss ih =>
    rw [List.flatMap_cons, holes_append, holes_glyphs, ih, List.filterMap_cons]
    cases s.placeholder? <;> simp

theorem placeholders_eq (format : String) :
    placeholders format = (reading (fun _ => none) format).map holes := by
  unfold placeholders reading
  cases segments format with
  | error m => rfl
  | ok ss => exact congrArg Except.ok (holes_segments ss).symm

theorem exists_unescape {format : String} {names : List String}
    (h : placeholders format = .ok names) : ∃ text, unescape format = .ok text := by
  unfold placeholders at h
  unfold unescape
  cases hss : segments format with
  | error m =>
    rw [hss] at h
    cases h
  | ok ss => exact ⟨_, rfl⟩

/-- A format without placeholders says the characters of its text. -/
theorem reading_of_unescape {format text : String} (hplaceholders : placeholders format = .ok [])
    (h : unescape format = .ok text) :
    reading (fun _ => none) format = .ok (text.toList.map .char) := by
  unfold placeholders at hplaceholders
  unfold unescape at h
  unfold reading
  cases hss : segments format with
  | error m =>
    rw [hss] at h
    cases h
  | ok ss =>
    rw [hss] at h hplaceholders
    have hnone : ss.filterMap Segment.placeholder? = [] := Except.ok.inj hplaceholders
    obtain rfl := Except.ok.inj h
    refine congrArg Except.ok ?_
    rw [String.toList_join, List.flatMap_map, List.map_flatMap]
    refine List.flatMap_congr fun s hs => ?_
    have hs := List.filterMap_eq_nil_iff.mp hnone s hs
    unfold Segment.placeholder? at hs
    cases hkind : s.kind with
    | text => simp [Segment.glyphs, hkind]
    | escaped => simp [Segment.glyphs, hkind]
    | placeholder name =>
      rw [hkind] at hs
      cases hs

/-! ### Attributes of local parameters -/

/-- The owner of a local attribute is a parameter, and stands before the first dot. -/
theorem localOwner?_eq_some {parameters : Table NodeId} {name owner : String} :
    localOwner? parameters name = some owner ↔ name ∉ parameters.keys ∧ owner ∈ parameters.keys ∧
      ∃ attributeName, Text.cutAtFirstDot? name = some (owner, attributeName) := by
  unfold localOwner? Table.contains
  simp only [List.contains_iff_mem]
  split
  · next h => simp [h]
  · next h =>
    cases Text.cutAtFirstDot? name with
    | none => simp
    | some cut =>
      obtain ⟨before, after⟩ := cut
      simp only [Option.ite_none_right_eq_some, Option.some.injEq, Prod.mk.injEq]
      constructor
      · rintro ⟨hmem, rfl⟩
        exact ⟨h, hmem, after, rfl, rfl⟩
      · rintro ⟨-, hmem, attributeName, rfl, -⟩
        exact ⟨hmem, rfl⟩

end StackTemplate.Format
