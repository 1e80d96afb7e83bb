import Mathlib.Data.Set.Function
import StackTemplate.Proofs.Format.Splicing

/-!
# Escaping

A text is written as a format with an exclamation mark after every dollar sign that a brace
follows, and the format is read back by leaving these marks out. Reading takes the front of a
format by competing rules, so what was written could be taken for something else: a dollar sign of
the text could meet a brace that belongs to an escape. It is not: a format says just the characters
of a text if and only if it is that text escaped (`scan_eq_chars_iff`). So texts and formats without
placeholders correspond one to one (`escape_bijective`).
-/

namespace StackTemplate.Format

variable {cs ds : List Char} {gs : List Glyph} {format text : String}

/-! ### Characters -/

/-- An escaped text says its characters. -/
theorem scan_escapeChars (ds : List Char) : scan (escapeChars ds) = some (ds.map .char) := by
  have hvalid : ∀ a ∈ textAtoms ds, a.Valid := by
    intro a ha
    have hglyphs : ∀ g ∈ a.glyphs, g ∈ ds.map Glyph.char := by
      intro g hg
      rw [← glyphs_textAtoms]
      exact List.mem_flatMap.mpr ⟨a, ha, hg⟩
    cases a with
    | char c => trivial
    | escaped => trivial
    | hole name => simp [Atom.glyphs] at hglyphs
  rw [← write_textAtoms, scan_write hvalid (clear_textAtoms ds), glyphs_textAtoms]

/-- Escapes and placeholders begin with a dollar sign, so a brace that is read first is written
first. -/
theorem head?_of_scan (h : scan cs = some gs) (hbrace : gs.head? = some (.char '\x7b')) :
    cs.head? = some '\x7b' := by
  unfold scan at h
  split at h
  · simp_all
  · -- An escape says a dollar sign first.
    obtain ⟨gs', -, rfl⟩ := Option.map_eq_some_iff.mp h
    simp at hbrace
  · split at h
    · simp at h
    · simp at h
    · split at h
      · obtain ⟨gs', -, rfl⟩ := Option.map_eq_some_iff.mp h
        simp at hbrace
      · simp at h
  · obtain ⟨gs', -, rfl⟩ := Option.map_eq_some_iff.mp h
    simpa using hbrace

theorem map_char_injective : Function.Injective (List.map Glyph.char) :=
  List.map_injective_iff.mpr fun _ _ => Glyph.char.inj

/-- What says the characters of a text is the text escaped. -/
theorem eq_escapeChars_of_scan (h : scan cs = some (ds.map .char)) : cs = escapeChars ds := by
  -- By the rules that take the front; the text is general, since each of them takes some of it.
  fun_induction scan cs generalizing ds with
  | case1 =>
    have hnil : ds = [] := by simpa using h
    rw [hnil, escapeChars]
  | case2 rest ih =>
    obtain ⟨gs, hgs, heq⟩ := Option.map_eq_some_iff.mp h
    obtain ⟨front, ds, rfl, hfront, rfl⟩ := List.append_eq_map_iff.mp heq
    obtain rfl : front = ['$', '\x7b'] := map_char_injective hfront
    show _ = escapeChars ('$' :: '\x7b' :: ds)
    rw [escapeChars, ← ih hgs]
  | case3 | case4 | case6 => simp at h
  | case5 =>
    -- A placeholder is no character.
    obtain ⟨gs, -, heq⟩ := Option.map_eq_some_iff.mp h
    cases ds <;> simp at heq
  | case7 c rest hescape hbrace ih =>
    obtain ⟨gs, hgs, heq⟩ := Option.map_eq_some_iff.mp h
    obtain ⟨d, ds, rfl, hd, rfl⟩ := List.map_eq_cons_iff.mp heq.symm
    obtain rfl : d = c := by simpa using hd
    rw [escapeChars, ← ih hgs]
    -- No brace of the text follows a dollar sign, for it would be read from a brace that does.
    rintro ds rfl rfl
    obtain ⟨rest, rfl⟩ := List.head?_eq_some_iff.mp (head?_of_scan hgs (by simp))
    exact hbrace rest rfl rfl

theorem scan_eq_chars_iff : scan cs = some (ds.map .char) ↔ cs = escapeChars ds := by
  refine ⟨eq_escapeChars_of_scan, ?_⟩
  rintro rfl
  exact scan_escapeChars ds

/-! ### Texts and formats -/

/-- The format is well formed and has no placeholder. -/
def IsPlain (format : String) : Prop :=
  ∃ ss, segments format = .ok ss ∧ ∀ s ∈ ss, s.placeholder? = none

theorem isPlain_iff : IsPlain format ↔ placeholders format = .ok [] := by
  unfold IsPlain placeholders
  cases segments format with
  | error m => simp [Except.map]
  | ok ss => simp [Except.map]

/-- A format is plain and says a text if and only if it is the text escaped. -/
theorem isPlain_and_unescape_iff :
    IsPlain format ∧ unescape format = .ok text ↔ format = escape text := by
  rw [isPlain_iff]
  constructor
  · rintro ⟨hplain, htext⟩
    have hscan := scan_toList.mpr (reading_of_unescape hplain htext)
    unfold escape
    rw [← scan_eq_chars_iff.mp hscan, String.ofList_toList]
  · rintro rfl
    have hreading : reading (fun _ => none) (escape text) = .ok (text.toList.map .char) := by
      rw [← scan_toList, escape, String.toList_ofList]
      exact scan_escapeChars text.toList
    have hplain : placeholders (escape text) = .ok [] := by
      rw [placeholders_eq, hreading]
      exact congrArg Except.ok (holes_map_char text.toList)
    refine ⟨hplain, ?_⟩
    -- It has a text, and its reading gives the characters of both.
    obtain ⟨text', htext'⟩ := exists_unescape hplain
    have hsame := (reading_of_unescape hplain htext').symm.trans hreading
    rw [htext', String.toList_injective (map_char_injective (Except.ok.inj hsame))]

/-- Escaping is one to one from the texts onto the formats without placeholders, and unescaping
goes back. -/
theorem escape_bijective :
    (∀ text, IsPlain (escape text) ∧ unescape (escape text) = .ok text) ∧
      (∀ format, IsPlain format ↔ ∃ text, unescape format = .ok text ∧ escape text = format) ∧
      Set.BijOn escape Set.univ {format | IsPlain format} := by
  have hforth : ∀ text, IsPlain (escape text) ∧ unescape (escape text) = .ok text :=
    fun text => isPlain_and_unescape_iff.mpr rfl
  have hback : ∀ format, IsPlain format ↔
      ∃ text, unescape format = .ok text ∧ escape text = format := by
    intro format
    constructor
    · intro hplain
      obtain ⟨text, htext⟩ := exists_unescape (isPlain_iff.mp hplain)
      exact ⟨text, htext, (isPlain_and_unescape_iff.mp ⟨hplain, htext⟩).symm⟩
    · rintro ⟨text, -, rfl⟩
      exact (hforth text).1
  refine ⟨hforth, hback, fun text _ => (hforth text).1, ?_, ?_⟩
  · intro text _ text' _ heq
    have hsame := (hforth text).2.symm.trans ((congrArg unescape heq).trans (hforth text').2)
    exact Except.ok.inj hsame
  · intro format hplain
    obtain ⟨text, -, heq⟩ := (hback format).mp hplain
    exact ⟨text, Set.mem_univ text, heq⟩

/-- Dollar signs and braces that stand in each other's way. -/
example : escape "$$\x7b!$\x7b$\x7b€" = "$$\x7b!!$\x7b!$\x7b!€" := by decide +kernel

end StackTemplate.Format
