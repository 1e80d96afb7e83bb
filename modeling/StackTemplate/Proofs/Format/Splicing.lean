import Mathlib.Data.List.Chain
import StackTemplate.Proofs.Format.Reading

/-!
# Splicing texts into a format

A format into which texts go is written from *atoms*: plain characters, escapes and open
placeholders. Reading it again gives back what the atoms say, unless a dollar sign and an opening
brace that come from different places stand next to each other (`Clear`). Then the two are taken
for an escape or a placeholder, and the format says less than its atoms do.
-/

namespace StackTemplate.Format

/-- A part of a format that is written as a whole. -/
inductive Atom where
  | char (c : Char)
  | escaped
  | hole (name : String)
deriving DecidableEq

namespace Atom

/-- How an atom is written. -/
def write : Atom → List Char
  | .char c => [c]
  | .escaped => ['$', '\x7b', '!']
  | .hole name => '$' :: '\x7b' :: (name.toList ++ ['\x7d'])

/-- What an atom says. -/
def glyphs : Atom → List Glyph
  | .char c => [.char c]
  | .escaped => [.char '$', .char '\x7b']
  | .hole name => [.hole name]

/-- Placeholders have names that can be written. -/
def Valid : Atom → Prop
  | .hole name => name.toList ≠ [] ∧ name.toList.all isNameChar
  | _ => True

end Atom

/-- No plain brace follows a plain dollar sign. -/
def Clear (as : List Atom) : Prop :=
  as.IsChain fun a b => ¬ (a = .char '$' ∧ b = .char '\x7b')

theorem clear_cons {a : Atom} {as : List Atom} :
    Clear (a :: as) ↔ ¬ (a = .char '$' ∧ as.head? = some (.char '\x7b')) ∧ Clear as := by
  rw [Clear, Clear, List.isChain_cons]
  refine and_congr_left fun _ => ?_
  cases as with
  | nil => simp
  | cons b as => simp

/-! ### Reading what was written -/

variable {as : List Atom} {gs : List Glyph}

theorem head?_write : (as.flatMap Atom.write).head? = some '\x7b' ↔ as.head? = some (.char '\x7b') := by
  cases as with
  | nil => simp
  | cons a as => cases a <;> simp [Atom.write]

theorem scan_write_cons {a : Atom} (ha : a.Valid)
    (hnext : ¬ (a = .char '$' ∧ as.head? = some (.char '\x7b'))) :
    scan ((a :: as).flatMap Atom.write) =
      (scan (as.flatMap Atom.write)).map (a.glyphs ++ ·) := by
  rw [List.flatMap_cons]
  cases a with
  | char c =>
    have hbrace : c = '$' → (as.flatMap Atom.write).head? ≠ some '\x7b' := by
      rintro rfl hhead
      exact hnext ⟨rfl, head?_write.mp hhead⟩
    rw [Atom.write, List.singleton_append, scan_char hbrace]
    rfl
  | escaped =>
    rw [Atom.write, List.cons_append, List.cons_append, List.singleton_append, scan_escape]
    rfl
  | hole name =>
    rw [Atom.write, List.cons_append, List.cons_append, List.append_assoc, List.singleton_append,
      scan_hole ha.1 ha.2, String.ofList_toList]
    rfl

theorem scan_write (hvalid : ∀ a ∈ as, a.Valid) (hclear : Clear as) :
    scan (as.flatMap Atom.write) = some (as.flatMap Atom.glyphs) := by
  induction as with
  | nil => simp [scan]
  | cons a as ih =>
    obtain ⟨hnext, hclear'⟩ := clear_cons.mp hclear
    obtain ⟨ha, hrest⟩ := List.forall_mem_cons.mp hvalid
    rw [scan_write_cons ha hnext, ih hrest hclear']
    rfl

/-- Escapes and placeholders begin with a dollar sign, so characters without one are atoms. -/
theorem exists_of_write_append {cs rest : List Char} (hcs : '$' ∉ cs)
    (h : as.flatMap Atom.write = cs ++ rest) :
    ∃ as', as = cs.map .char ++ as' ∧ as'.flatMap Atom.write = rest := by
  induction cs generalizing as with
  | nil => exact ⟨as, rfl, h⟩
  | cons c cs ih =>
    obtain ⟨hc, hnot⟩ := not_or.mp (mt List.mem_cons.mpr hcs)
    cases as with
    | nil => cases h
    | cons a as =>
      cases a with
      | char d =>
        obtain ⟨rfl, htail⟩ := List.cons.inj h
        obtain ⟨as', rfl, hrest⟩ := ih hnot htail
        exact ⟨as', rfl, hrest⟩
      | escaped => exact absurd (List.cons.inj h).1 hc
      | hole name => exact absurd (List.cons.inj h).1 hc

theorem glyphs_map_char (cs : List Char) :
    (cs.map Atom.char).flatMap Atom.glyphs = cs.map .char := by
  induction cs with
  | nil => rfl
  | cons c cs ih => simp [Atom.glyphs, ih]

/-- A plain dollar sign and brace are read as an escape or as a placeholder, with some of the atoms
after them. -/
theorem exists_of_scan_junction (h : scan ('$' :: '\x7b' :: as.flatMap Atom.write) = some gs) :
    ∃ taken as' gs', as = taken ++ as' ∧ scan (as'.flatMap Atom.write) = some gs' ∧
      gs.length < 2 + (taken.flatMap Atom.glyphs).length + gs'.length := by
  by_cases hmark : (as.flatMap Atom.write).head? = some '!'
  · obtain ⟨rest, hrest⟩ := List.head?_eq_some_iff.mp hmark
    obtain ⟨as', rfl, hwrite⟩ := exists_of_write_append (show '$' ∉ ['!'] by decide) hrest
    rw [hrest, scan_escape] at h
    obtain ⟨gs', hgs', rfl⟩ := Option.map_eq_some_iff.mp h
    refine ⟨_, as', gs', rfl, hwrite ▸ hgs', ?_⟩
    rw [glyphs_map_char, List.length_map, List.length_append, List.length_singleton,
      List.length_cons, List.length_singleton]
    omega
  · obtain ⟨name, after, gs', hrest, hname, hgs', rfl⟩ := exists_of_scan_brace hmark h
    have hplain : '$' ∉ name ++ ['\x7d'] := by
      have hnot : '$' ∉ name := not_mem_of_all_isNameChar hname (by decide)
      simp [hnot]
    rw [List.append_cons] at hrest
    obtain ⟨as', rfl, hwrite⟩ := exists_of_write_append hplain hrest
    refine ⟨_, as', gs', rfl, hwrite ▸ hgs', ?_⟩
    rw [glyphs_map_char, List.length_map, List.length_append, List.length_singleton,
      List.length_cons]
    omega

/-- What was written never says more than it should, and less where a plain brace follows a plain
dollar sign. -/
theorem length_scan_write (hvalid : ∀ a ∈ as, a.Valid)
    (h : scan (as.flatMap Atom.write) = some gs) :
    gs.length ≤ (as.flatMap Atom.glyphs).length ∧
      (¬ Clear as → gs.length < (as.flatMap Atom.glyphs).length) := by
  -- A placeholder that comes in takes several atoms at once, so the induction is on their number.
  induction hn : as.length using Nat.strong_induction_on generalizing as gs with
  | _ n ih =>
  cases as with
  | nil =>
    rw [List.flatMap_nil, scan] at h
    obtain rfl := Option.some.inj h
    exact ⟨Nat.le_refl _, fun hnot => absurd .nil hnot⟩
  | cons a as =>
    obtain ⟨ha, hrest⟩ := List.forall_mem_cons.mp hvalid
    have hlt : as.length < n := by
      rw [← hn, List.length_cons]
      omega
    by_cases hnext : a = .char '$' ∧ as.head? = some (.char '\x7b')
    · obtain ⟨rfl, hhead⟩ := hnext
      obtain ⟨as, rfl⟩ := List.head?_eq_some_iff.mp hhead
      obtain ⟨taken, as', gs', rfl, hgs', hlength⟩ := exists_of_scan_junction h
      have hvalid' : ∀ a ∈ as', a.Valid := fun a ha =>
        hrest a (List.mem_cons_of_mem _ (List.mem_append_right _ ha))
      have hlt' : as'.length < n := by
        simp only [List.length_cons, List.length_append] at hlt
        omega
      have hle := (ih as'.length hlt' hvalid' hgs' rfl).1
      have hshorter : gs.length <
          ((.char '$' :: .char '\x7b' :: (taken ++ as') : List Atom).flatMap Atom.glyphs).length := by
        simp only [List.flatMap_cons, List.flatMap_append, Atom.glyphs, List.length_append,
          List.length_singleton]
        omega
      exact ⟨Nat.le_of_lt hshorter, fun _ => hshorter⟩
    · rw [scan_write_cons ha hnext] at h
      obtain ⟨gs', hgs', rfl⟩ := Option.map_eq_some_iff.mp h
      obtain ⟨hle, hstrict⟩ := ih as.length hlt hrest hgs' rfl
      rw [List.flatMap_cons, List.length_append, List.length_append]
      refine ⟨by omega, fun hnot => ?_⟩
      have := hstrict fun hclear => hnot (clear_cons.mpr ⟨hnext, hclear⟩)
      omega

/-! ### The atoms of texts and segments -/

/-- The atoms that a text is written from. -/
def textAtoms : List Char → List Atom
  | '$' :: '\x7b' :: cs => .escaped :: textAtoms cs
  | c :: cs => .char c :: textAtoms cs
  | [] => []

theorem write_textAtoms (cs : List Char) : (textAtoms cs).flatMap Atom.write = escapeChars cs := by
  fun_induction textAtoms cs with
  | case1 cs ih => simp [Atom.write, escapeChars, ih]
  | case2 c cs hnot ih =>
    rw [List.flatMap_cons, ih, escapeChars]
    · rfl
    · exact hnot
  | case3 => rfl

theorem glyphs_textAtoms (cs : List Char) :
    (textAtoms cs).flatMap Atom.glyphs = cs.map .char := by
  fun_induction textAtoms cs with
  | case1 cs ih => simp [Atom.glyphs, ih]
  | case2 c cs hnot ih => simp [Atom.glyphs, ih]
  | case3 => rfl

theorem head?_glyphs :
    (as.flatMap Atom.glyphs).head? = some (.char '\x7b') ↔ as.head? = some (.char '\x7b') := by
  cases as with
  | nil => simp
  | cons a as => cases a <;> simp [Atom.glyphs]

theorem getLast?_glyphs :
    (as.flatMap Atom.glyphs).getLast? = some (.char '$') ↔ as.getLast? = some (.char '$') := by
  induction as using List.reverseRecOn with
  | nil => simp
  | append_singleton as a => cases a <;> simp [Atom.glyphs]

theorem clear_textAtoms (cs : List Char) : Clear (textAtoms cs) := by
  fun_induction textAtoms cs with
  | case1 cs ih => exact clear_cons.mpr ⟨by simp, ih⟩
  | case2 c cs hnot ih =>
    refine clear_cons.mpr ⟨fun ⟨hc, hhead⟩ => ?_, ih⟩
    rw [← head?_glyphs, glyphs_textAtoms] at hhead
    cases cs with
    | nil => cases hhead
    | cons d cs =>
      obtain rfl : d = '\x7b' := by simpa using hhead
      exact hnot cs (Atom.char.inj hc) rfl
  | case3 => exact .nil

/-- The atoms that a segment is written from, where some names have texts. -/
def Segment.atoms (text? : String → Option String) (s : Segment) : List Atom :=
  match s.kind with
  | .text => s.raw.toList.map .char
  | .escaped => [.escaped]
  | .placeholder name =>
    match text? name with
    | some text => textAtoms text.toList
    | none => [.hole name]

variable {text? : String → Option String} {s : Segment} {ss : List Segment}

theorem write_map_char (cs : List Char) : (cs.map Atom.char).flatMap Atom.write = cs := by
  induction cs with
  | nil => rfl
  | cons c cs ih => simp [Atom.write, ih]

theorem clear_map_char {cs : List Char} (h : '$' ∉ cs) : Clear (cs.map Atom.char) := by
  induction cs with
  | nil => exact .nil
  | cons c cs ih =>
    obtain ⟨hc, hcs⟩ := not_or.mp (mt List.mem_cons.mpr h)
    refine clear_cons.mpr ⟨fun hnext => hc ?_, ih hcs⟩
    exact (Atom.char.inj hnext.1).symm

namespace Segment

/-- A placeholder is written from the atoms of its text, or from itself. -/
theorem atoms_placeholder (offset : Nat) (name raw : String) :
    (Segment.mk (.placeholder name) offset raw).atoms text? =
      ((text? name).map fun text => textAtoms text.toList).getD [.hole name] := by
  show (match text? name with
    | some text => textAtoms text.toList
    | none => [.hole name]) = _
  cases text? name <;> rfl

theorem glyphs_atoms (h : s.Written) : (s.atoms text?).flatMap Atom.glyphs = s.glyphs text? := by
  cases h with
  | dollar offset => exact glyphs_map_char _
  | plain offset raw hraw => exact glyphs_map_char _
  | escaped offset => rfl
  | placeholder offset name hne hname =>
    rw [atoms_placeholder]
    simp only [glyphs]
    cases text? name with
    | none => rfl
    | some text => exact glyphs_textAtoms text.toList

theorem write_atoms (h : s.Written) :
    (s.atoms text?).flatMap Atom.write =
      ((s.placeholder?.bind fun name => (text? name).map escape).getD s.raw).toList := by
  cases h with
  | dollar offset => exact write_map_char _
  | plain offset raw hraw => exact write_map_char _
  | escaped offset => simp [atoms, Atom.write, placeholder?]
  | placeholder offset name hne hname =>
    rw [atoms_placeholder]
    simp only [placeholder?, Option.bind_some]
    cases text? name with
    | none => simp [Atom.write, placeholderText]
    | some text => simp [write_textAtoms, escape]

theorem valid_atoms (h : s.Written) : ∀ a ∈ s.atoms text?, a.Valid := by
  have hchars : ∀ cs : List Char, ∀ a ∈ cs.map Atom.char, a.Valid := by
    intro cs a ha
    obtain ⟨c, -, rfl⟩ := List.mem_map.mp ha
    trivial
  have htext : ∀ cs : List Char, ∀ a ∈ textAtoms cs, a.Valid := by
    intro cs
    fun_induction textAtoms cs with
    | case1 cs ih => exact List.forall_mem_cons.mpr ⟨trivial, ih⟩
    | case2 c cs hnot ih => exact List.forall_mem_cons.mpr ⟨trivial, ih⟩
    | case3 => exact fun a ha => absurd ha List.not_mem_nil
  cases h with
  | dollar offset => exact hchars _
  | plain offset raw hraw => exact hchars _
  | escaped offset => exact List.forall_mem_singleton.mpr trivial
  | placeholder offset name hne hname =>
    rw [atoms_placeholder]
    cases text? name with
    | none => exact List.forall_mem_singleton.mpr ⟨hne, hname⟩
    | some text => exact htext text.toList

theorem clear_atoms (h : s.Written) : Clear (s.atoms text?) := by
  cases h with
  | dollar offset =>
    show Clear ("$".toList.map Atom.char)
    simp [Clear]
  | plain offset raw hraw => exact clear_map_char hraw
  | escaped offset => exact .singleton _
  | placeholder offset name hne hname =>
    rw [atoms_placeholder]
    cases text? name with
    | none => exact .singleton _
    | some text => exact clear_textAtoms text.toList

end Segment

/-! ### Pieces next to each other -/

/-- No piece ends in a dollar sign where what follows begins with a brace. Empty pieces do not
count. -/
def Apart (pieces : List (List Glyph)) : Prop :=
  (pieces.filter (!·.isEmpty)).IsChain fun p q =>
    ¬ (p.getLast? = some (.char '$') ∧ q.head? = some (.char '\x7b'))

instance (pieces : List (List Glyph)) : Decidable (Apart pieces) :=
  inferInstanceAs (Decidable (List.IsChain _ _))

/-- Inside a segment nothing is misread, so it depends on what stands next to each other. -/
theorem clear_atoms_iff (h : ∀ s ∈ ss, s.Written) :
    Clear (ss.flatMap (Segment.atoms text?)) ↔ Apart (ss.map (Segment.glyphs text?)) := by
  have hpieces : ss.map (Segment.glyphs text?) =
      (ss.map (Segment.atoms text?)).map (·.flatMap Atom.glyphs) := by
    rw [List.map_map]
    exact List.map_congr_left fun s hs => (Segment.glyphs_atoms (h s hs)).symm
  have hempty : ∀ as : List Atom, (as.flatMap Atom.glyphs).isEmpty = as.isEmpty := by
    intro as
    cases as with
    | nil => rfl
    | cons a as => cases a <;> rfl
  rw [hpieces, Apart, List.filter_map, List.isChain_map, Clear, List.flatMap,
    ← List.flatten_filter_not_isEmpty, List.isChain_flatten (by simp)]
  have hclear : ∀ as ∈ (ss.map (Segment.atoms text?)).filter (!·.isEmpty), Clear as := by
    intro as has
    obtain ⟨s, hs, rfl⟩ := List.mem_map.mp (List.mem_filter.mp has).1
    exact Segment.clear_atoms (h s hs)
  simp only [Function.comp_def, hempty, head?_glyphs, getLast?_glyphs]
  refine (and_iff_right hclear).trans (List.IsChain.iff fun p q => ?_)
  constructor
  · rintro hpq ⟨hp, hq⟩
    exact hpq _ hp _ hq ⟨rfl, rfl⟩
  · rintro hpq a ha b hb ⟨rfl, rfl⟩
    exact hpq ⟨ha, hb⟩

/-- A format in which nothing is replaced stays as it is. -/
theorem replacePlaceholders_none {format : String} (h : segments format = .ok ss) :
    replacePlaceholders (fun _ => none) format = .ok format := by
  rw [replacePlaceholders, h]
  refine congrArg Except.ok (String.toList_injective ?_)
  rw [String.toList_join, List.flatMap_map]
  simpa using (segmentsFrom_written h).2

/-- Texts put into a format leave it saying the same if and only if the pieces stay apart. -/
theorem reading_replacePlaceholders {format : String} (text? : String → Option String)
    (h : segments format = .ok ss) :
    ∃ newFormat, replacePlaceholders (fun name => (text? name).map escape) format = .ok newFormat ∧
      (reading (fun _ => none) newFormat = .ok (ss.flatMap (Segment.glyphs text?)) ↔
        Apart (ss.map (Segment.glyphs text?))) := by
  obtain ⟨hwritten, -⟩ := segmentsFrom_written h
  let as := ss.flatMap (Segment.atoms text?)
  have hvalid : ∀ a ∈ as, a.Valid := by
    intro a ha
    obtain ⟨s, hs, ha⟩ := List.mem_flatMap.mp ha
    exact Segment.valid_atoms (hwritten s hs) a ha
  have hglyphs : as.flatMap Atom.glyphs = ss.flatMap (Segment.glyphs text?) := by
    rw [List.flatMap_assoc]
    exact List.flatMap_congr fun s hs => Segment.glyphs_atoms (hwritten s hs)
  refine ⟨_, by rw [replacePlaceholders, h]; rfl, ?_⟩
  have hwrite : (String.join <| ss.map fun s =>
      (s.placeholder?.bind fun name => (text? name).map escape).getD s.raw).toList =
        as.flatMap Atom.write := by
    rw [String.toList_join, List.flatMap_map, List.flatMap_assoc]
    exact List.flatMap_congr fun s hs => (Segment.write_atoms (hwritten s hs)).symm
  rw [← scan_toList, hwrite, ← hglyphs, ← clear_atoms_iff hwritten]
  constructor
  · intro hscan
    by_contra hclear
    exact Nat.lt_irrefl _ ((length_scan_write hvalid hscan).2 hclear)
  · exact scan_write hvalid

end StackTemplate.Format
