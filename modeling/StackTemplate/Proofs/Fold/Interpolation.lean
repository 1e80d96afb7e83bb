import StackTemplate.Fold.Reduct
import StackTemplate.Proofs.Format.Splicing
import StackTemplate.Proofs.Tree.Slots

/-!
# What folded strings say

Folding an interpolated string puts the texts of its literal parameters into the format. Each text
is escaped by itself, so the answer says what the string said before unless pieces of it run
together: a piece that ends in a dollar sign, and after it one that begins with a brace.
-/

namespace StackTemplate.Fold

open Format

variable {t : Tree} {format : String} {parameters : Table NodeId} {ss : List Segment} {r : Reduct}

/-- The text of a parameter that is bound to a literal. -/
def literalText? (t : Tree) (parameters : Table NodeId) (name : String) : Option String :=
  ((parameters.get? name).bind t.literal?).map (·.value.toText)

/-- The parameters that are bound to something else. -/
def openParameters (t : Tree) (parameters : Table NodeId) : Table NodeId :=
  parameters.filter fun _ id => (t.literal? id).isNone

theorem lookup_literalTexts (t : Tree) (parameters : Table NodeId) (name : String) :
    (literalTexts t parameters).lookup name = (literalText? t parameters name).map escape := by
  obtain ⟨es, nodup⟩ := parameters
  unfold literalTexts literalText? Table.get?
  simp only
  induction es with
  | nil => rfl
  | cons e es ih =>
    obtain ⟨k, id⟩ := e
    obtain ⟨hnot, hes⟩ := List.nodup_cons.mp nodup
    have ih := ih hes
    rw [List.filterMap_cons, List.lookup_cons]
    by_cases hk : name = k
    · subst hk
      have hlookup : es.lookup name = none := by
        rw [Option.eq_none_iff_forall_ne_some]
        intro v hv
        have hentry := (Table.get?_eq_some (t := ⟨es, hes⟩)).mp hv
        exact hnot (List.mem_map.mpr ⟨(name, v), hentry, rfl⟩)
      rw [hlookup] at ih
      cases hl : t.literal? id with
      | none => simpa [hl] using ih
      | some l => simp [hl]
    · have hk' : (name == k) = false := beq_false_of_ne hk
      cases hl : t.literal? id with
      | none => simpa [hl, hk'] using ih
      | some l => simpa [hl, hk', List.lookup_cons] using ih

/-- Open parameters have no texts. -/
theorem literalText?_openParameters (t : Tree) (parameters : Table NodeId) (name : String) :
    literalText? t (openParameters t parameters) name = none := by
  cases hget : (openParameters t parameters).get? name with
  | none => rw [literalText?, hget]; rfl
  | some id =>
    have hentry := Table.get?_eq_some.mp hget
    have hnone := (List.mem_filter.mp hentry).2
    rw [literalText?, hget, Option.bind_some, Option.isNone_iff_eq_none.mp hnone]
    rfl

/-- A replacement that says the given glyphs: a string if they are characters and no parameter is
left, else an interpolated string over the parameters that are left. -/
def Reduct.Says (t : Tree) (left : Table NodeId) (gs : List Glyph) (r : Reduct) : Prop :=
  if left.isEmpty ∧ holes gs = [] then
    ∃ text, r = .constant (.string text) ∧ text.toList.map .char = gs
  else ∃ format, r = .interpolated format left ∧ reading (literalText? t left) format = .ok gs

theorem inlinedFormat_eq (t : Tree) (parameters : Table NodeId) (h : segments format = .ok ss) :
    (if (literalTexts t parameters).isEmpty then .ok format
      else replacePlaceholders ((literalTexts t parameters).lookup ·) format) =
        replacePlaceholders (fun name => (literalText? t parameters name).map escape) format := by
  simp only [← lookup_literalTexts]
  split
  · next hempty =>
    rw [List.isEmpty_iff.mp hempty]
    exact (replacePlaceholders_none h).symm
  · rfl

/-- Folding a string puts the escaped texts into its format, and makes a string of an outcome without
placeholders and parameters. -/
theorem sub?_cases (hformat : segments format = .ok ss) (hsub : sub? t format parameters = some r) :
    ∃ newFormat,
      replacePlaceholders (fun name => (literalText? t parameters name).map escape) format =
        .ok newFormat ∧
      (((openParameters t parameters).isEmpty ∧ placeholders newFormat = .ok [] ∧
          ∃ text, unescape newFormat = .ok text ∧ r = .constant (.string text)) ∨
        ¬ ((openParameters t parameters).isEmpty ∧ placeholders newFormat = .ok []) ∧
          r = .interpolated newFormat (openParameters t parameters)) := by
  unfold sub? at hsub
  split at hsub
  · cases hsub
  simp only [inlinedFormat_eq t parameters hformat] at hsub
  split at hsub
  · cases hsub
  · next newFormat hnew =>
    refine ⟨newFormat, hnew, ?_⟩
    have hshortened : ∀ {r : Reduct}, (if (literalTexts t parameters).isEmpty then none
        else some (.interpolated newFormat (openParameters t parameters))) = some r →
          r = .interpolated newFormat (openParameters t parameters) := by
      intro r hr
      split at hr
      · cases hr
      · exact (Option.some.inj hr).symm
    split at hsub
    · next hempty =>
      split at hsub
      · next text hplaceholders hunescape =>
        exact .inl ⟨hempty, hplaceholders, text, hunescape, (Option.some.inj hsub).symm⟩
      · next names hnames hnot =>
        refine .inr ⟨fun ⟨_, hplaceholders⟩ => ?_, hshortened hsub⟩
        obtain ⟨text, htext⟩ := exists_unescape hplaceholders
        rw [hnames] at hplaceholders
        exact hnot text htext (Except.ok.inj hplaceholders)
      · cases hsub
    · next hempty => exact .inr ⟨fun h => hempty h.1, hshortened hsub⟩

/-- The answer says what the string says if and only if no piece of it that ends in a dollar sign
runs into one that begins with a brace. Then its placeholders are placeholders of the string. -/
theorem sub?_says_iff (hformat : segments format = .ok ss)
    (hsub : sub? t format parameters = some r) :
    (r.Says t (openParameters t parameters)
        (ss.flatMap (Segment.glyphs (literalText? t parameters))) ↔
      Apart (ss.map (Segment.glyphs (literalText? t parameters)))) ∧
    (Apart (ss.map (Segment.glyphs (literalText? t parameters))) →
      ∀ newFormat left, r = .interpolated newFormat left →
        ∃ names, placeholders newFormat = .ok names ∧
          ∀ name ∈ names, ∃ s ∈ ss, s.placeholder? = some name) := by
  obtain ⟨newFormat, hnew, hcases⟩ := sub?_cases hformat hsub
  obtain ⟨newFormat', hnew', hiff⟩ :=
    reading_replacePlaceholders (literalText? t parameters) hformat
  rw [hnew] at hnew'
  obtain rfl := Except.ok.inj hnew'
  have hopen : literalText? t (openParameters t parameters) = fun _ => none :=
    funext (literalText?_openParameters t parameters)
  -- What is left of the claim: the answer says just what the new format reads as.
  rw [← hiff]
  constructor
  · constructor
    · intro hsays
      unfold Reduct.Says at hsays
      split at hsays
      · obtain ⟨text, rfl, htext⟩ := hsays
        rcases hcases with ⟨-, hplaceholders, text', hunescape, heq⟩ | ⟨-, heq⟩
        · obtain rfl : text = text' := by simpa [Literal.string] using heq
          rw [← htext]
          exact reading_of_unescape hplaceholders hunescape
        · cases heq
      · obtain ⟨format', rfl, hreading⟩ := hsays
        rcases hcases with ⟨-, -, text, -, heq⟩ | ⟨-, heq⟩
        · cases heq
        · obtain rfl := (Reduct.interpolated.inj heq).1
          rwa [hopen] at hreading
    · intro hreading
      have hholes : placeholders newFormat =
          .ok (holes (ss.flatMap (Segment.glyphs (literalText? t parameters)))) := by
        rw [placeholders_eq, hreading]
        rfl
      -- The answer is a text if nothing is open, else a string over the open parameters.
      rcases hcases with ⟨hempty, hplaceholders, text, hunescape, rfl⟩ | ⟨hnot, rfl⟩
      · rw [hholes] at hplaceholders
        rw [Reduct.Says, if_pos ⟨hempty, Except.ok.inj hplaceholders⟩]
        have htext := reading_of_unescape (hholes.trans hplaceholders) hunescape
        rw [hreading] at htext
        exact ⟨text, rfl, (Except.ok.inj htext).symm⟩
      · rw [Reduct.Says, if_neg fun h => hnot ⟨h.1, hholes.trans (congrArg Except.ok h.2)⟩]
        exact ⟨newFormat, rfl, hopen ▸ hreading⟩
  · rintro hreading format' left rfl
    rcases hcases with ⟨-, -, text, -, heq⟩ | ⟨-, heq⟩
    · cases heq
    · obtain ⟨rfl, -⟩ := Reduct.interpolated.inj heq
      refine ⟨_, by rw [placeholders_eq, hreading]; rfl, fun name hname => ?_⟩
      exact exists_placeholder_of_mem_holes hname

/-- A literal that looks like a placeholder, and a reference. -/
def greeting : Tree where
  nodes := #[
    { kind := .expr (.literal (.string "$\x7bX\x7d")), span := default },
    { kind := .expr (.ref "Name"), span := default }]

/-- The two as parameters. -/
def greetingParameters : Table NodeId := ⟨[("A", 0), ("B", 1)], by decide⟩

theorem greeting_says : ∃ ss r, segments "${A}-${B}" = .ok ss ∧
    sub? greeting "${A}-${B}" greetingParameters = some r ∧
    r.Says greeting (openParameters greeting greetingParameters)
      (ss.flatMap (Segment.glyphs (literalText? greeting greetingParameters))) := by
  have hformat : segments "${A}-${B}" = .ok
      [⟨.placeholder "A", 0, "${A}"⟩, ⟨.text, 4, "-"⟩, ⟨.placeholder "B", 5, "${B}"⟩] := by
    decide +kernel
  have hsub : sub? greeting "${A}-${B}" greetingParameters =
      some (.interpolated "$\x7b!X\x7d-${B}" ⟨[("B", 1)], by decide⟩) := by
    decide +kernel
  exact ⟨_, _, hformat, hsub, (sub?_says_iff hformat hsub).1.mpr (by decide +kernel)⟩

/-- A dollar sign as a literal. -/
def price : Tree where
  nodes := #[{ kind := .expr (.literal (.string "$")), span := default }]

/-- It is the only parameter. -/
def priceParameters : Table NodeId := ⟨[("A", 0)], by decide⟩

/-- A dollar sign goes in before a brace, and the two begin a placeholder that the string did not
have. -/
theorem price_joins_brace : ∃ ss r, segments "${A}{B}" = .ok ss ∧
    sub? price "${A}{B}" priceParameters = some r ∧
    ¬ r.Says price (openParameters price priceParameters)
      (ss.flatMap (Segment.glyphs (literalText? price priceParameters))) ∧
    (∀ s ∈ ss, s.placeholder? ≠ some "B") ∧
    ∃ newFormat left, r = .interpolated newFormat left ∧ placeholders newFormat = .ok ["B"] := by
  have hformat : segments "${A}{B}" = .ok
      [⟨.placeholder "A", 0, "${A}"⟩, ⟨.text, 4, "{B}"⟩] := by
    decide +kernel
  have hsub : sub? price "${A}{B}" priceParameters = some (.interpolated "${B}" .empty) := by
    decide +kernel
  refine ⟨_, _, hformat, hsub, ?_, by decide, _, _, rfl, by decide +kernel⟩
  -- The string says a dollar sign and a word in braces, so its replacement would be a literal.
  rw [Reduct.Says, if_pos (by decide +kernel)]
  rintro ⟨text, htext, -⟩
  cases htext

end StackTemplate.Fold
