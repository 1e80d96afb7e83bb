import StackTemplate.Text.Bytes

/-!
# Interpolated strings

A format is text with placeholders: a dollar sign and a name in braces. A dollar sign, an opening
brace and an exclamation mark stand for a literal dollar sign and brace; this escape needs no
closing brace. Any other dollar sign is plain text.

`segments` cuts a format into text, escapes and placeholders, which together are the format again.
-/

namespace StackTemplate.Format

/-- What a piece of a format is. -/
inductive SegmentKind where
  /-- Text that stands for itself. -/
  | text
  /-- The escape for a dollar sign and an opening brace. -/
  | escaped
  /-- A placeholder for a name. -/
  | placeholder (name : String)
deriving DecidableEq, Inhabited

/-- A piece of a format. -/
structure Segment where
  kind : SegmentKind
  /-- The bytes of the format before it. -/
  offset : Nat
  /-- The piece as written. -/
  raw : String
deriving DecidableEq, Inhabited

/-- The name of a placeholder. -/
def Segment.placeholder? (s : Segment) : Option String :=
  match s.kind with
  | .placeholder name => some name
  | _ => none

/-- The part of a format that is no placeholder but looks like the start of one. -/
structure Malformed where
  offset : Nat
  length : Nat
deriving DecidableEq, Inhabited

/-- The wording of the mistake. -/
def Malformed.message (m : Malformed) : String :=
  s!"malformed placeholder at offset {m.offset}"

/-- Whether a character may stand in the name of a placeholder. -/
def isNameChar (c : Char) : Bool :=
  c.isAlphanum || c == '_' || c == ':' || c == '.' || c == '-'

/-- The written form of a placeholder. -/
def placeholderText (name : String) : String := "$\x7b" ++ name ++ "\x7d"

/-- Cuts characters at the first closing brace: the characters before it and after it. -/
def cutAtBrace? : List Char → Option (List Char × List Char)
  | [] => none
  | c :: cs =>
    if c = '\x7d' then some ([], cs) else (cutAtBrace? cs).map fun (a, b) => (c :: a, b)

/-- A cut at a brace loses that brace and nothing else. -/
theorem eq_of_cutAtBrace? {cs before after : List Char}
    (h : cutAtBrace? cs = some (before, after)) : cs = before ++ '\x7d' :: after := by
  induction cs generalizing before after with
  | nil => simp [cutAtBrace?] at h
  | cons c cs ih =>
    simp only [cutAtBrace?] at h
    split at h
    · simp_all
    · cases hc : cutAtBrace? cs with
      | none => simp [hc] at h
      | some p =>
        obtain ⟨a, b⟩ := p
        simp only [hc, Option.map_some, Option.some.injEq, Prod.mk.injEq] at h
        obtain ⟨rfl, rfl⟩ := h
        rw [ih hc, List.cons_append]

/-- The segments of the characters from a byte on. A dollar sign and a brace that are no escape
must be closed, with a name of name characters between the braces. If nothing closes them, or
nothing stands between them, all the rest is malformed; if the name is no name, the piece up to the
closing brace is. -/
def segmentsFrom (offset : Nat) (cs : List Char) : Except Malformed (List Segment) :=
  match cs with
  | [] => .ok []
  | '$' :: '\x7b' :: '!' :: rest =>
    (segmentsFrom (offset + 3) rest).map ({ kind := .escaped, offset, raw := "$\x7b!" } :: ·)
  | '$' :: '\x7b' :: rest =>
    match h : cutAtBrace? rest with
    | none | some ([], _) => .error { offset, length := 2 + Text.byteSize rest }
    | some (c :: name, after) =>
      let name := c :: name
      if name.all isNameChar then
        have := eq_of_cutAtBrace? h
        let segment : Segment :=
          { kind := .placeholder (String.ofList name), offset,
            raw := placeholderText (String.ofList name) }
        (segmentsFrom (offset + 3 + Text.byteSize name) after).map (segment :: ·)
      else .error { offset, length := 3 + Text.byteSize name }
  | '$' :: rest =>
    (segmentsFrom (offset + 1) rest).map ({ kind := .text, offset, raw := "$" } :: ·)
  | c :: rest =>
    let run := c :: rest.takeWhile (· != '$')
    have : (rest.dropWhile (· != '$')).length ≤ rest.length :=
      (List.dropWhile_sublist _).length_le
    (segmentsFrom (offset + Text.byteSize run) (rest.dropWhile (· != '$'))).map
      ({ kind := .text, offset, raw := String.ofList run } :: ·)
termination_by cs.length
decreasing_by all_goals simp_all <;> omega

/-- The segments of a format, or its first malformed part. -/
def segments (format : String) : Except Malformed (List Segment) :=
  segmentsFrom 0 format.toList

/-- The names of the placeholders of a format in order of appearance. -/
def placeholders (format : String) : Except Malformed (List String) :=
  (segments format).map (·.filterMap Segment.placeholder?)

/-- The format with the placeholders replaced for which there is a text; the text goes in as it
is. -/
def replacePlaceholders (replacement : String → Option String) (format : String) :
    Except Malformed String :=
  (segments format).map fun ss => String.join <| ss.map fun s =>
    (s.placeholder?.bind replacement).getD s.raw

/-- The text of a format: escapes are resolved and placeholders kept as written. -/
def unescape (format : String) : Except Malformed String :=
  (segments format).map fun ss => String.join <| ss.map fun s =>
    match s.kind with
    | .escaped => "$\x7b"
    | _ => s.raw

/-- Writes an exclamation mark after every dollar sign that a brace follows. -/
def escapeChars : List Char → List Char
  | '$' :: '\x7b' :: cs => '$' :: '\x7b' :: '!' :: escapeChars cs
  | c :: cs => c :: escapeChars cs
  | [] => []

/-- The format that says a text: no part of the text is read as a placeholder. -/
def escape (text : String) : String := String.ofList (escapeChars text.toList)

end StackTemplate.Format
