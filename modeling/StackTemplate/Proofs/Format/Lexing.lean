import StackTemplate.Proofs.Format.Reading
import StackTemplate.Proofs.Text.Basic

/-!
# The grammar of formats

Five rules compete for the front of a format, and the one that matches most takes it (`Lexes`).
`segments` is what comes out (`segmentsFrom_lexes`).

The rules overlap, but their outcome can be said without them. Only a dollar sign and an opening
brace matter (`Opens`): they are the start of an escape if an exclamation mark follows, and
otherwise of a placeholder, which must be closed around a name. A format is cut into segments just
if this holds wherever they stand, and if not, the first place where it fails is the malformed one
(`segments_grammar`).
-/

namespace StackTemplate.Format

variable {cs rest raw name after : List Char} {offset i : Nat}

/-! ### Rules -/

/-- The rules that cut a format. -/
inductive Token where
  | escaped
  | placeholder
  | unterminated
  | dollar
  | text
deriving DecidableEq

/-- What a rule matches. A placeholder has something in its braces, which has no closing brace and
does not begin with an exclamation mark. -/
def Token.Matches : Token → List Char → Prop
  | .escaped, cs => cs = ['$', '\x7b', '!']
  | .placeholder, cs => ∃ name, name ≠ [] ∧ name.head? ≠ some '!' ∧ '\x7d' ∉ name ∧
      cs = '$' :: '\x7b' :: (name ++ ['\x7d'])
  | .unterminated, cs => cs = ['$', '\x7b']
  | .dollar, cs => cs = ['$']
  | .text, cs => cs ≠ [] ∧ '$' ∉ cs

/-- A rule takes `raw` off the front of characters and leaves `rest`: it matches `raw`, and no rule
matches more. -/
structure Token.Takes (token : Token) (raw rest : List Char) : Prop where
  fits : token.Matches raw
  longest : ∀ (other : Token) (more : List Char), other.Matches more → more <+: raw ++ rest →
    more.length ≤ raw.length

/-- The kind of segment that a rule makes of what it takes, if it makes one. -/
def Token.kind? : Token → List Char → Option SegmentKind
  | .escaped, _ => some .escaped
  | .placeholder, raw =>
    let name := (raw.drop 2).dropLast
    if name.all isNameChar then some (.placeholder (String.ofList name)) else none
  | .unterminated, _ => none
  | .dollar, _ | .text, _ => some .text

/-- The bytes that are malformed if a rule makes no segment: what it takes, or all that is left. -/
def Token.blamed : Token → (raw rest : List Char) → Nat
  | .unterminated, raw, rest => Text.byteSize (raw ++ rest)
  | _, raw, _ => Text.byteSize raw

/-- What the rules make of characters from a byte on, if the longest match always wins. -/
inductive Lexes : Nat → List Char → Except Malformed (List Segment) → Prop where
  | done (offset : Nat) : Lexes offset [] (.ok [])
  | segment {offset : Nat} {token : Token} {raw rest : List Char} {kind : SegmentKind}
      {result : Except Malformed (List Segment)} (takes : token.Takes raw rest)
      (makes : token.kind? raw = some kind)
      (goesOn : Lexes (offset + Text.byteSize raw) rest result) :
      Lexes offset (raw ++ rest) (result.map (⟨kind, offset, String.ofList raw⟩ :: ·))
  | malformed {offset : Nat} {token : Token} {raw rest : List Char} (takes : token.Takes raw rest)
      (makes : token.kind? raw = none) :
      Lexes offset (raw ++ rest) (.error ⟨offset, token.blamed raw rest⟩)

/-! ### Closing braces -/

/-- The first closing brace stands between `name` and `after`. -/
def Closes (rest name after : List Char) : Prop :=
  rest = name ++ '\x7d' :: after ∧ '\x7d' ∉ name

theorem cutAtBrace?_eq_some : cutAtBrace? rest = some (name, after) ↔ Closes rest name after := by
  constructor
  · intro h
    refine ⟨eq_of_cutAtBrace? h, ?_⟩
    induction rest generalizing name with
    | nil => cases h
    | cons c rest ih =>
      rw [cutAtBrace?] at h
      split at h
      · obtain ⟨rfl, -⟩ := Prod.mk.inj (Option.some.inj h)
        exact List.not_mem_nil
      · next hc =>
        obtain ⟨⟨before, after'⟩, hcut, heq⟩ := Option.map_eq_some_iff.mp h
        obtain ⟨rfl, rfl⟩ := Prod.mk.inj heq
        rw [List.mem_cons, not_or]
        exact ⟨Ne.symm hc, ih hcut⟩
  · rintro ⟨rfl, hnot⟩
    exact cutAtBrace?_append hnot after

theorem cutAtBrace?_eq_none : cutAtBrace? rest = none ↔ ∀ name after, ¬ Closes rest name after := by
  rw [Option.eq_none_iff_forall_ne_some]
  simp only [ne_eq, Prod.forall, cutAtBrace?_eq_some]

/-- There is one first closing brace. -/
theorem Closes.unique {name' after' : List Char} (h : Closes rest name after)
    (h' : Closes rest name' after') : name = name' ∧ after = after' := by
  have heq := (cutAtBrace?_eq_some.mpr h).symm.trans (cutAtBrace?_eq_some.mpr h')
  exact Prod.mk.inj (Option.some.inj heq)

/-! ### Who takes the front -/

/-- A match that begins with a dollar sign is that sign, or goes on with a brace. -/
theorem Token.Matches.of_dollar {token : Token} {more : List Char} (h : token.Matches more)
    (hmore : more <+: '$' :: cs) :
    more = ['$'] ∨ ∃ rest, cs = '\x7b' :: rest ∧
      (more = ['$', '\x7b'] ∨ more = ['$', '\x7b', '!'] ∧ rest.head? = some '!' ∨
        ∃ name after, name ≠ [] ∧ rest.head? ≠ some '!' ∧ Closes rest name after ∧
          more = '$' :: '\x7b' :: (name ++ ['\x7d'])) := by
  obtain ⟨left, hleft⟩ := hmore
  cases token with
  | escaped =>
    obtain rfl := h
    obtain rfl := (List.cons.inj hleft).2
    exact .inr ⟨'!' :: left, rfl, .inr (.inl ⟨rfl, rfl⟩)⟩
  | placeholder =>
    obtain ⟨name, hne, hmark, hclose, rfl⟩ := h
    obtain rfl := (List.cons.inj hleft).2
    refine .inr ⟨name ++ ['\x7d'] ++ left, rfl, .inr (.inr ⟨name, left, hne, ?_, ?_, rfl⟩)⟩
    · obtain ⟨c, name, rfl⟩ := List.exists_cons_of_ne_nil hne
      exact hmark
    · exact ⟨by simp, hclose⟩
  | unterminated =>
    obtain rfl := h
    obtain rfl := (List.cons.inj hleft).2
    exact .inr ⟨left, rfl, .inl rfl⟩
  | dollar => exact .inl h
  | text =>
    obtain ⟨c, more, rfl⟩ := List.exists_cons_of_ne_nil h.1
    obtain rfl := (List.cons.inj hleft).1
    exact absurd (List.mem_cons_self ..) h.2

theorem takes_escaped (rest : List Char) : Token.escaped.Takes ['$', '\x7b', '!'] rest where
  fits := rfl
  longest other more h hmore := by
    rcases h.of_dollar hmore with rfl | ⟨rest', heq, rfl | ⟨rfl, -⟩ | ⟨name, after, -, hmark, -⟩⟩
    · decide
    · decide
    · decide
    · obtain rfl := (List.cons.inj heq).2
      exact absurd rfl hmark

theorem takes_placeholder (hne : name ≠ []) (hmark : name.head? ≠ some '!')
    (hclose : '\x7d' ∉ name) (rest : List Char) :
    Token.placeholder.Takes ('$' :: '\x7b' :: (name ++ ['\x7d'])) rest where
  fits := ⟨name, hne, hmark, hclose, rfl⟩
  longest other more h hmore := by
    rcases h.of_dollar hmore with
      rfl | ⟨rest', heq, rfl | ⟨rfl, -⟩ | ⟨name', after, -, -, hcloses, rfl⟩⟩
    · simp
    · simp
    · simp
    · have hself : Closes rest' name rest := ⟨by simpa using (List.cons.inj heq).2.symm, hclose⟩
      rw [(hcloses.unique hself).1]

theorem takes_unterminated (hmark : rest.head? ≠ some '!')
    (hclose : ∀ name after, Closes rest name after → name = []) :
    Token.unterminated.Takes ['$', '\x7b'] rest where
  fits := rfl
  longest other more h hmore := by
    rcases h.of_dollar hmore with
      rfl | ⟨rest', heq, rfl | ⟨rfl, hmark'⟩ | ⟨name', after, hne, -, hcloses, rfl⟩⟩
    · decide
    · decide
    · obtain rfl := (List.cons.inj heq).2
      exact absurd hmark' hmark
    · obtain rfl := (List.cons.inj heq).2
      exact absurd (hclose name' after hcloses) hne

theorem takes_dollar (hbrace : rest.head? ≠ some '\x7b') : Token.dollar.Takes ['$'] rest where
  fits := rfl
  longest other more h hmore := by
    rcases h.of_dollar hmore with rfl | ⟨rest', rfl, -⟩
    · exact Nat.le_refl _
    · exact absurd rfl hbrace

theorem takes_text (hne : raw ≠ []) (hraw : '$' ∉ raw) (hrest : ∀ c ∈ rest.head?, c = '$') :
    Token.text.Takes raw rest where
  fits := ⟨hne, hraw⟩
  longest other more h hmore := by
    obtain ⟨c, tail, rfl⟩ := List.exists_cons_of_ne_nil hne
    have hdollar : ∀ cs, more ≠ '$' :: cs := by
      rintro cs rfl
      exact hraw (List.mem_cons.mpr (.inl (List.cons_prefix_cons.mp hmore).1))
    have hplain : '$' ∉ more := by
      cases other with
      | escaped => exact absurd h (hdollar _)
      | placeholder =>
        obtain ⟨name, -, -, -, heq⟩ := h
        exact absurd heq (hdollar _)
      | unterminated => exact absurd h (hdollar _)
      | dollar => exact absurd h (hdollar _)
      | text => exact h.2
    -- A longer match without dollar signs would go into what is left, which begins with one.
    by_contra hlength
    obtain ⟨extra, rfl⟩ := List.prefix_of_prefix_length_le (List.prefix_append _ rest) hmore
      (Nat.le_of_not_le hlength)
    obtain ⟨d, extra, rfl⟩ : ∃ d extra', extra = d :: extra' := by
      refine List.exists_cons_of_ne_nil fun hnil => hlength ?_
      rw [hnil, List.append_nil]
    obtain ⟨left, hleft⟩ := (List.prefix_append_right_inj _).mp hmore
    have hd : d = '$' := hrest d (by rw [← hleft]; rfl)
    exact hplain (by simp [hd])

theorem kind?_placeholder (name : List Char) :
    Token.placeholder.kind? ('$' :: '\x7b' :: (name ++ ['\x7d'])) =
      if name.all isNameChar then some (.placeholder (String.ofList name)) else none := by
  simp only [Token.kind?, List.drop_succ_cons, List.drop_zero, List.dropLast_concat]

theorem byteSize_brace (cs : List Char) :
    Text.byteSize ('$' :: '\x7b' :: cs) = 2 + Text.byteSize cs := by
  have hdollar : '$'.utf8Size = 1 := by decide
  have hbrace : '\x7b'.utf8Size = 1 := by decide
  rw [Text.byteSize, Text.byteSize, hdollar, hbrace]
  omega

theorem byteSize_placeholder (name : List Char) :
    Text.byteSize ('$' :: '\x7b' :: (name ++ ['\x7d'])) = 3 + Text.byteSize name := by
  have hbrace : Text.byteSize ['\x7d'] = 1 := by decide
  rw [byteSize_brace, Text.byteSize_append, hbrace]
  omega

/-- Cutting a format is what the rules do. -/
theorem segmentsFrom_lexes (offset : Nat) (cs : List Char) :
    Lexes offset cs (segmentsFrom offset cs) := by
  -- What is not closed, or closed at once, is left to the rule for open braces.
  have hopen : ∀ offset rest, rest.head? ≠ some '!' →
      (∀ name after, Closes rest name after → name = []) →
      Lexes offset ('$' :: '\x7b' :: rest) (.error ⟨offset, 2 + Text.byteSize rest⟩) := by
    intro offset rest hmark hclose
    rw [← byteSize_brace]
    exact .malformed (takes_unterminated hmark hclose) rfl
  fun_induction segmentsFrom offset cs with
  | case1 offset => exact .done offset
  | case2 offset rest ih => exact .segment (takes_escaped rest) rfl ih
  | case3 offset rest hmark hcut =>
    refine hopen offset rest (head?_ne_some hmark) fun name after hcloses => ?_
    exact absurd hcloses (cutAtBrace?_eq_none.mp hcut name after)
  | case4 offset rest hmark after hcut =>
    refine hopen offset rest (head?_ne_some hmark) fun name after' hcloses => ?_
    exact (hcloses.unique (cutAtBrace?_eq_some.mp hcut)).1
  | case5 offset c name after name' hname segment hmark hcut =>
    rename_i ih
    -- A name has neither a closing brace nor a mark in it, so the rule for placeholders matches.
    have hclose : '\x7d' ∉ name' := not_mem_of_all_isNameChar hname (by decide)
    have hfirst : name'.head? ≠ some '!' := fun h =>
      not_mem_of_all_isNameChar hname (by decide) (List.mem_of_head? h)
    have hraw : placeholderText (String.ofList name') =
        String.ofList ('$' :: '\x7b' :: (name' ++ ['\x7d'])) :=
      String.toList_injective (by simp [placeholderText])
    have hsize : offset + 3 + Text.byteSize name' =
        offset + Text.byteSize ('$' :: '\x7b' :: (name' ++ ['\x7d'])) := by
      rw [byteSize_placeholder, Nat.add_assoc]
    have hmakes := (kind?_placeholder name').trans (if_pos hname)
    rw [hsize] at ih ⊢
    have hlexes := Lexes.segment (takes_placeholder (List.cons_ne_nil c name) hfirst hclose after)
      hmakes ih
    rwa [← hraw, List.cons_append, List.cons_append, List.append_assoc] at hlexes
  | case6 offset rest hmark c name after hcut name' hname =>
    -- The same rule takes what stands in braces and is no name, but makes no segment of it.
    obtain ⟨hrest, hclose⟩ := cutAtBrace?_eq_some.mp hcut
    have hfirst : name'.head? ≠ some '!' := by
      have hmark := head?_ne_some hmark
      rwa [hrest] at hmark
    have hmakes := (kind?_placeholder name').trans (if_neg hname)
    have hlexes : Lexes offset _ (.error ⟨offset, Text.byteSize _⟩) :=
      .malformed (takes_placeholder (List.cons_ne_nil c name) hfirst hclose after) hmakes
    rwa [byteSize_placeholder, List.cons_append, List.cons_append, List.append_assoc,
      List.singleton_append, ← hrest] at hlexes
  | case7 offset rest hmark hbrace ih =>
    exact .segment (takes_dollar (head?_ne_some hbrace)) rfl ih
  | case8 offset c rest hmark hbrace hdollar run hle =>
    rename_i ih
    have htakes : Token.text.Takes run (rest.dropWhile (· != '$')) :=
      takes_text (List.cons_ne_nil c _) (dollar_not_mem_run hdollar rest)
        fun d hd => eq_dollar_of_head?_dropWhile hd
    have hlexes := Lexes.segment htakes rfl ih
    rwa [List.cons_append, List.takeWhile_append_dropWhile] at hlexes

/-! ### Openings -/

/-- A dollar sign and an opening brace stand `i` bytes into the characters, before `rest`. -/
def Opens (cs : List Char) (i : Nat) (rest : List Char) : Prop :=
  ∃ before, cs = before ++ '$' :: '\x7b' :: rest ∧ Text.byteSize before = i

/-- What follows an opening makes it an escape or the start of a placeholder. -/
def WellOpened (rest : List Char) : Prop :=
  rest.head? = some '!' ∨
    ∃ name after, Closes rest name after ∧ name ≠ [] ∧ ∀ c ∈ name, isNameChar c

/-- The kind of segment that begins with an opening before `rest`. -/
def Begins : SegmentKind → List Char → Prop
  | .text, _ => False
  | .escaped, rest => rest.head? = some '!'
  | .placeholder name, rest => rest.head? ≠ some '!' ∧ ∃ after, Closes rest name.toList after

theorem Begins.unique {kind kind' : SegmentKind} (h : Begins kind rest) (h' : Begins kind' rest) :
    kind = kind' := by
  match kind, kind', h, h' with
  | .escaped, .escaped, _, _ => rfl
  | .escaped, .placeholder _, h, h' => exact absurd h h'.1
  | .placeholder _, .escaped, h, h' => exact absurd h' h.1
  | .placeholder _, .placeholder _, ⟨_, _, h⟩, ⟨_, _, h'⟩ =>
    rw [String.toList_injective (h.unique h').1]

theorem not_opens_nil : ¬ Opens [] i rest := by
  rintro ⟨before, heq, -⟩
  cases before <;> cases heq

theorem opens_cons {c : Char} : Opens (c :: cs) i rest ↔
    (i = 0 ∧ c = '$' ∧ cs = '\x7b' :: rest) ∨ ∃ j, i = c.utf8Size + j ∧ Opens cs j rest := by
  constructor
  · rintro ⟨before, heq, rfl⟩
    cases before with
    | nil => exact .inl ⟨rfl, (List.cons.inj heq).1, (List.cons.inj heq).2⟩
    | cons d before =>
      obtain ⟨rfl, rfl⟩ := List.cons.inj heq
      exact .inr ⟨Text.byteSize before, rfl, before, rfl, rfl⟩
  · rintro (⟨rfl, rfl, rfl⟩ | ⟨j, rfl, before, rfl, rfl⟩)
    · exact ⟨[], rfl, rfl⟩
    · exact ⟨c :: before, rfl, rfl⟩

/-- Nothing opens in plain text. -/
theorem opens_append (hraw : '$' ∉ raw) : Opens (raw ++ cs) i rest ↔
    ∃ j, i = Text.byteSize raw + j ∧ Opens cs j rest := by
  induction raw generalizing i with
  | nil => simp [Text.byteSize]
  | cons c raw ih =>
    rw [List.mem_cons, not_or] at hraw
    rw [List.cons_append, opens_cons, Text.byteSize]
    constructor
    · rintro (⟨-, rfl, -⟩ | ⟨j, rfl, hopens⟩)
      · exact absurd rfl hraw.1
      · obtain ⟨k, rfl, hopens'⟩ := (ih hraw.2).mp hopens
        exact ⟨k, (Nat.add_assoc ..).symm, hopens'⟩
    · rintro ⟨k, rfl, hopens⟩
      exact .inr ⟨_, Nat.add_assoc .., (ih hraw.2).mpr ⟨k, rfl, hopens⟩⟩

/-- A piece with one dollar sign, which it begins with, can open there only. -/
theorem opens_dollar_append (hraw : '$' ∉ raw) : Opens ('$' :: raw ++ cs) i rest ↔
    (i = 0 ∧ raw ++ cs = '\x7b' :: rest) ∨
      ∃ j, i = Text.byteSize ('$' :: raw) + j ∧ Opens cs j rest := by
  rw [List.cons_append, opens_cons]
  refine or_congr ⟨fun h => ⟨h.1, h.2.2⟩, fun h => ⟨h.1, rfl, h.2⟩⟩ ?_
  constructor
  · rintro ⟨j, rfl, hopens⟩
    obtain ⟨k, rfl, hopens'⟩ := (opens_append hraw).mp hopens
    exact ⟨k, (Nat.add_assoc ..).symm, hopens'⟩
  · rintro ⟨k, rfl, hopens⟩
    exact ⟨_, Nat.add_assoc .., (opens_append hraw).mpr ⟨k, rfl, hopens⟩⟩

/-! ### What a rule takes -/

/-- What a placeholder has in its braces, if a rule makes a segment of it. -/
theorem exists_name_of_makes {kind : SegmentKind} (h : Token.placeholder.Matches raw)
    (makes : Token.placeholder.kind? raw = some kind) :
    ∃ name : String, kind = .placeholder name ∧ name.toList ≠ [] ∧ name.toList.head? ≠ some '!' ∧
      name.toList.all isNameChar ∧ raw = '$' :: '\x7b' :: (name.toList ++ ['\x7d']) := by
  obtain ⟨name, hne, hmark, -, rfl⟩ := h
  rw [kind?_placeholder] at makes
  split at makes
  · next hname =>
    refine ⟨String.ofList name, (Option.some.inj makes).symm, ?_⟩
    rw [String.toList_ofList]
    exact ⟨hne, hmark, hname, rfl⟩
  · cases makes

theorem Token.Matches.written {token : Token} {kind : SegmentKind} (h : token.Matches raw)
    (makes : token.kind? raw = some kind) (offset : Nat) :
    Segment.Written ⟨kind, offset, String.ofList raw⟩ := by
  cases token with
  | escaped =>
    obtain rfl := h
    obtain rfl := Option.some.inj makes
    exact .escaped offset
  | placeholder =>
    obtain ⟨name, rfl, hne, -, hname, rfl⟩ := exists_name_of_makes h makes
    have hraw : String.ofList ('$' :: '\x7b' :: (name.toList ++ ['\x7d'])) = placeholderText name :=
      String.toList_injective (by simp [placeholderText])
    rw [hraw]
    exact .placeholder offset name hne hname
  | unterminated => cases makes
  | dollar =>
    obtain rfl := h
    obtain rfl := Option.some.inj makes
    exact .dollar offset
  | text =>
    obtain rfl := Option.some.inj makes
    exact .plain offset _ (by rw [String.toList_ofList]; exact h.2)

theorem Token.Matches.ne_nil {token : Token} (h : token.Matches raw) : raw ≠ [] := by
  rintro rfl
  cases token with
  | placeholder =>
    obtain ⟨name, -, -, -, heq⟩ := h
    cases heq
  | text => exact h.1 rfl
  | escaped | unterminated | dollar => cases h

/-- A segment that is no text begins with an opening, and has no other dollar sign. -/
theorem Token.Matches.begins {token : Token} {kind : SegmentKind} (h : token.Matches raw)
    (makes : token.kind? raw = some kind) (hkind : kind ≠ .text) (cs : List Char) :
    ∃ tail rest, raw = '$' :: tail ∧ '$' ∉ tail ∧ tail ++ cs = '\x7b' :: rest ∧
      Begins kind rest := by
  cases token with
  | escaped =>
    obtain rfl := h
    obtain rfl := Option.some.inj makes
    exact ⟨['\x7b', '!'], '!' :: cs, rfl, by decide, rfl, rfl⟩
  | placeholder =>
    obtain ⟨name, rfl, hne, hmark, hname, rfl⟩ := exists_name_of_makes h makes
    have hdollar : '$' ∉ name.toList := not_mem_of_all_isNameChar hname (by decide)
    have hclose : '\x7d' ∉ name.toList := not_mem_of_all_isNameChar hname (by decide)
    refine ⟨_, name.toList ++ '\x7d' :: cs, rfl, by simpa using hdollar, by simp, ?_, cs, rfl,
      hclose⟩
    obtain ⟨c, rest, hcons⟩ := List.exists_cons_of_ne_nil hne
    rw [hcons] at hmark ⊢
    exact hmark
  | unterminated => cases makes
  | dollar | text => exact absurd (Option.some.inj makes).symm hkind

/-- Between the front and the end of a segment nothing opens, and the front opens just if it is no
text. -/
theorem Token.Takes.opens {token : Token} {cs : List Char} {kind : SegmentKind}
    (takes : token.Takes raw cs) (makes : token.kind? raw = some kind) :
    Opens (raw ++ cs) i rest ↔ (i = 0 ∧ raw ++ cs = '$' :: '\x7b' :: rest ∧ Begins kind rest) ∨
      ∃ j, i = Text.byteSize raw + j ∧ Opens cs j rest := by
  by_cases hkind : kind = .text
  · subst hkind
    have hnot : Opens (raw ++ cs) i rest ↔ ∃ j, i = Text.byteSize raw + j ∧ Opens cs j rest := by
      obtain ⟨fits, longest⟩ := takes
      cases token with
      | escaped => cases makes
      | placeholder =>
        obtain ⟨name, hkind, -⟩ := exists_name_of_makes fits makes
        cases hkind
      | unterminated => cases makes
      | dollar =>
        obtain rfl := fits
        rw [opens_dollar_append List.not_mem_nil, or_iff_right]
        rintro ⟨-, rfl⟩
        -- Two characters would have matched.
        exact absurd (longest .unterminated ['$', '\x7b'] rfl ⟨rest, rfl⟩) (by decide)
      | text => exact opens_append fits.2
    rw [hnot, or_iff_right fun h => h.2.2]
  · obtain ⟨tail, rest', rfl, htail, heq, hbegins⟩ := takes.fits.begins makes hkind cs
    rw [opens_dollar_append htail]
    refine or_congr_left (and_congr_right fun _ => ?_)
    constructor
    · intro hrest
      obtain rfl := (List.cons.inj (heq.symm.trans hrest)).2
      exact ⟨congrArg ('$' :: ·) hrest, hbegins⟩
    · exact fun h => (List.cons.inj h.1).2

/-- A rule that makes no segment takes an opening that should not be there. -/
theorem Token.Takes.not_wellOpened {token : Token} {cs : List Char} (takes : token.Takes raw cs)
    (makes : token.kind? raw = none) :
    ∃ rest, raw ++ cs = '$' :: '\x7b' :: rest ∧ ¬ WellOpened rest ∧
      (∀ name after, Closes rest name after → name ≠ [] →
        token.blamed raw cs = Text.byteSize ('$' :: '\x7b' :: (name ++ ['\x7d']))) ∧
      ((∀ name after, Closes rest name after → name = []) →
        token.blamed raw cs = Text.byteSize ('$' :: '\x7b' :: rest)) := by
  obtain ⟨fits, longest⟩ := takes
  cases token with
  | placeholder =>
    obtain ⟨name, hne, hmark, hclose, rfl⟩ := fits
    have hcloses : Closes (name ++ '\x7d' :: cs) name cs := ⟨rfl, hclose⟩
    refine ⟨name ++ '\x7d' :: cs, by simp, ?_, ?_, ?_⟩
    · rintro (hmark' | ⟨name', after, hcloses', -, hname⟩)
      · obtain ⟨c, name, rfl⟩ := List.exists_cons_of_ne_nil hne
        exact hmark hmark'
      · obtain ⟨rfl, -⟩ := hcloses'.unique hcloses
        rw [kind?_placeholder, if_pos (List.all_eq_true.mpr hname)] at makes
        cases makes
    · intro name' after hcloses' _
      rw [(hcloses'.unique hcloses).1]
      rfl
    · intro hempty
      exact absurd (hempty name cs hcloses) hne
  | unterminated =>
    obtain rfl := fits
    -- A longer match would win.
    have hempty : cs.head? ≠ some '!' → ∀ name after, Closes cs name after → name = [] := by
      intro hmark name after hcloses
      by_contra hne
      have hmatch : Token.placeholder.Matches ('$' :: '\x7b' :: (name ++ ['\x7d'])) := by
        refine ⟨name, hne, ?_, hcloses.2, rfl⟩
        obtain ⟨c, name, rfl⟩ := List.exists_cons_of_ne_nil hne
        rw [hcloses.1] at hmark
        exact hmark
      have hlength := longest _ _ hmatch ⟨after, by simp [hcloses.1]⟩
      simp at hlength
    have hmark : cs.head? ≠ some '!' := by
      intro hmark
      obtain ⟨cs, rfl⟩ := List.head?_eq_some_iff.mp hmark
      exact absurd (longest .escaped ['$', '\x7b', '!'] rfl ⟨cs, rfl⟩) (by decide)
    refine ⟨cs, rfl, ?_, ?_, fun _ => rfl⟩
    · rintro (hmark' | ⟨name, after, hcloses, hne, -⟩)
      · exact hmark hmark'
      · exact hne (hempty hmark name after hcloses)
    · intro name after hcloses hne
      exact absurd (hempty hmark name after hcloses) hne
  | escaped | dollar | text => cases makes

/-! ### The grammar -/

/-- How segments from a byte on make up characters: nothing is lost, and the segments that are no
text are the openings. -/
structure Splits (offset : Nat) (cs : List Char) (ss : List Segment) : Prop where
  written : ∀ s ∈ ss, s.Written
  raw_ne_nil : ∀ s ∈ ss, s.raw.toList ≠ []
  flatMap_raw : ss.flatMap (·.raw.toList) = cs
  offset_eq : ∀ before s after, ss = before ++ s :: after →
    s.offset = offset + Text.byteSize (before.flatMap (·.raw.toList))
  wellOpened : ∀ i rest, Opens cs i rest → WellOpened rest
  begins_iff : ∀ i kind, kind ≠ .text →
    ((∃ s ∈ ss, s.kind = kind ∧ s.offset = offset + i) ↔
      ∃ rest, Opens cs i rest ∧ Begins kind rest)

/-- Characters are malformed at the first opening that should not be there. The mistake goes to the
first closing brace that stands after something, and else to the end. -/
def Blames (offset : Nat) (cs : List Char) (m : Malformed) : Prop :=
  ∃ i rest, m.offset = offset + i ∧ Opens cs i rest ∧ ¬ WellOpened rest ∧
    (∀ j rest', Opens cs j rest' → ¬ WellOpened rest' → i ≤ j) ∧
    (∀ name after, Closes rest name after → name ≠ [] →
      m.length = Text.byteSize ('$' :: '\x7b' :: (name ++ ['\x7d']))) ∧
    ((∀ name after, Closes rest name after → name = []) →
      m.length = Text.byteSize ('$' :: '\x7b' :: rest))

/-- An opening that a segment begins with is as it should be. -/
theorem Begins.wellOpened {s : Segment} (h : Begins s.kind rest) (hs : s.Written) :
    WellOpened rest := by
  cases hs with
  | dollar => exact h.elim
  | plain => exact h.elim
  | escaped => exact .inl h
  | placeholder offset name hne hname =>
    obtain ⟨-, after, hcloses⟩ := h
    exact .inr ⟨name.toList, after, hcloses, hne, List.all_eq_true.mp hname⟩

theorem Splits.le_offset {ss : List Segment} {s : Segment} (h : Splits offset cs ss) (hs : s ∈ ss) :
    offset ≤ s.offset := by
  obtain ⟨before, after, rfl⟩ := List.append_of_mem hs
  rw [h.offset_eq before s after rfl]
  exact Nat.le_add_right ..

/-- The segments that are no text follow each other as the openings do. -/
theorem Splits.cons {token : Token} {cs : List Char} {kind : SegmentKind} {ss : List Segment}
    (takes : token.Takes raw cs) (makes : token.kind? raw = some kind)
    (h : Splits (offset + Text.byteSize raw) cs ss) :
    Splits offset (raw ++ cs) (⟨kind, offset, String.ofList raw⟩ :: ss) where
  written := List.forall_mem_cons.mpr ⟨takes.fits.written makes offset, h.written⟩
  raw_ne_nil := List.forall_mem_cons.mpr
    ⟨by rw [String.toList_ofList]; exact takes.fits.ne_nil, h.raw_ne_nil⟩
  flatMap_raw := by rw [List.flatMap_cons, h.flatMap_raw, String.toList_ofList]
  offset_eq before s after heq := by
    cases before with
    | nil =>
      obtain ⟨rfl, -⟩ := List.cons.inj heq
      rfl
    | cons first before =>
      obtain ⟨rfl, htail⟩ := List.cons.inj heq
      rw [h.offset_eq before s after htail, List.flatMap_cons, Text.byteSize_append,
        String.toList_ofList, Nat.add_assoc]
  wellOpened i rest hopens := by
    -- An opening is at the start of the first piece or in what follows it, never inside.
    rcases (takes.opens makes).mp hopens with ⟨-, -, hbegins⟩ | ⟨j, -, hopens⟩
    · exact hbegins.wellOpened (takes.fits.written makes offset)
    · exact h.wellOpened j rest hopens
  begins_iff i kind' hkind := by
    constructor
    · rintro ⟨s, hs, rfl, hoffset⟩
      rcases List.mem_cons.mp hs with rfl | hs
      · obtain ⟨tail, rest, rfl, -, heq, hbegins⟩ := takes.fits.begins makes hkind cs
        have hi : i = 0 := Nat.left_eq_add.mp hoffset
        exact ⟨rest, (takes.opens makes).mpr (.inl ⟨hi, congrArg ('$' :: ·) heq, hbegins⟩), hbegins⟩
      · obtain ⟨j, hj⟩ := Nat.exists_eq_add_of_le (h.le_offset hs)
        obtain ⟨rest, hopens, hbegins⟩ := (h.begins_iff j s.kind hkind).mp ⟨s, hs, rfl, hj⟩
        exact ⟨rest, (takes.opens makes).mpr (.inr ⟨j, by omega, hopens⟩), hbegins⟩
    · rintro ⟨rest, hopens, hbegins⟩
      rcases (takes.opens makes).mp hopens with ⟨rfl, -, hbegins'⟩ | ⟨j, rfl, hopens'⟩
      · exact ⟨_, List.mem_cons_self, hbegins'.unique hbegins, rfl⟩
      · obtain ⟨s, hs, hkind', hoffset⟩ := (h.begins_iff j kind' hkind).mpr ⟨rest, hopens', hbegins⟩
        exact ⟨s, List.mem_cons_of_mem _ hs, hkind', by omega⟩

/-- What the longest match makes of characters is what their openings say. -/
theorem Lexes.grammar {result : Except Malformed (List Segment)} (h : Lexes offset cs result) :
    (∀ ss, result = .ok ss → Splits offset cs ss) ∧
      ∀ m, result = .error m → Blames offset cs m := by
  induction h with
  | done offset =>
    refine ⟨?_, fun m h => nomatch h⟩
    rintro _ ⟨⟩
    exact
      { written := fun s hs => absurd hs List.not_mem_nil
        raw_ne_nil := fun s hs => absurd hs List.not_mem_nil
        flatMap_raw := rfl
        offset_eq := fun before s after heq => by cases before <;> cases heq
        wellOpened := fun i rest hopens => absurd hopens not_opens_nil
        begins_iff := fun i kind _ => by simp [not_opens_nil] }
  | @segment offset token raw rest kind result takes makes _ ih =>
    constructor
    · intro ss hss
      obtain ⟨ss', rfl, rfl⟩ := exists_of_map_cons hss
      exact (ih.1 ss' rfl).cons takes makes
    · intro m hm
      cases result with
      | ok ss => cases hm
      | error m' =>
        obtain rfl := Except.error.inj hm
        -- The bad opening is the same, further on: an opening at the start of the piece is a good
        -- one.
        obtain ⟨i, rest', hoffset, hopens, hnot, hleast, hlength⟩ := ih.2 m' rfl
        refine ⟨Text.byteSize raw + i, rest', by omega, ?_, hnot, ?_, hlength⟩
        · exact (takes.opens makes).mpr (.inr ⟨i, rfl, hopens⟩)
        · intro j rest'' hopens' hnot'
          rcases (takes.opens makes).mp hopens' with ⟨-, -, hbegins⟩ | ⟨k, rfl, hopens''⟩
          · exact absurd (hbegins.wellOpened (takes.fits.written makes offset)) hnot'
          · exact Nat.add_le_add_left (hleast k rest'' hopens'' hnot') _
  | @malformed offset token raw rest takes makes =>
    refine ⟨fun ss h => (nomatch h), ?_⟩
    rintro _ ⟨⟩
    obtain ⟨rest', heq, hnot, hlength⟩ := takes.not_wellOpened makes
    exact ⟨0, rest', rfl, ⟨[], heq, rfl⟩, hnot, fun j _ _ _ => Nat.zero_le j, hlength⟩

/-- The longest match cuts a format, and fails just if an opening is no escape and no start of a
placeholder. Where it succeeds, the segments are the format, in order, and those that are no text
are its openings; where it fails, it says where the first bad opening is and how far it goes. -/
theorem segments_grammar (format : String) :
    Lexes 0 format.toList (segments format) ∧
      ((∃ ss, segments format = .ok ss) ↔
        ∀ i rest, Opens format.toList i rest → WellOpened rest) ∧
      (∀ ss, segments format = .ok ss → Splits 0 format.toList ss) ∧
      ∀ m, segments format = .error m → Blames 0 format.toList m := by
  have hlexes : Lexes 0 format.toList (segments format) := segmentsFrom_lexes 0 format.toList
  refine ⟨hlexes, ⟨?_, ?_⟩, hlexes.grammar.1, hlexes.grammar.2⟩
  · rintro ⟨ss, hss⟩
    exact (hlexes.grammar.1 ss hss).wellOpened
  · intro hopened
    cases hsegments : segments format with
    | ok ss => exact ⟨ss, rfl⟩
    | error m =>
      obtain ⟨i, rest, -, hopens, hnot, -⟩ := hlexes.grammar.2 m hsegments
      exact absurd (hopened i rest hopens) hnot

end StackTemplate.Format
