import Mathlib.Order.Bounds.Basic
import StackTemplate.Proofs.Fold.Idempotence
import StackTemplate.Proofs.Format.Splicing

/-!
# The largest set of parameters that can go back

Rounds of taking out shadowed parameters come to an end (`exists_rounds`). What is left then is the
largest of all sets of parameters that can go back into the format together, whatever order the
parameters are in and however they shadow each other (`names_settled_isGreatest`). The main
statement says what becomes of each interpolated string of a tree (`reinline_greatest`).
-/

namespace StackTemplate.Fold

open StackTemplate.Tree

variable {t t' : Tree} {f : NodeId → NodeId} {x c : NodeId} {e : Expr} {format : String}
  {parameters : Table NodeId} {targets : List (String × String)} {names : Set String}

/-! ### Rounds -/

/-- Takes the shadowed parameters out of the targets. -/
def round (parameters : Table NodeId) (targets : List (String × String)) : List (String × String) :=
  targets.filter fun e => !isShadowed parameters targets e.2

theorem settle_eq_iterate (parameters : Table NodeId) (rounds : Nat)
    (targets : List (String × String)) :
    settle parameters rounds targets = (round parameters)^[rounds] targets := by
  induction rounds generalizing targets with
  | zero => rfl
  | succ rounds ih =>
    rw [settle, ih, Function.iterate_succ_apply]
    rfl

/-- The rounds up to the first in which nothing is shadowed give the settled set. -/
theorem exists_rounds (parameters : Table NodeId) (targets : List (String × String)) :
    ∃ n, (round parameters)^[n] targets = settled parameters targets ∧
      ∀ m < n, ¬ Unshadowed parameters ((round parameters)^[m] targets) := by
  classical
  have hlast : Unshadowed parameters ((round parameters)^[targets.length] targets) := by
    rw [← settle_eq_iterate]
    exact settle_unshadowed (Nat.le_refl _)
  have hend : ∃ n, Unshadowed parameters ((round parameters)^[n] targets) := ⟨_, hlast⟩
  refine ⟨Nat.find hend, ?_, fun m hm => Nat.find_min hend hm⟩
  -- the rounds after the first quiet one change nothing
  obtain ⟨k, hk⟩ := Nat.exists_eq_add_of_le (Nat.find_min' hend hlast)
  rw [settled, settle_eq_iterate, hk, Nat.add_comm, Function.iterate_add_apply,
    ← settle_eq_iterate parameters k, settle_of_unshadowed (Nat.find_spec hend)]

/-! ### Sets that can go back -/

/-- The text of the placeholder that a parameter can be written as. -/
def inlineText? (t : Tree) (parameters : Table NodeId) (name : String) : Option String :=
  ((parameters.get? name).bind t.expr?).bind inlineTarget?

theorem mem_inlinable_iff {name text : String} :
    (name, text) ∈ inlinable t parameters ↔ inlineText? t parameters name = some text := by
  rw [mem_inlinable, inlineText?]
  simp only [Option.bind_eq_some_iff, Table.get?_eq_some]
  constructor
  · rintro ⟨id, e, hentry, he, htext⟩
    exact ⟨e, ⟨id, hentry, he⟩, htext⟩
  · rintro ⟨e, ⟨id, hentry, he⟩, htext⟩
    exact ⟨id, e, hentry, he, htext⟩

/-- The parameters of a set can be written as placeholders, and no placeholder of theirs is then
read as a parameter outside the set, by its name or as an attribute of it. -/
structure GoesBack (t : Tree) (parameters : Table NodeId) (names : Set String) : Prop where
  isSome : ∀ name ∈ names, (inlineText? t parameters name).isSome
  text_mem : ∀ name ∈ names, ∀ text, inlineText? t parameters name = some text →
    text ∈ parameters.keys → text ∈ names
  owner_mem : ∀ name ∈ names, ∀ text owner attributeName,
    inlineText? t parameters name = some text →
    Text.cutAtFirstDot? text = some (owner, attributeName) → owner ∈ parameters.keys →
    owner ∈ names

/-- A set of targets without shadowed ones, by the names alone. -/
theorem unshadowed_iff : Unshadowed parameters targets ↔
    ∀ e ∈ targets, (e.2 ∈ parameters.keys → e.2 ∈ targets.map Prod.fst) ∧
      ∀ owner attributeName, Text.cutAtFirstDot? e.2 = some (owner, attributeName) →
        owner ∈ parameters.keys → owner ∈ targets.map Prod.fst := by
  refine forall₂_congr fun e _ => ?_
  rw [← Bool.not_eq_true, isShadowed_eq_true, not_or]
  simp only [stays_eq_true, not_and, not_not, not_exists]

theorem goesBack_of_unshadowed (hsubset : targets ⊆ inlinable t parameters)
    (h : Unshadowed parameters targets) :
    GoesBack t parameters {name | name ∈ targets.map Prod.fst} := by
  have htarget : ∀ name ∈ targets.map Prod.fst, ∃ text, (name, text) ∈ targets ∧
      inlineText? t parameters name = some text := by
    intro name hname
    obtain ⟨⟨name, text⟩, hmem, rfl⟩ := List.mem_map.mp hname
    exact ⟨text, hmem, mem_inlinable_iff.mp (hsubset hmem)⟩
  refine ⟨fun name hname => ?_, fun name hname text htext hkey => ?_,
    fun name hname text owner attributeName htext hcut hkey => ?_⟩ <;>
    obtain ⟨text', hmem, htext'⟩ := htarget name hname
  · rw [htext']
    rfl
  · obtain rfl := Option.some.inj (htext.symm.trans htext')
    exact (unshadowed_iff.mp h _ hmem).1 hkey
  · obtain rfl := Option.some.inj (htext.symm.trans htext')
    exact (unshadowed_iff.mp h _ hmem).2 owner attributeName hcut hkey

/-- A set that can go back is a set of targets without shadowed ones. -/
theorem GoesBack.exists_unshadowed (h : GoesBack t parameters names) :
    ∃ kept, kept ⊆ inlinable t parameters ∧ Unshadowed parameters kept ∧
      ∀ name, name ∈ kept.map Prod.fst ↔ name ∈ names := by
  classical
  have hnames : ∀ name, name ∈ ((inlinable t parameters).filter (·.1 ∈ names)).map Prod.fst ↔
      name ∈ names := by
    intro name
    rw [List.mem_map]
    constructor
    · rintro ⟨e, he, rfl⟩
      simpa using (List.mem_filter.mp he).2
    · intro hname
      obtain ⟨text, htext⟩ := Option.isSome_iff_exists.mp (h.isSome name hname)
      exact ⟨(name, text), List.mem_filter.mpr ⟨mem_inlinable_iff.mpr htext, by simpa using hname⟩,
        rfl⟩
  refine ⟨(inlinable t parameters).filter (·.1 ∈ names), List.filter_subset_self _, ?_, hnames⟩
  rw [unshadowed_iff]
  rintro ⟨name, text⟩ he
  obtain ⟨hmem, hname⟩ := List.mem_filter.mp he
  have hname : name ∈ names := by simpa using hname
  have htext := mem_inlinable_iff.mp hmem
  refine ⟨fun hkey => (hnames text).mpr (h.text_mem name hname text htext hkey),
    fun owner attributeName hcut hkey => (hnames owner).mpr ?_⟩
  exact h.owner_mem name hname text owner attributeName htext hcut hkey

/-- The settled parameters are the largest set that can go back. -/
theorem names_settled_isGreatest (t : Tree) (parameters : Table NodeId) :
    IsGreatest {names | GoesBack t parameters names}
      {name | name ∈ (settled parameters (inlinable t parameters)).map Prod.fst} := by
  constructor
  · exact goesBack_of_unshadowed (settled_sublist _ _).subset (settled_unshadowed _ _)
  · intro names hnames name hname
    obtain ⟨kept, hsubset, hkept, hiff⟩ := GoesBack.exists_unshadowed hnames
    exact List.map_subset Prod.fst (subset_settled hsubset hkept) ((hiff name).mpr hname)

/-! ### The new format -/

/-- A piece of a format when some parameters have gone back: their placeholders have new texts, and
all else is as it was. -/
def rewritten (t : Tree) (parameters : Table NodeId) (names : List String) (p : Format.Segment) :
    String :=
  match p.placeholder? with
  | some name =>
    if name ∈ names then Format.placeholderText ((inlineText? t parameters name).getD "") else p.raw
  | none => p.raw

theorem lookup_of_subset (hsubset : targets ⊆ inlinable t parameters) (name : String) :
    targets.lookup name =
      if name ∈ targets.map Prod.fst then inlineText? t parameters name else none := by
  split
  · next hname =>
    cases hlookup : targets.lookup name with
    | none =>
      obtain ⟨⟨name', text⟩, hmem, rfl⟩ := List.mem_map.mp hname
      have hne := List.lookup_eq_none_iff.mp hlookup _ hmem
      simp at hne
    | some text => exact (mem_inlinable_iff.mp (hsubset (mem_of_lookup hlookup))).symm
  · next hname =>
    refine Option.eq_none_iff_forall_ne_some.mpr fun text hlookup => hname ?_
    exact List.mem_map_of_mem (mem_of_lookup hlookup)

theorem replacePlaceholders_eq {pieces : List Format.Segment}
    (hcut : Format.segments format = .ok pieces) (hsubset : targets ⊆ inlinable t parameters) :
    Format.replacePlaceholders (fun name => (targets.lookup name).map Format.placeholderText)
      format = .ok (String.join (pieces.map (rewritten t parameters (targets.map Prod.fst)))) := by
  have hpiece : ∀ p : Format.Segment, (p.placeholder?.bind fun name =>
      (targets.lookup name).map Format.placeholderText).getD p.raw =
        rewritten t parameters (targets.map Prod.fst) p := by
    intro p
    unfold rewritten
    cases p.placeholder? with
    | none => rfl
    | some name =>
      rw [Option.bind_some, lookup_of_subset hsubset]
      by_cases hname : name ∈ targets.map Prod.fst
      · obtain ⟨⟨name', text⟩, hmem, rfl⟩ := List.mem_map.mp hname
        simp [hname, mem_inlinable_iff.mp (hsubset hmem)]
      · simp [hname]
  rw [Format.replacePlaceholders, hcut]
  simp only [hpiece]
  rfl

theorem replacePlaceholders_settled (t : Tree) (parameters : Table NodeId)
    {pieces : List Format.Segment} (hcut : Format.segments format = .ok pieces) :
    Format.replacePlaceholders (fun name =>
        ((settled parameters (inlinable t parameters)).lookup name).map Format.placeholderText)
      format = .ok (String.join (pieces.map (rewritten t parameters
        ((settled parameters (inlinable t parameters)).map Prod.fst)))) :=
  replacePlaceholders_eq hcut (settled_sublist _ _).subset

theorem filter_not_contains (parameters : Table NodeId) (names : List String) :
    (parameters.filter fun name _ => !names.contains name) =
      parameters.filter fun name _ => decide (name ∉ names) := by
  congr 1
  funext name _
  simp

/-- What a string becomes, replaced or not. -/
theorem inlined_sub_eq {pieces : List Format.Segment} (hcut : Format.segments format = .ok pieces)
    (hown : Format.hasLocalAttribute format parameters = false) :
    inlined t (.sub format parameters) =
      .sub (String.join (pieces.map
          (rewritten t parameters ((settled parameters (inlinable t parameters)).map Prod.fst))))
        (parameters.filter fun name _ =>
          decide (name ∉ (settled parameters (inlinable t parameters)).map Prod.fst)) := by
  have hformat := replacePlaceholders_settled t parameters hcut
  by_cases hnone : settled parameters (inlinable t parameters) = []
  · have hsame : Format.replacePlaceholders (fun name =>
        ((settled parameters (inlinable t parameters)).lookup name).map Format.placeholderText)
        format = .ok format := by
      rw [hnone]
      exact Format.replacePlaceholders_none hcut
    have hempty : reinlined? format parameters (inlinable t parameters) = none := by
      simp [reinlined?, hnone]
    rw [inlined, hempty, Option.getD_none, ← Except.ok.inj (hsame.symm.trans hformat)]
    congr 1
    apply Table.ext_entries
    simp [Table.filter, hnone]
  · rw [inlined, reinlined?_eq_some.mpr ⟨hown, hnone, _, hformat, rfl⟩, Option.getD_some,
      filter_not_contains]

/-- A string is replaced just when something can go back. -/
theorem reinlinable_iff {pieces : List Format.Segment}
    (hcut : Format.segments format = .ok pieces)
    (hown : Format.hasLocalAttribute format parameters = false) :
    Reinlinable t (.sub format parameters) ↔ settled parameters (inlinable t parameters) ≠ [] := by
  constructor
  · rintro ⟨_, _, heq, hsome⟩
    cases heq
    obtain ⟨e, he⟩ := Option.isSome_iff_exists.mp hsome
    exact (reinlined?_eq_some.mp he).2.1
  · intro hne
    have hformat := replacePlaceholders_settled t parameters hcut
    exact ⟨format, parameters, rfl,
      Option.isSome_of_eq_some (reinlined?_eq_some.mpr ⟨hown, hne, _, hformat, rfl⟩)⟩

/-! ### Strings within reach -/

/-- A parameter that is neither a reference nor an attribute look-up stays. -/
theorem mem_children_inlined (hc : c ∈ e.children) (hkeep : (t.expr? c).bind inlineTarget? = none) :
    c ∈ (inlined t e).children := by
  rcases inlined_cases t e with ⟨hsame, -⟩ | ⟨format, parameters, rfl, hinlined⟩
  · rwa [hsame]
  obtain ⟨-, -, newFormat, -, heq⟩ := reinlined?_eq_some.mp hinlined
  obtain ⟨⟨name, id⟩, hentry, rfl⟩ := List.mem_map.mp hc
  rw [heq]
  refine List.mem_map.mpr ⟨(name, id), List.mem_filter.mpr ⟨hentry, ?_⟩, rfl⟩
  rw [Bool.not_eq_true', ← Bool.not_eq_true, List.contains_iff_mem]
  intro hgoes
  obtain ⟨⟨name', text⟩, hmem, rfl⟩ := List.mem_map.mp hgoes
  have htext := mem_inlinable_iff.mp ((settled_sublist _ _).subset hmem)
  rw [inlineText?, Table.get?_eq_some.mpr hentry, Option.bind_some, hkeep] at htext
  cases htext

theorem inlineTarget?_of_child (hc : c ∈ e.children) : inlineTarget? e = none := by
  cases e with
  | ref name => cases hc
  | getAtt name attributeName => cases hc
  | _ => rfl

/-- All expressions but references and attribute look-ups stay within reach. -/
theorem Inlined.remains (h : Inlined t t' f) (hwf : t.WellFormed) (hx : x ∈ t.exprs)
    (hkeep : (t.expr? x).bind inlineTarget? = none) : f x ∈ t'.exprs := by
  obtain ⟨hreach, hsome⟩ := hwf.mem_exprs.mp hx
  -- on the way down to it there is nothing else, since those two have no operands
  induction hreach with
  | refl =>
    rw [hwf.expr?_root] at hsome
    cases hsome
  | @tail p c hp hc ih =>
    cases he : t.expr? p with
    | none =>
      obtain ⟨hp', hkind⟩ := h.host p hp he
      have hslot : c ∈ t.exprSlots p := by
        rcases mem_children.mp hc with hc | hc
        · exact hc
        · obtain ⟨d, hd⟩ := Option.isSome_iff_exists.mp (hwf.item_slot p c hp hc)
          rw [expr?_of_decl? hd] at hsome
          cases hsome
      have hslot' : f c ∈ t'.exprSlots p := by
        rw [(h.slots hwf hp he).1]
        exact List.mem_map_of_mem hslot
      exact h.wellFormed.mem_exprs.mpr ⟨hp'.tail (mem_children.mpr (.inl hslot')),
        h.wellFormed.expr_slot p (f c) hp' hslot'⟩
    | some e =>
      have hsomep : (t.expr? p).isSome := Option.isSome_of_eq_some he
      have hpx := hwf.mem_exprs.mpr ⟨hp, hsomep⟩
      rw [children_of_expr? he] at hc
      have hkeepp : (t.expr? p).bind inlineTarget? = none := by
        rw [he, Option.bind_some, inlineTarget?_of_child hc]
      exact (h.remains_child hwf ⟨hpx, ih hpx hkeepp hsomep⟩ he (mem_children_inlined hc hkeep)).2

/-- Turning back leads to a new node just from the strings that can be replaced. What was there
stays where it was in the source. -/
theorem reinline_follows (hwf : t.WellFormed) :
    ∃ after f, reinline t = .ok after ∧ Inlined t after.2 f ∧
      (∀ x ∈ t.exprs, ∀ e, t.expr? x = some e → (f x = x ↔ ¬ Reinlinable t e)) ∧
      ∀ x < t.size, after.2.span x = t.span x := by
  obtain ⟨after, owner, hrun, hs, hanswers⟩ := stageReinline_staged hwf
  refine ⟨after.2.apply after.1, _, by rw [reinline, hrun]; rfl, inlined_apply hs hwf hanswers,
    fun x hx e he => ?_, fun x hx => (hs.span_apply hwf x).trans (hs.keeps.span_eq x hx)⟩
  have hreach := (hwf.mem_exprs.mp hx).1
  have hanswer := hanswers x hx
  rw [follow_reinlined hs hwf hanswers hreach]
  cases hlookup : after.1.lookup x with
  | none =>
    rw [hlookup] at hanswer
    simpa using hanswer e he
  | some y =>
    rw [hlookup] at hanswer
    obtain ⟨hnew, e', he', hcan, -⟩ := hanswer
    obtain rfl := Option.some.inj (he.symm.trans he')
    have hne : y ≠ x := (Nat.lt_of_lt_of_le (hwf.lt_size hreach) hnew).ne'
    simpa [hne] using hcan

/-- Turning parameters back succeeds, and every interpolated string with a well-formed format and
no placeholder for an attribute of its own parameters keeps its place. The rounds in which shadowed
parameters are taken out come to an end, and the parameters left then are the largest set that can
go back. The string keeps the other parameters in their order; in its format the placeholders of
the set have their new texts, and all else is as it was. It is left alone just when the set is
empty. -/
theorem reinline_greatest (hwf : t.WellFormed) :
    ∃ after f, reinline t = .ok after ∧ Rewired t after.2 f ∧
      ∀ x ∈ t.exprs, ∀ format parameters pieces, t.expr? x = some (.sub format parameters) →
        Format.segments format = .ok pieces → Format.hasLocalAttribute format parameters = false →
        ∃ names : List String,
          (∃ n, ((round parameters)^[n] (inlinable t parameters)).map Prod.fst = names ∧
            Unshadowed parameters ((round parameters)^[n] (inlinable t parameters)) ∧
            ∀ m < n, ¬ Unshadowed parameters ((round parameters)^[m] (inlinable t parameters))) ∧
          IsGreatest {names | GoesBack t parameters names} {name | name ∈ names} ∧
          f x ∈ after.2.exprs ∧
          after.2.expr? (f x) = some (.sub (String.join (pieces.map (rewritten t parameters names)))
            ((parameters.filter fun name _ => decide (name ∉ names)).mapValues f)) ∧
          (f x = x ↔ names = []) := by
  obtain ⟨after, f, hrun, hinlined, hfollow, -⟩ := reinline_follows hwf
  refine ⟨after, f, hrun, hinlined.toRewired, fun x hx format parameters pieces he hcut hown => ?_⟩
  obtain ⟨n, hrounds, hfirst⟩ := exists_rounds parameters (inlinable t parameters)
  have hx' : f x ∈ after.2.exprs := by
    refine hinlined.remains hwf hx ?_
    rw [he]
    rfl
  refine ⟨(settled parameters (inlinable t parameters)).map Prod.fst,
    ⟨n, by rw [hrounds], hrounds ▸ settled_unshadowed _ _, hfirst⟩,
    names_settled_isGreatest t parameters, hx', ?_, ?_⟩
  · rw [hinlined.expr_eq x _ he hx' hx, inlined_sub_eq hcut hown]
    rfl
  · rw [hfollow x hx _ he, reinlinable_iff hcut hown, not_not, List.map_eq_nil_iff]

/-- The parameters of a string of which two have each other's names, one is shadowed by a literal
that stays, and one by that one. -/
def swappedParameters : Table NodeId :=
  ⟨[("E", 4), ("A", 0), ("C", 2), ("B", 1), ("D", 3)], by decide⟩

/-- A module with that string. -/
def swapped : Tree where
  nodes := #[
    { kind := .expr (.ref "B"), span := default, parent := some 5 },
    { kind := .expr (.ref "A"), span := default, parent := some 5 },
    { kind := .expr (.getAtt "D" "Arn"), span := default, parent := some 5 },
    { kind := .expr (.literal (.string "d")), span := default, parent := some 5 },
    { kind := .expr (.ref "C"), span := default, parent := some 5 },
    { kind := .expr (.sub "${A}-${B}-${C}-${D}-${E}$" swappedParameters), span := default,
      parent := some 6 },
    { kind := .decl { localName := "V", kind := .var none 5 }, span := default,
      parent := some 7 },
    { kind := .module { name := "swapped", items := [6] }, span := default }]
  root := 7

/-- The two go back together. Of the others the first round keeps one, and the second the one that
it shadows then. -/
theorem swapped_greatest : swapped.WellFormed ∧
    ∃ after f, reinline swapped = .ok after ∧
      IsGreatest {names | GoesBack swapped swappedParameters names}
        {name | name ∈ ["A", "B"]} ∧
      f 5 ≠ 5 ∧ after.2.expr? (f 5) = some (.sub "${B}-${A}-${C}-${D}-${E}$"
        ((Table.mk [("E", 4), ("C", 2), ("D", 3)] (by decide)).mapValues f)) := by
  have hwf : swapped.WellFormed := by
    refine .ofAll (m := { name := "swapped", items := [6] }) rfl rfl ?_
    decide +kernel
  refine ⟨hwf, ?_⟩
  obtain ⟨after, f, hrun, -, hstrings⟩ := reinline_greatest hwf
  have hpieces : ((Format.segments "${A}-${B}-${C}-${D}-${E}$").toOption.map fun pieces =>
      String.join (pieces.map (rewritten swapped swappedParameters ["A", "B"]))) =
        some "${B}-${A}-${C}-${D}-${E}$" := by
    decide +kernel
  obtain ⟨pieces, hcut, hformat⟩ := Option.map_eq_some_iff.mp hpieces
  obtain ⟨names, ⟨n, hnames, hquiet, hfirst⟩, hgreatest, -, hexpr, hsame⟩ :=
    hstrings 5 (by decide +kernel) _ swappedParameters pieces rfl (eq_ok_of_toOption hcut)
      (by decide +kernel)
  have hbefore : ∀ m < 2,
      ¬ Unshadowed swappedParameters ((round swappedParameters)^[m]
        (inlinable swapped swappedParameters)) := by
    unfold Unshadowed
    decide +kernel
  have hafter : Unshadowed swappedParameters ((round swappedParameters)^[2]
      (inlinable swapped swappedParameters)) := by
    unfold Unshadowed
    decide +kernel
  obtain rfl : n = 2 := by
    have hge : ¬ n < 2 := fun hlt => hbefore n hlt hquiet
    have hle : ¬ 2 < n := fun hlt => hfirst 2 hlt hafter
    omega
  obtain rfl : names = ["A", "B"] := by
    rw [← hnames]
    decide +kernel
  refine ⟨after, f, hrun, hgreatest, fun h => absurd (hsame.mp h) (by decide), ?_⟩
  rw [hexpr, hformat]
  congr 3

end StackTemplate.Fold
