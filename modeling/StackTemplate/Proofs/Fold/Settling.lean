import StackTemplate.Fold.Reinline
import StackTemplate.Proofs.Text.Basic
import StackTemplate.Proofs.Tree.Slots

/-!
# Which parameters go back into the format

A set of parameters can go back together if none of their placeholders would then be read as a
parameter that stays, or as an attribute of one. Rounds of taking out shadowed parameters end in
such a set (`settled_unshadowed`), and no other one has a parameter that it has not
(`subset_settled`). So once they have gone back, nothing else can (`settled_eq_nil`).
-/

namespace StackTemplate.Fold

open StackTemplate.Tree

variable {t : Tree} {format : String} {parameters left : Table NodeId}
  {targets kept rest : List (String × String)}

/-! ### Settled sets -/

/-- No placeholder of the set is read as a parameter that stays, or as an attribute of one. -/
def Unshadowed (parameters : Table NodeId) (targets : List (String × String)) : Prop :=
  ∀ e ∈ targets, isShadowed parameters targets e.2 = false

theorem stays_eq_true {name : String} : stays parameters targets name = true ↔
    name ∈ parameters.keys ∧ name ∉ targets.map Prod.fst := by
  rw [stays, Bool.and_eq_true, Table.contains, List.contains_iff_mem, Bool.not_eq_true',
    ← Bool.not_eq_true, List.contains_iff_mem]

theorem isShadowed_eq_true {target : String} : isShadowed parameters targets target = true ↔
    stays parameters targets target = true ∨
      ∃ owner attributeName, Text.cutAtFirstDot? target = some (owner, attributeName) ∧
        stays parameters targets owner = true := by
  rw [isShadowed, Bool.or_eq_true]
  refine or_congr_right ?_
  cases Text.cutAtFirstDot? target with
  | none => simp
  | some cut =>
    obtain ⟨owner, attributeName⟩ := cut
    simp

/-- The parameters that stay when others go. -/
theorem mem_keys_filter {name : String} :
    name ∈ (parameters.filter fun name _ => !(targets.map Prod.fst).contains name).keys ↔
      stays parameters targets name = true := by
  rw [Table.keys_filter parameters fun name => !(targets.map Prod.fst).contains name,
    List.mem_filter, stays_eq_true]
  simp

theorem mem_of_lookup {name target : String} (h : targets.lookup name = some target) :
    (name, target) ∈ targets := by
  obtain ⟨before, after, rfl, -⟩ := List.lookup_eq_some_iff.mp h
  exact List.mem_append_right _ (List.mem_cons_self ..)

/-- A parameter that goes is gone. -/
theorem get?_filter_eq_none {name target : String} (h : (name, target) ∈ targets) :
    (parameters.filter fun name _ => !(targets.map Prod.fst).contains name).get? name = none := by
  rw [Table.get?_eq_none, mem_keys_filter, stays_eq_true]
  exact fun hstays => hstays.2 (List.mem_map_of_mem h)

/-- If the parameters that stay are fewer, fewer placeholders are shadowed. -/
theorem isShadowed_mono {target : String}
    (hstays : ∀ name, stays left rest name = true → stays parameters targets name = true)
    (h : isShadowed left rest target = true) : isShadowed parameters targets target = true := by
  rw [isShadowed_eq_true] at h ⊢
  rcases h with h | ⟨owner, attributeName, hcut, h⟩
  · exact .inl (hstays target h)
  · exact .inr ⟨owner, attributeName, hcut, hstays owner h⟩

theorem isShadowed_of_subset {target : String} (hsubset : kept ⊆ targets)
    (h : isShadowed parameters kept target = false) :
    isShadowed parameters targets target = false := by
  rw [Bool.eq_false_iff] at h ⊢
  refine fun hshadowed => h (isShadowed_mono (fun name hname => ?_) hshadowed)
  obtain ⟨hkey, hnot⟩ := stays_eq_true.mp hname
  exact stays_eq_true.mpr ⟨hkey, fun hmem => hnot (List.map_subset Prod.fst hsubset hmem)⟩

theorem settle_sublist (parameters : Table NodeId) (rounds : Nat)
    (targets : List (String × String)) : (settle parameters rounds targets).Sublist targets := by
  induction rounds generalizing targets with
  | zero => exact .refl _
  | succ rounds ih => exact (ih _).trans List.filter_sublist

theorem settled_sublist (parameters : Table NodeId) (targets : List (String × String)) :
    (settled parameters targets).Sublist targets :=
  settle_sublist parameters _ targets

/-- Which parameters settle depends on the names of all parameters, not on their values. -/
theorem settled_congr (h : left.keys = parameters.keys) (targets : List (String × String)) :
    settled left targets = settled parameters targets := by
  have hshadowed : isShadowed left = isShadowed parameters := by
    funext targets target
    unfold isShadowed stays Table.contains
    rw [h]
  have hrounds : ∀ rounds targets, settle left rounds targets = settle parameters rounds targets := by
    intro rounds
    induction rounds with
    | zero => exact fun _ => rfl
    | succ rounds ih =>
      intro targets
      rw [settle, settle, hshadowed]
      exact ih _
  exact hrounds targets.length targets

/-- A round takes nothing out of a set without shadowed parameters. -/
theorem filter_eq_self_iff :
    (targets.filter fun e => !isShadowed parameters targets e.2) = targets ↔
      Unshadowed parameters targets := by
  rw [List.filter_eq_self]
  exact forall₂_congr fun e _ => by rw [Bool.not_eq_true']

theorem settle_of_unshadowed (h : Unshadowed parameters targets) (rounds : Nat) :
    settle parameters rounds targets = targets := by
  induction rounds with
  | zero => rfl
  | succ rounds ih => rw [settle, filter_eq_self_iff.mpr h, ih]

/-- Each round takes something out, or there is nothing to take out. -/
theorem settle_unshadowed {rounds : Nat} (h : targets.length ≤ rounds) :
    Unshadowed parameters (settle parameters rounds targets) := by
  induction rounds generalizing targets with
  | zero =>
    obtain rfl := List.length_eq_zero_iff.mp (Nat.le_zero.mp h)
    exact fun e he => absurd he List.not_mem_nil
  | succ rounds ih =>
    by_cases hstable : Unshadowed parameters targets
    · rwa [settle_of_unshadowed hstable]
    · have hlt : (targets.filter fun e => !isShadowed parameters targets e.2).length <
          targets.length := by
        refine Nat.lt_of_le_of_ne (List.length_filter_le _ _) fun heq => hstable ?_
        exact filter_eq_self_iff.mp (List.filter_sublist.eq_of_length heq)
      exact ih (by omega)

theorem settled_unshadowed (parameters : Table NodeId) (targets : List (String × String)) :
    Unshadowed parameters (settled parameters targets) :=
  settle_unshadowed (Nat.le_refl _)

/-- Rounds never take out a parameter of a set that can go back together. -/
theorem subset_settled (hsubset : kept ⊆ targets) (h : Unshadowed parameters kept) :
    kept ⊆ settled parameters targets := by
  have hrounds : ∀ rounds targets, kept ⊆ targets → kept ⊆ settle parameters rounds targets := by
    intro rounds
    induction rounds with
    | zero => exact fun _ hsubset => hsubset
    | succ rounds ih =>
      refine fun targets hsubset => ih _ fun e he => List.mem_filter.mpr ⟨hsubset he, ?_⟩
      rw [isShadowed_of_subset hsubset (h e he)]
      rfl
  exact hrounds targets.length targets hsubset

/-- When the settled parameters have gone back, no other can go back. -/
theorem settled_eq_nil
    (hleft : ∀ name, name ∈ left.keys ↔ stays parameters (settled parameters targets) name = true)
    (hrest : ∀ e ∈ rest, e ∈ targets ∧ e.1 ∉ (settled parameters targets).map Prod.fst) :
    settled left rest = [] := by
  -- The two settled sets can go back together, so the second is part of the first.
  have hstays : ∀ name, stays parameters (settled parameters targets ++ settled left rest) name =
      true → stays parameters (settled parameters targets) name = true ∧
        stays left (settled left rest) name = true := by
    intro name hname
    rw [stays_eq_true, List.map_append, List.mem_append, not_or] at hname
    obtain ⟨hkey, hfirst, hsecond⟩ := hname
    have hstays := stays_eq_true.mpr ⟨hkey, hfirst⟩
    exact ⟨hstays, stays_eq_true.mpr ⟨(hleft name).mpr hstays, hsecond⟩⟩
  have htogether : Unshadowed parameters (settled parameters targets ++ settled left rest) := by
    intro e he
    rw [Bool.eq_false_iff]
    intro hshadowed
    rcases List.mem_append.mp he with he | he
    · have := isShadowed_mono (fun name hname => (hstays name hname).1) hshadowed
      rw [settled_unshadowed parameters targets e he] at this
      cases this
    · have := isShadowed_mono (fun name hname => (hstays name hname).2) hshadowed
      rw [settled_unshadowed left rest e he] at this
      cases this
  have hsubset : settled left rest ⊆ rest := (settled_sublist left rest).subset
  rw [List.eq_nil_iff_forall_not_mem]
  intro e he
  have hall : settled parameters targets ++ settled left rest ⊆ targets :=
    List.append_subset.mpr ⟨(settled_sublist parameters targets).subset,
      fun e he => (hrest e (hsubset he)).1⟩
  have hmem := subset_settled hall htogether (List.mem_append_right _ he)
  exact (hrest e (hsubset he)).2 (List.mem_map_of_mem hmem)

/-! ### Replacing a string -/

/-- The parameters that are plain references or attribute look-ups, with the text of each. -/
def inlinable (t : Tree) (parameters : Table NodeId) : List (String × String) :=
  parameters.entries.filterMap fun e =>
    ((t.expr? e.2).bind inlineTarget?).map fun target => (e.1, target)

theorem mem_inlinable {name target : String} : (name, target) ∈ inlinable t parameters ↔
    ∃ id e, (name, id) ∈ parameters.entries ∧ t.expr? id = some e ∧
      inlineTarget? e = some target := by
  rw [inlinable, List.mem_filterMap]
  constructor
  · rintro ⟨⟨name', id⟩, hmem, heq⟩
    obtain ⟨target', htarget, heq⟩ := Option.map_eq_some_iff.mp heq
    obtain ⟨rfl, rfl⟩ := Prod.mk.inj heq
    obtain ⟨e, he, htarget⟩ := Option.bind_eq_some_iff.mp htarget
    exact ⟨id, e, hmem, he, htarget⟩
  · rintro ⟨id, e, hmem, he, htarget⟩
    refine ⟨(name, id), hmem, ?_⟩
    rw [he, Option.bind_some, htarget]
    rfl

/-- Parameters that are expressions can be looked through. -/
theorem inlineTargets_eq (h : ∀ entry ∈ parameters.entries, (t.expr? entry.2).isSome) :
    inlineTargets t parameters.entries = .ok (inlinable t parameters) := by
  unfold inlinable
  revert h
  generalize parameters.entries = entries
  intro h
  induction entries with
  | nil => rfl
  | cons entry entries ih =>
    obtain ⟨name, id⟩ := entry
    obtain ⟨e, he⟩ := Option.isSome_iff_exists.mp (h (name, id) (List.mem_cons_self ..))
    have ih := ih fun other hother => h other (List.mem_cons_of_mem _ hother)
    rw [inlineTargets, expr_of_expr? he, ih, List.filterMap_cons, he, Option.bind_some]
    cases htarget : inlineTarget? e <;> simp [Bind.bind, Except.bind, pure, Except.pure, htarget]

/-- What replaces an interpolated string, by what can go back. -/
def reinlined? (format : String) (parameters : Table NodeId) (targets : List (String × String)) :
    Option Expr :=
  if Format.hasLocalAttribute format parameters then none
  else if (settled parameters targets).isEmpty then none
  else (reinlineWith (settled parameters targets) format parameters).toOption

theorem reinline?_eq (format : String)
    (h : ∀ entry ∈ parameters.entries, (t.expr? entry.2).isSome) :
    reinline? t format parameters = .ok (reinlined? format parameters (inlinable t parameters)) := by
  unfold reinline? reinlined?
  split
  · rfl
  · rw [inlineTargets_eq h]
    show (if (settled parameters (inlinable t parameters)).isEmpty then pure none else _) = _
    split
    · rfl
    · split <;> simp_all [Except.toOption] <;> rfl

/-- A string is replaced by one in whose format the settled parameters are placeholders. -/
theorem reinlined?_eq_some {e : Expr} : reinlined? format parameters targets = some e ↔
    Format.hasLocalAttribute format parameters = false ∧ settled parameters targets ≠ [] ∧
      ∃ newFormat, Format.replacePlaceholders (fun name =>
          ((settled parameters targets).lookup name).map Format.placeholderText) format =
            .ok newFormat ∧
        e = .sub newFormat (parameters.filter fun name _ =>
          !((settled parameters targets).map Prod.fst).contains name) := by
  unfold reinlined? reinlineWith
  split
  · next h => simp [h]
  · next h =>
    split
    · next hempty => simp [List.isEmpty_iff.mp hempty]
    · next hempty =>
      rw [List.isEmpty_iff] at hempty
      cases Format.replacePlaceholders (fun name =>
        ((settled parameters targets).lookup name).map Format.placeholderText) format with
      | error malformed => simp [Except.map, Except.toOption]
      | ok newFormat => simp [Except.map, Except.toOption, h, hempty, eq_comm]

/-- No further parameters can go back into a string that replaces another one. -/
theorem reinlined?_of_reinlined? {newFormat : String}
    (h : reinlined? format parameters (inlinable t parameters) = some (.sub newFormat left)) :
    reinlined? newFormat left (inlinable t left) = none := by
  obtain ⟨-, -, _, -, heq⟩ := reinlined?_eq_some.mp h
  cases heq
  rw [Option.eq_none_iff_forall_ne_some]
  intro e hsome
  refine (reinlined?_eq_some.mp hsome).2.1 (settled_eq_nil (fun name => mem_keys_filter) ?_)
  rintro ⟨name, target⟩ hmem
  obtain ⟨id, e, hentry, hid, htarget⟩ := mem_inlinable.mp hmem
  refine ⟨mem_inlinable.mpr ⟨id, e, (List.mem_filter.mp hentry).1, hid, htarget⟩, ?_⟩
  simpa using (List.mem_filter.mp hentry).2

end StackTemplate.Fold
