import Mathlib.Data.Set.Basic
import StackTemplate.Proofs.Fold.Settling
import StackTemplate.Proofs.Format.Splicing
import StackTemplate.Resolution.Mention

/-!
# What placeholders that went back refer to

A parameter that goes back into the format becomes a placeholder, and the resolver splits what
stands in it by its own rule: a declared name as a whole, any other name at its last dot. The two
agree on names and attributes that can be written in a placeholder and split again (`Spelled`). If
all parameters that go back are of this sort, the string refers to the same items as before
(`reinline?_keeps_items`).

An attribute with a dot is not: `${Db.Endpoint.Address}` is read as the attribute `Address` of
`Db.Endpoint`.
-/

namespace StackTemplate

/-! ### Placeholders under other names -/

namespace Format

variable {format : String} {ss : List Segment} {s : Segment} {as : List Atom}
  {target? : String → Option String}

/-- Whether a text can stand between the braces of a placeholder. -/
def Nameable (name : String) : Prop := name.toList ≠ [] ∧ name.toList.all isNameChar

instance (name : String) : Decidable (Nameable name) := inferInstanceAs (Decidable (_ ∧ _))

/-- The atom with another name, if it is a placeholder. -/
def Atom.rename (f : String → String) : Atom → Atom
  | .hole name => .hole (f name)
  | a => a

theorem Atom.rename_eq_char {f : String → String} {a : Atom} {c : Char} :
    a.rename f = .char c ↔ a = .char c := by
  cases a <;> simp [rename]

theorem clear_rename (f : String → String) : Clear (as.map (Atom.rename f)) ↔ Clear as := by
  rw [Clear, Clear, List.isChain_map]
  simp only [Atom.rename_eq_char]

/-- Segments stand next to each other without being misread. -/
theorem clear_segments (h : segments format = .ok ss) :
    Clear (ss.flatMap (Segment.atoms fun _ => none)) := by
  obtain ⟨hwritten, -⟩ := segmentsFrom_written h
  obtain ⟨newFormat, hnew, hiff⟩ := reading_replacePlaceholders (fun _ => none) h
  obtain rfl := Except.ok.inj ((replacePlaceholders_none h).symm.trans hnew)
  rw [clear_atoms_iff hwritten, ← hiff, reading, h]
  rfl

/-- A segment with its placeholder under another name, if there is one. -/
def Segment.rename (target? : String → Option String) (s : Segment) : Segment :=
  match s.placeholder?.bind target? with
  | some target => { s with kind := .placeholder target, raw := placeholderText target }
  | none => s

namespace Segment

theorem raw_rename (target? : String → Option String) (s : Segment) : (s.rename target?).raw =
    (s.placeholder?.bind fun name => (target? name).map placeholderText).getD s.raw := by
  unfold rename
  cases s.placeholder? with
  | none => rfl
  | some name => cases htarget : target? name <;> simp [htarget]

theorem placeholder?_rename (target? : String → Option String) (s : Segment) :
    (s.rename target?).placeholder? =
      s.placeholder?.map fun name => (target? name).getD name := by
  unfold rename
  cases hname : s.placeholder? with
  | none => simp [hname]
  | some name =>
    cases htarget : target? name with
    | none => simp [htarget, hname]
    | some target => simp [htarget, placeholder?]

theorem atoms_rename (target? : String → Option String) (s : Segment) :
    ((s.rename target?).atoms fun _ => none) =
      (s.atoms fun _ => none).map (Atom.rename fun name => (target? name).getD name) := by
  unfold rename atoms placeholder?
  cases hkind : s.kind with
  | text => simp [hkind, Atom.rename]
  | escaped => simp [hkind, Atom.rename]
  | placeholder name => cases htarget : target? name <;> simp [htarget, hkind, Atom.rename]

theorem Written.rename (h : s.Written)
    (hvalid : ∀ name target, s.placeholder? = some name → target? name = some target →
      Nameable target) : (s.rename target?).Written := by
  unfold Segment.rename
  split
  · next target htarget =>
    obtain ⟨name, hname, htarget⟩ := Option.bind_eq_some_iff.mp htarget
    obtain ⟨hne, hchars⟩ := hvalid name target hname htarget
    exact .placeholder s.offset target hne hchars
  · exact h

end Segment

/-- Placeholders under other names are read under these names, if they can be written. -/
theorem placeholders_replacePlaceholders (h : segments format = .ok ss)
    (hvalid : ∀ name ∈ ss.filterMap Segment.placeholder?, ∀ target, target? name = some target →
      Nameable target) :
    ∃ newFormat,
      replacePlaceholders (fun name => (target? name).map placeholderText) format =
        .ok newFormat ∧
      placeholders newFormat =
        .ok ((ss.filterMap Segment.placeholder?).map fun name => (target? name).getD name) := by
  obtain ⟨hwritten, -⟩ := segmentsFrom_written h
  have hrenamed : ∀ s ∈ ss.map (Segment.rename target?), s.Written := by
    intro s' hs'
    obtain ⟨s, hs, rfl⟩ := List.mem_map.mp hs'
    exact (hwritten s hs).rename fun name target hname =>
      hvalid name (List.mem_filterMap.mpr ⟨s, hs, hname⟩) target
  -- The new format is what these atoms write, and none of them runs into the next, so it scans
  -- back.
  let as := (ss.map (Segment.rename target?)).flatMap (Segment.atoms fun _ => none)
  have hatoms : ∀ a ∈ as, a.Valid := by
    intro a ha
    obtain ⟨s, hs, ha⟩ := List.mem_flatMap.mp ha
    exact Segment.valid_atoms (hrenamed s hs) a ha
  have hclear : Clear as := by
    show Clear ((ss.map (Segment.rename target?)).flatMap (Segment.atoms fun _ => none))
    rw [List.flatMap_map, funext (Segment.atoms_rename target?), ← List.map_flatMap, clear_rename]
    exact clear_segments h
  have hglyphs : as.flatMap Atom.glyphs =
      (ss.map (Segment.rename target?)).flatMap (Segment.glyphs fun _ => none) := by
    rw [List.flatMap_assoc]
    exact List.flatMap_congr fun s hs => Segment.glyphs_atoms (hrenamed s hs)
  have hwrite : (String.join <| ss.map fun s =>
      (s.placeholder?.bind fun name => (target? name).map placeholderText).getD s.raw).toList =
        as.flatMap Atom.write := by
    simp only [← Segment.raw_rename]
    rw [String.toList_join, List.flatMap_map, List.flatMap_assoc, List.flatMap_map]
    refine List.flatMap_congr fun s hs => ?_
    rw [Segment.write_atoms (hrenamed _ (List.mem_map_of_mem hs))]
    cases (s.rename target?).placeholder? <;> rfl
  have hscan := scan_write hatoms hclear
  rw [← hwrite, scan_toList, hglyphs] at hscan
  refine ⟨_, by rw [replacePlaceholders, h]; rfl, ?_⟩
  rw [placeholders_eq, hscan]
  refine congrArg Except.ok ?_
  rw [holes_segments, List.filterMap_map, List.map_filterMap]
  exact congrArg (List.filterMap · ss) (funext (Segment.placeholder?_rename target?))

end Format

/-! ### Reading a reference back -/

namespace Fold

open Format

variable {t : Tree} {directory : Directory} {format newFormat : String}
  {parameters left : Table NodeId} {e : Expr} {name item target : String} {id : NodeId}

/-- The item that a reference or an attribute look-up names. -/
def namedItem? : Expr → Option String
  | .ref name | .getAtt name _ => some name
  | _ => none

/-- The placeholder for the expression can be written, and what stands in it is split into the item
and the attribute again. -/
def Spelled (directory : Directory) : Expr → Prop
  | .ref name => Nameable name
  | .getAtt name attributeName =>
    Nameable (name ++ "." ++ attributeName) ∧ '.' ∉ attributeName.toList ∧
      directory.contains (name ++ "." ++ attributeName) = false
  | _ => True

theorem isPseudoParameter_of_dot (h : '.' ∈ name.toList) : isPseudoParameter name = false := by
  have hnone : ∀ other ∈ pseudoParameters, '.' ∉ other.toList := by decide
  rw [isPseudoParameter, Bool.eq_false_iff, ne_eq, List.contains_iff_mem]
  exact fun hmem => hnone name hmem h

/-- A name and an attribute are split again just when the attribute has no dot and the two are not
the name of an item. -/
theorem splitTarget_dotted (directory : Directory) (name attributeName : String) :
    (splitTarget directory (name ++ "." ++ attributeName)).1 = name ↔
      '.' ∉ attributeName.toList ∧ directory.contains (name ++ "." ++ attributeName) = false := by
  have hpseudo : isPseudoParameter (name ++ "." ++ attributeName) = false :=
    isPseudoParameter_of_dot (by simp)
  have hlonger : name ++ "." ++ attributeName ≠ name := by
    intro heq
    have := congrArg (·.toList.length) heq
    simp at this
  unfold splitTarget
  rw [hpseudo, Bool.or_false]
  split
  · next hdeclared => simp [hdeclared, hlonger]
  · next hdeclared =>
    rw [Bool.not_eq_true] at hdeclared
    simp only [hdeclared, and_true]
    -- The last dot is the one between them just if the attribute has none.
    constructor
    · intro hsplit
      cases hcut : Text.cutAtLastDot? (name ++ "." ++ attributeName) with
      | none =>
        rw [hcut] at hsplit
        exact absurd hsplit hlonger
      | some cut =>
        obtain ⟨before, after⟩ := cut
        rw [hcut] at hsplit
        obtain rfl : before = name := hsplit
        obtain ⟨heq, hdot⟩ := Text.cutAtLastDot?_eq_some.mp hcut
        obtain rfl : attributeName = after := String.toList_injective (by simpa using heq)
        exact hdot
    · intro hdot
      have hcut : Text.cutAtLastDot? (name ++ "." ++ attributeName) = some (name, attributeName) :=
        Text.cutAtLastDot?_eq_some.mpr ⟨by simp, hdot⟩
      rw [hcut]

theorem nameable_of_spelled (h : Spelled directory e) (htarget : inlineTarget? e = some target) :
    Nameable target := by
  cases e with
  | ref name =>
    obtain rfl := Option.some.inj htarget
    exact h
  | getAtt name attributeName =>
    obtain rfl := Option.some.inj htarget
    exact h.1
  | _ => cases htarget

theorem splitTarget_of_spelled (h : Spelled directory e) (htarget : inlineTarget? e = some target)
    (hitem : namedItem? e = some item)
    (hknown : directory.contains item || isPseudoParameter item) :
    (splitTarget directory target).1 = item := by
  cases e with
  | ref name =>
    obtain rfl := Option.some.inj htarget
    obtain rfl := Option.some.inj hitem
    rw [splitTarget, if_pos hknown]
  | getAtt name attributeName =>
    obtain rfl := Option.some.inj htarget
    obtain rfl := Option.some.inj hitem
    exact (splitTarget_dotted directory name attributeName).mpr h.2
  | _ => cases htarget

/-- What can go back names an item. -/
theorem exists_namedItem? (htarget : inlineTarget? e = some target) :
    ∃ item, namedItem? e = some item := by
  cases e with
  | ref name | getAtt name attributeName => exact ⟨_, rfl⟩
  | _ => cases htarget

/-! ### The items of a string -/

/-- The items that the resolver reads from an interpolated string: those that placeholders name
directly, and those that parameters mention which some placeholder names. -/
def itemsRead (t : Tree) (directory : Directory) (format : String) (parameters : Table NodeId) :
    Set String :=
  {item | (item ∈ directTargets directory format parameters ∧ isPseudoParameter item = false) ∨
    ∃ names name id, placeholders format = .ok names ∧ name ∈ names ∧
      parameters.get? name = some id ∧ ∃ edge ∈ t.mentions directory [] id, edge.target = item}

/-- The items that the resolver reads for one placeholder. -/
def readAt (t : Tree) (directory : Directory) (parameters : Table NodeId) (name : String) :
    List String :=
  match parameters.get? name with
  | some id => (t.mentions directory [] id).map (·.target)
  | none =>
    if (localOwner? parameters name).isNone then
      [(splitTarget directory name).1].filter fun item => !isPseudoParameter item
    else []

theorem mem_itemsRead {names : List String} (h : placeholders format = .ok names) :
    item ∈ itemsRead t directory format parameters ↔
      ∃ name ∈ names, item ∈ readAt t directory parameters name := by
  have hdirect : item ∈ directTargets directory format parameters ↔ ∃ name ∈ names,
      parameters.get? name = none ∧ (localOwner? parameters name).isNone ∧
        (splitTarget directory name).1 = item := by
    simp only [directTargets, h, List.mem_map, List.mem_filter, Bool.and_eq_true,
      Bool.not_eq_true', Table.contains_eq_false, and_assoc]
  have hbound : (∃ ns name id, placeholders format = .ok ns ∧ name ∈ ns ∧
      parameters.get? name = some id ∧ ∃ edge ∈ t.mentions directory [] id, edge.target = item) ↔
      ∃ name ∈ names, ∃ id, parameters.get? name = some id ∧
        ∃ edge ∈ t.mentions directory [] id, edge.target = item := by
    rw [h]
    constructor
    · rintro ⟨ns, name, id, hns, hname, hid⟩
      exact ⟨name, Except.ok.inj hns ▸ hname, id, hid⟩
    · rintro ⟨name, hname, id, hid⟩
      exact ⟨names, name, id, rfl, hname, hid⟩
  -- What is read is what open placeholders name, or what is below the bound ones.
  show (item ∈ directTargets directory format parameters ∧ _) ∨ _ ↔ _
  rw [hdirect, hbound]
  constructor
  · rintro (⟨⟨name, hname, hget, howner, rfl⟩, hpseudo⟩ | ⟨name, hname, id, hget, edge, hedge⟩)
    · refine ⟨name, hname, ?_⟩
      simp [readAt, hget, howner, hpseudo]
    · refine ⟨name, hname, ?_⟩
      rw [readAt, hget]
      exact List.mem_map.mpr ⟨edge, hedge⟩
  · rintro ⟨name, hname, hitem⟩
    unfold readAt at hitem
    split at hitem
    · next id hget => exact .inr ⟨name, hname, id, hget, List.mem_map.mp hitem⟩
    · next hget =>
      split at hitem
      · next howner =>
        obtain ⟨heq, hpseudo⟩ := List.mem_filter.mp hitem
        obtain rfl := List.mem_singleton.mp heq
        exact .inl ⟨⟨name, hname, hget, howner, rfl⟩, by simpa using hpseudo⟩
      · cases hitem

/-- A reference mentions its item, unless that is a pseudo parameter. -/
theorem targets_mentions (he : t.expr? id = some e) (hitem : namedItem? e = some item) :
    (t.mentions directory [] id).map (·.target) =
      [item].filter fun item => !isPseudoParameter item := by
  have hedges : t.mentions directory [] id = Tree.edgesTo [item] [] id := by
    obtain ⟨n, hn⟩ := Nat.exists_eq_succ_of_ne_zero
      (Nat.ne_of_gt (Nat.lt_of_le_of_lt (Nat.zero_le id) (Tree.lt_size_of_expr? he)))
    rw [Tree.mentions, hn, Tree.mentionsWithin, Tree.expr?_eq_some.mp he]
    cases e with
    | ref name | getAtt name attributeName =>
      obtain rfl := Option.some.inj hitem
      exact List.append_nil _
    | _ => cases hitem
  rw [hedges, Tree.edgesTo, List.map_map]
  exact List.map_id _

/-- At each placeholder a string reads the same items after its parameters went back. -/
theorem readAt_rename {targets : List (String × String)}
    (hunshadowed : Unshadowed parameters targets) (htargets : targets ⊆ inlinable t parameters)
    (hleft : left = parameters.filter fun name _ => !(targets.map Prod.fst).contains name)
    (hknown : ∀ id ∈ parameters.values, ∀ e item, t.expr? id = some e → namedItem? e = some item →
      directory.contains item || isPseudoParameter item)
    (hspelled : ∀ id e, parameters.get? name = some id → left.get? name = none →
      t.expr? id = some e → Spelled directory e)
    (howner : localOwner? parameters name = none) :
    readAt t directory left ((targets.lookup name).getD name) =
      readAt t directory parameters name := by
  have hkeys : ∀ other, other ∈ left.keys ↔ stays parameters targets other = true := by
    intro other
    rw [hleft]
    exact mem_keys_filter
  cases hlookup : targets.lookup name with
  | some target =>
    -- The parameter became a placeholder, which is bound to nothing that stays.
    have hmem := mem_of_lookup hlookup
    obtain ⟨id, e, hentry, he, htarget⟩ := mem_inlinable.mp (htargets hmem)
    obtain ⟨item, hitem⟩ := exists_namedItem? htarget
    have hget : parameters.get? name = some id := Table.get?_eq_some.mpr hentry
    have hgone : left.get? name = none := hleft ▸ get?_filter_eq_none hmem
    have hitem' := hknown id (List.mem_map_of_mem hentry) e item he hitem
    have hsplit := splitTarget_of_spelled (hspelled id e hget hgone he) htarget hitem hitem'
    have hclear : isShadowed parameters targets target ≠ true :=
      Bool.eq_false_iff.mp (hunshadowed _ hmem)
    have hfree : left.get? target = none := by
      rw [Table.get?_eq_none, hkeys]
      exact fun h => hclear (isShadowed_eq_true.mpr (.inl h))
    have hlocal : localOwner? left target = none := by
      rw [Option.eq_none_iff_forall_ne_some]
      intro owner howner
      obtain ⟨-, hkey, attributeName, hcut⟩ := localOwner?_eq_some.mp howner
      exact hclear (isShadowed_eq_true.mpr (.inr ⟨owner, attributeName, hcut, (hkeys owner).mp hkey⟩))
    rw [Option.getD_some, readAt, hfree, readAt, hget]
    simp only [hlocal, Option.isNone_none, if_true, hsplit]
    exact (targets_mentions he hitem).symm
  | none =>
    have hnot : name ∉ targets.map Prod.fst := by
      rw [List.lookup_eq_none_iff] at hlookup
      intro hmem
      obtain ⟨entry, hentry, rfl⟩ := List.mem_map.mp hmem
      simpa using hlookup entry hentry
    have hsame : left.get? name = parameters.get? name := by
      ext id
      rw [hleft, Table.get?_filter]
      simp [hnot]
    rw [Option.getD_none, readAt, readAt, hsame]
    cases hget : parameters.get? name with
    | some id => rfl
    | none =>
      have hlocal : localOwner? left name = none := by
        rw [Option.eq_none_iff_forall_ne_some] at howner ⊢
        intro owner howner'
        obtain ⟨-, hkey, hcut⟩ := localOwner?_eq_some.mp howner'
        have hkey' := (stays_eq_true.mp ((hkeys owner).mp hkey)).1
        exact howner owner (localOwner?_eq_some.mpr ⟨Table.get?_eq_none.mp hget, hkey', hcut⟩)
      rw [howner, hlocal]

theorem isSome_of_inlineTargets {entries : List (String × NodeId)}
    {targets : List (String × String)} (h : inlineTargets t entries = .ok targets) :
    ∀ entry ∈ entries, (t.expr? entry.2).isSome := by
  induction entries generalizing targets with
  | nil => exact fun entry hentry => absurd hentry List.not_mem_nil
  | cons entry entries ih =>
    obtain ⟨name, id⟩ := entry
    rw [inlineTargets] at h
    cases he : t.expr id with
    | error fault =>
      rw [he] at h
      cases h
    | ok e =>
      cases hrest : inlineTargets t entries with
      | error fault =>
        rw [he, hrest] at h
        cases h
      | ok rest =>
        have hexpr := Tree.expr?_of_expr he
        exact List.forall_mem_cons.mpr ⟨Option.isSome_of_eq_some hexpr, ih hrest⟩

/-- A string is looked at only if its parameters are expressions. -/
theorem isSome_of_reinline? (h : reinline? t format parameters = .ok (some e)) :
    ∀ entry ∈ parameters.entries, (t.expr? entry.2).isSome := by
  unfold reinline? at h
  split at h
  · cases h
  · cases htargets : inlineTargets t parameters.entries with
    | error fault =>
      rw [htargets] at h
      cases h
    | ok targets => exact isSome_of_inlineTargets htargets

/-- If what goes back can be spelled as a placeholder, the new format can be read and the string
refers to the items that it referred to before. -/
theorem reinline?_keeps_items
    (h : reinline? t format parameters = .ok (some (.sub newFormat left)))
    (hknown : ∀ id ∈ parameters.values, ∀ e item, t.expr? id = some e → namedItem? e = some item →
      directory.contains item || isPseudoParameter item)
    (hspelled : ∀ names name id e, placeholders format = .ok names → name ∈ names →
      parameters.get? name = some id → left.get? name = none → t.expr? id = some e →
        Spelled directory e) :
    (∃ ss, segments newFormat = .ok ss) ∧
      itemsRead t directory newFormat left = itemsRead t directory format parameters := by
  rw [reinline?_eq format (isSome_of_reinline? h)] at h
  obtain ⟨hlocal, -, newFormat', hreplace, heq⟩ := reinlined?_eq_some.mp (Except.ok.inj h)
  obtain ⟨rfl, hleft⟩ := Expr.sub.inj heq
  have htargets := (settled_sublist parameters (inlinable t parameters)).subset
  cases hss : segments format with
  | error malformed =>
    rw [replacePlaceholders, hss] at hreplace
    cases hreplace
  | ok ss =>
    have hnames : placeholders format = .ok (ss.filterMap Segment.placeholder?) := by
      rw [placeholders, hss]
      rfl
    -- A text that goes back can be lexed: it belongs to a parameter that is left out, so it is
    -- spelled.
    have hvalid : ∀ name ∈ ss.filterMap Segment.placeholder?, ∀ target,
        (settled parameters (inlinable t parameters)).lookup name = some target →
          Nameable target := by
      intro name hname target hlookup
      have hmem := mem_of_lookup hlookup
      obtain ⟨id, e, hentry, he, htarget⟩ := mem_inlinable.mp (htargets hmem)
      have hgone : left.get? name = none := hleft ▸ get?_filter_eq_none hmem
      exact nameable_of_spelled (hspelled _ name id e hnames hname (Table.get?_eq_some.mpr hentry)
        hgone he) htarget
    obtain ⟨newFormat', hnew, hplaceholders⟩ := placeholders_replacePlaceholders hss hvalid
    obtain rfl := Except.ok.inj (hreplace.symm.trans hnew)
    refine ⟨?_, Set.ext fun item => ?_⟩
    · cases hnewss : segments newFormat with
      | error malformed =>
        rw [placeholders, hnewss] at hplaceholders
        cases hplaceholders
      | ok newss => exact ⟨newss, rfl⟩
    · -- Placeholder by placeholder: what the new text reads is what the parameter held.
      have hread : ∀ name ∈ ss.filterMap Segment.placeholder?,
          readAt t directory left
              (((settled parameters (inlinable t parameters)).lookup name).getD name) =
            readAt t directory parameters name := by
        intro name hname
        refine readAt_rename (settled_unshadowed _ _) htargets hleft hknown
          (fun id e hget hgone he => hspelled _ name id e hnames hname hget hgone he) ?_
        rw [hasLocalAttribute, hnames] at hlocal
        have := List.any_eq_false.mp hlocal name hname
        simpa using this
      rw [mem_itemsRead hplaceholders, mem_itemsRead hnames]
      simp only [List.mem_map, exists_exists_and_eq_and]
      exact exists_congr fun name => and_congr_right fun hname => by rw [hread name hname]

/-- An attribute look-up and a reference. -/
def connection : Tree where
  nodes := #[
    { kind := .expr (.getAtt "Db" "Address"), span := default },
    { kind := .expr (.ref "Port"), span := default }]

/-- The two as parameters. -/
def connectionParameters : Table NodeId := .ofList [("A", 0), ("B", 1)]

/-- The items that they name. -/
def connectionDirectory : Directory := ⟨⟨[("Db", 2), ("Port", 3)], by decide⟩⟩

theorem connection_keeps_items :
    reinline? connection "${A}:${B}" connectionParameters =
        .ok (some (.sub "${Db.Address}:${Port}" .empty)) ∧
      itemsRead connection connectionDirectory "${Db.Address}:${Port}" .empty =
        itemsRead connection connectionDirectory "${A}:${B}" connectionParameters := by
  have hreinline : reinline? connection "${A}:${B}" connectionParameters =
      .ok (some (.sub "${Db.Address}:${Port}" .empty)) := by
    decide +kernel
  have hnodes : ∀ id ∈ connectionParameters.values, ∀ e, connection.expr? id = some e →
      e = .getAtt "Db" "Address" ∨ e = .ref "Port" := by
    intro id hid e he
    rcases List.mem_cons.mp hid with rfl | hid
    · exact .inl (Option.some.inj he).symm
    · obtain rfl := List.mem_singleton.mp hid
      exact .inr (Option.some.inj he).symm
  refine ⟨hreinline, (reinline?_keeps_items hreinline ?_ ?_).2⟩
  · intro id hid e item he hitem
    rcases hnodes id hid e he with rfl | rfl <;> obtain rfl := Option.some.inj hitem <;> decide
  · intro names name id e _ _ hid _ he
    rcases hnodes id (List.mem_map_of_mem (Table.get?_eq_some.mp hid)) e he with rfl | rfl
    · exact show _ ∧ _ ∧ _ by decide
    · exact show Nameable "Port" by decide

/-- An attribute with a dot. -/
def endpoint : Tree where
  nodes := #[{ kind := .expr (.getAtt "Db" "Endpoint.Address"), span := default }]

/-- It is the only parameter. -/
def endpointParameters : Table NodeId := .ofList [("A", 0)]

/-- The item whose attribute it is. -/
def endpointDirectory : Directory := ⟨⟨[("Db", 1)], by decide⟩⟩

/-- The string referred to `Db`, and then to `Db.Endpoint`, which nobody declared. -/
theorem endpoint_misread :
    endpointDirectory.contains "Db" ∧
      reinline? endpoint "host ${A}" endpointParameters =
        .ok (some (.sub "host ${Db.Endpoint.Address}" .empty)) ∧
      "Db" ∈ itemsRead endpoint endpointDirectory "host ${A}" endpointParameters ∧
      "Db" ∉ itemsRead endpoint endpointDirectory "host ${Db.Endpoint.Address}" .empty ∧
      "Db.Endpoint" ∈ itemsRead endpoint endpointDirectory "host ${Db.Endpoint.Address}" .empty := by
  have hbefore : placeholders "host ${A}" = .ok ["A"] := by decide +kernel
  have hafter : placeholders "host ${Db.Endpoint.Address}" = .ok ["Db.Endpoint.Address"] := by
    decide +kernel
  rw [mem_itemsRead hbefore, mem_itemsRead hafter, mem_itemsRead hafter]
  decide +kernel

end Fold

end StackTemplate
