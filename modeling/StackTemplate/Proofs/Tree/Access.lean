import StackTemplate.Tree.Substitute

/-!
# What each change of a tree leaves as it was

A tree is read through `size`, `root`, `kind?`, `span` and `parent?`; everything else that is read
from it comes from these. Here each change is described by what it does to each of them, so that
no later proof looks into the store.
-/

namespace StackTemplate

/-- Two steps that may fail succeed one after the other only if each does. -/
theorem exists_of_bind_eq_ok {ε α β : Type} {r : Except ε α} {next : α → Except ε β} {b : β}
    (h : r >>= next = .ok b) : ∃ a, r = .ok a ∧ next a = .ok b := by
  cases r with
  | error fault => cases h
  | ok a => exact ⟨a, rfl, h⟩

namespace Tree

variable {t : Tree} {id x : NodeId}

/-! ### Existence -/

theorem node?_eq_none : t.node? x = none ↔ t.size ≤ x := by
  simp [node?, size]

theorem exists_node? (h : x < t.size) : ∃ n, t.node? x = some n :=
  Option.ne_none_iff_exists'.mp fun hnone => Nat.not_le.mpr h (node?_eq_none.mp hnone)

theorem kind?_eq_none : t.kind? x = none ↔ t.size ≤ x := by
  rw [kind?, Option.map_eq_none_iff, node?_eq_none]

theorem isSome_kind? : (t.kind? x).isSome ↔ x < t.size := by
  rw [Option.isSome_iff_ne_none, Ne, kind?_eq_none, Nat.not_le]

theorem exists_kind? (h : x < t.size) : ∃ kind, t.kind? x = some kind :=
  Option.isSome_iff_exists.mp (isSome_kind?.mpr h)

theorem lt_size_of_kind? {kind : NodeKind} (h : t.kind? x = some kind) : x < t.size :=
  isSome_kind?.mp (h ▸ rfl)

theorem parent?_of_size_le (h : t.size ≤ x) : t.parent? x = none := by
  rw [parent?, node?_eq_none.mpr h, Option.bind_none]

theorem children_of_size_le (h : t.size ≤ x) : t.children x = [] := by
  rw [children, kind?_eq_none.mpr h, Option.map_none, Option.getD_none]

theorem lt_size_of_mem_children {c : NodeId} (h : c ∈ t.children x) : x < t.size := by
  apply Nat.lt_of_not_le
  intro hle
  rw [children_of_size_le hle] at h
  exact List.not_mem_nil h

theorem children_of_kind? {kind : NodeKind} (h : t.kind? x = some kind) :
    t.children x = kind.children := by
  rw [children, h, Option.map_some, Option.getD_some]

/-- The content of a node decides its children. -/
theorem children_congr {t' : Tree} {y : NodeId} (h : t'.kind? y = t.kind? x) :
    t'.children y = t.children x := by
  rw [children, children, h]

/-- The content of a node decides which expression it is. -/
theorem expr?_congr {t' : Tree} {y : NodeId} (h : t'.kind? y = t.kind? x) :
    t'.expr? y = t.expr? x := by
  rw [expr?, expr?, h]

/-- The content of a node decides which declaration it is. -/
theorem decl?_congr {t' : Tree} {y : NodeId} (h : t'.kind? y = t.kind? x) :
    t'.decl? y = t.decl? x := by
  rw [decl?, decl?, h]

theorem expr?_eq_some {e : Expr} : t.expr? x = some e ↔ t.kind? x = some (.expr e) := by
  rw [expr?, Option.bind_eq_some_iff]
  constructor
  · rintro ⟨kind, hkind, he⟩
    cases kind <;> simp_all [NodeKind.expr?]
  · intro h
    exact ⟨_, h, rfl⟩

theorem decl?_eq_some {d : Decl} : t.decl? x = some d ↔ t.kind? x = some (.decl d) := by
  rw [decl?, Option.bind_eq_some_iff]
  constructor
  · rintro ⟨kind, hkind, hd⟩
    cases kind <;> simp_all [NodeKind.decl?]
  · intro h
    exact ⟨_, h, rfl⟩

/-- A declaration is no expression. -/
theorem expr?_of_decl? {d : Decl} (h : t.decl? x = some d) : t.expr? x = none := by
  rw [expr?, decl?_eq_some.mp h]
  rfl

theorem children_of_expr? {e : Expr} (h : t.expr? x = some e) : t.children x = e.children :=
  children_of_kind? (expr?_eq_some.mp h)

theorem children_of_decl? {d : Decl} (h : t.decl? x = some d) : t.children x = d.children :=
  children_of_kind? (decl?_eq_some.mp h)

theorem lt_size_of_expr? {e : Expr} (h : t.expr? x = some e) : x < t.size :=
  lt_size_of_kind? (expr?_eq_some.mp h)

theorem lt_size_of_decl? {d : Decl} (h : t.decl? x = some d) : x < t.size :=
  lt_size_of_kind? (decl?_eq_some.mp h)

/-- An expression can be read where one must be. -/
theorem expr_of_expr? {e : Expr} (h : t.expr? x = some e) : t.expr x = .ok e := by
  have hkind := expr?_eq_some.mp h
  rw [kind?, Option.map_eq_some_iff] at hkind
  obtain ⟨n, hn, hk⟩ := hkind
  simp only [expr, node, hn, hk, Bind.bind, Except.bind, pure, Except.pure]

/-- A declaration can be read where one must be. -/
theorem decl_of_decl? {d : Decl} (h : t.decl? x = some d) : t.decl x = .ok d := by
  have hkind := decl?_eq_some.mp h
  rw [kind?, Option.map_eq_some_iff] at hkind
  obtain ⟨n, hn, hk⟩ := hkind
  simp only [decl, node, hn, hk, Bind.bind, Except.bind, pure, Except.pure]

/-- The full name of a declaration that has one. -/
theorem fullName_of_decl? {d : Decl} {name : String} (h : t.decl? x = some d)
    (hname : d.fullName = some name) : t.fullName x = .ok name := by
  unfold fullName
  simp only [decl_of_decl? h, hname, Bind.bind, Except.bind]
  rfl

/-- What is read where an expression must be is one. -/
theorem expr?_of_expr {e : Expr} (h : t.expr x = .ok e) : t.expr? x = some e := by
  cases hkind : t.node? x with
  | none => simp [expr, node, hkind, Bind.bind, Except.bind] at h
  | some n =>
    simp only [expr, node, hkind, Bind.bind, Except.bind] at h
    split at h
    · next e' he =>
      rw [expr?_eq_some, kind?, hkind, Option.map_some, he]
      exact congrArg _ (congrArg _ (Except.ok.inj h))
    · cases h

/-- What is read where a declaration must be is one. -/
theorem decl?_of_decl {d : Decl} (h : t.decl x = .ok d) : t.decl? x = some d := by
  cases hkind : t.node? x with
  | none => simp [decl, node, hkind, Bind.bind, Except.bind] at h
  | some n =>
    simp only [decl, node, hkind, Bind.bind, Except.bind] at h
    split at h
    · next d' hd =>
      rw [decl?_eq_some, kind?, hkind, Option.map_some, hd]
      exact congrArg _ (congrArg _ (Except.ok.inj h))
    · cases h

/-! ### Changing one node -/

theorem node?_modify (t : Tree) (id : NodeId) (f : Node → Node) (x : NodeId) :
    (t.modify id f).node? x = if id = x then (t.node? x).map f else t.node? x := by
  rw [modify, node?, node?, Array.getElem?_modify]

@[simp] theorem size_modify (f : Node → Node) : (t.modify id f).size = t.size := by
  simp [size, modify]

@[simp] theorem root_modify (f : Node → Node) : (t.modify id f).root = t.root := rfl

/-- Changes of nodes that do not bear on each other can be made in either order. -/
theorem modify_comm {f g : Node → Node} (h : ∀ n, f (g n) = g (f n)) (t : Tree) (x y : NodeId) :
    (t.modify x f).modify y g = (t.modify y g).modify x f := by
  have hnodes : (t.nodes.modify x f).modify y g = (t.nodes.modify y g).modify x f := by
    refine Array.ext_getElem? fun i => ?_
    simp only [Array.getElem?_modify]
    by_cases hx : x = i <;> by_cases hy : y = i <;> simp [hx, hy, Function.comp_def, h]
  rw [modify, modify, modify, modify, hnodes]

@[simp] theorem setKind_setKind (t : Tree) (id : NodeId) (old new : NodeKind) :
    (t.setKind id old).setKind id new = t.setKind id new := by
  have hnodes : (t.nodes.modify id fun n => { n with kind := old }).modify id
      (fun n => { n with kind := new }) = t.nodes.modify id fun n => { n with kind := new } := by
    refine Array.ext_getElem? fun i => ?_
    simp only [Array.getElem?_modify]
    by_cases hi : id = i <;> simp [hi, Function.comp_def]
  rw [setKind, setKind, setKind, modify, modify, modify, hnodes]

@[simp] theorem size_setKind (kind : NodeKind) : (t.setKind id kind).size = t.size :=
  size_modify _

@[simp] theorem root_setKind (kind : NodeKind) : (t.setKind id kind).root = t.root := rfl

theorem kind?_setKind (t : Tree) (id : NodeId) (kind : NodeKind) (x : NodeId) :
    (t.setKind id kind).kind? x = if id = x ∧ x < t.size then some kind else t.kind? x := by
  rw [setKind, kind?, node?_modify]
  by_cases hx : id = x
  · by_cases hlt : x < t.size
    · obtain ⟨n, hn⟩ := exists_node? hlt
      rw [if_pos hx, if_pos ⟨hx, hlt⟩, hn]
      rfl
    · rw [if_pos hx, if_neg fun h => hlt h.2, kind?, node?_eq_none.mpr (Nat.le_of_not_lt hlt)]
      rfl
  · rw [if_neg hx, if_neg fun h => hx h.1, kind?]

theorem kind?_setKind_self {kind : NodeKind} (h : x < t.size) :
    (t.setKind x kind).kind? x = some kind := by
  rw [kind?_setKind, if_pos ⟨rfl, h⟩]

theorem kind?_setKind_ne {kind : NodeKind} (h : id ≠ x) :
    (t.setKind id kind).kind? x = t.kind? x := by
  rw [kind?_setKind, if_neg fun hx => h hx.1]

@[simp] theorem parent?_setKind (kind : NodeKind) :
    (t.setKind id kind).parent? x = t.parent? x := by
  rw [setKind, parent?, node?_modify, parent?]
  split <;> cases t.node? x <;> rfl

@[simp] theorem span_setKind (kind : NodeKind) : (t.setKind id kind).span x = t.span x := by
  rw [setKind, span, node?_modify, span]
  split <;> cases t.node? x <;> rfl

theorem span_modifyDecl (t : Tree) (id : NodeId) (f : Decl → Decl) (x : NodeId) :
    (t.modifyDecl id f).span x = t.span x := by
  unfold modifyDecl
  split <;> simp

theorem decl?_modifyDecl (t : Tree) (id : NodeId) (f : Decl → Decl) (x : NodeId) :
    (t.modifyDecl id f).decl? x = if x = id then (t.decl? x).map f else t.decl? x := by
  unfold modifyDecl
  cases hd : t.decl? id with
  | none =>
    by_cases hx : x = id
    · rw [if_pos hx, hx, hd, Option.map_none]
    · rw [if_neg hx]
  | some d =>
    by_cases hx : x = id
    · rw [if_pos hx, hx, hd]
      exact decl?_eq_some.mpr (kind?_setKind_self (lt_size_of_decl? hd))
    · rw [if_neg hx]
      exact decl?_congr (kind?_setKind_ne (Ne.symm hx))

/-! ### Parent links -/

@[simp] theorem size_setParent (p : Option NodeId) : (t.setParent id p).size = t.size :=
  size_modify _

@[simp] theorem root_setParent (p : Option NodeId) : (t.setParent id p).root = t.root := rfl

@[simp] theorem kind?_setParent (p : Option NodeId) :
    (t.setParent id p).kind? x = t.kind? x := by
  rw [setParent, kind?, node?_modify, kind?]
  split <;> cases t.node? x <;> rfl

@[simp] theorem span_setParent (p : Option NodeId) : (t.setParent id p).span x = t.span x := by
  rw [setParent, span, node?_modify, span]
  split <;> cases t.node? x <;> rfl

theorem parent?_setParent (t : Tree) (id : NodeId) (p : Option NodeId) (x : NodeId) :
    (t.setParent id p).parent? x = if id = x ∧ x < t.size then p else t.parent? x := by
  rw [setParent, parent?, node?_modify]
  by_cases hx : id = x
  · by_cases hlt : x < t.size
    · obtain ⟨n, hn⟩ := exists_node? hlt
      rw [if_pos hx, if_pos ⟨hx, hlt⟩, hn]
      rfl
    · rw [if_pos hx, if_neg fun h => hlt h.2, parent?, node?_eq_none.mpr (Nat.le_of_not_lt hlt)]
      rfl
  · rw [if_neg hx, if_neg fun h => hx h.1, parent?]

@[simp] theorem size_link (p c : NodeId) : (t.link p c).size = t.size := size_setParent _

@[simp] theorem root_link (p c : NodeId) : (t.link p c).root = t.root := rfl

@[simp] theorem kind?_link (p c : NodeId) : (t.link p c).kind? x = t.kind? x := kind?_setParent _

@[simp] theorem span_link (p c : NodeId) : (t.link p c).span x = t.span x := span_setParent _

theorem parent?_link (t : Tree) (p c x : NodeId) :
    (t.link p c).parent? x = if c = x ∧ x < t.size then some p else t.parent? x :=
  parent?_setParent t c (some p) x

/-- What hanging a list of nodes below one does. -/
theorem foldl_link (p : NodeId) (cs : List NodeId) (t : Tree) :
    (cs.foldl (fun t c => t.link p c) t).size = t.size ∧
    (cs.foldl (fun t c => t.link p c) t).root = t.root ∧
    (∀ x, (cs.foldl (fun t c => t.link p c) t).kind? x = t.kind? x) ∧
    (∀ x, (cs.foldl (fun t c => t.link p c) t).span x = t.span x) ∧
    ∀ x, (cs.foldl (fun t c => t.link p c) t).parent? x =
      if x ∈ cs ∧ x < t.size then some p else t.parent? x := by
  induction cs generalizing t with
  | nil => simp
  | cons c cs ih =>
    obtain ⟨hsize, hroot, hkind, hspan, hparent⟩ := ih (t.link p c)
    refine ⟨by simpa using hsize, by simpa using hroot, by simpa using hkind,
      by simpa using hspan, fun x => ?_⟩
    rw [List.foldl_cons, hparent, size_link, parent?_link]
    by_cases hx : x ∈ cs
    · by_cases hlt : x < t.size <;> simp [hx, hlt]
    · by_cases hc : c = x
      · simp [hx, hc]
      · have hc' : ¬ x = c := fun e => hc e.symm
        simp [hx, hc, hc']

/-! ### Adding a node -/

@[simp] theorem add_fst (kind : NodeKind) (span : Span) : (t.add kind span).1 = t.size := rfl

@[simp] theorem size_add (kind : NodeKind) (span : Span) :
    (t.add kind span).2.size = t.size + 1 := by
  rw [add]
  refine (foldl_link _ _ _).1.trans ?_
  simp [size]

@[simp] theorem root_add (kind : NodeKind) (span : Span) : (t.add kind span).2.root = t.root :=
  (foldl_link _ _ _).2.1

theorem node?_push (t : Tree) (n : Node) (x : NodeId) :
    ({ t with nodes := t.nodes.push n } : Tree).node? x =
      if x = t.size then some n else t.node? x := by
  show (t.nodes.push n)[x]? = _
  rw [Array.getElem?_push]
  rfl

theorem kind?_add (t : Tree) (kind : NodeKind) (span : Span) (x : NodeId) :
    (t.add kind span).2.kind? x = if x = t.size then some kind else t.kind? x := by
  rw [add]
  refine ((foldl_link _ _ _).2.2.1 x).trans ?_
  rw [kind?, node?_push]
  split <;> rfl

theorem span_add (t : Tree) (kind : NodeKind) (span : Span) (x : NodeId) :
    (t.add kind span).2.span x = if x = t.size then span else t.span x := by
  rw [add]
  refine ((foldl_link _ _ _).2.2.2.1 x).trans ?_
  rw [Tree.span, node?_push]
  split <;> rfl

theorem parent?_add (t : Tree) (kind : NodeKind) (span : Span) (x : NodeId) :
    (t.add kind span).2.parent? x =
      if x ∈ kind.children ∧ x < t.size + 1 then some t.size else t.parent? x := by
  have hparent : ({ t with nodes := t.nodes.push { kind, span } } : Tree).parent? x =
      t.parent? x := by
    rw [parent?, node?_push]
    split
    · next hx => rw [parent?_of_size_le (Nat.le_of_eq hx.symm), Option.bind_some]
    · rfl
  rw [add]
  refine ((foldl_link _ _ _).2.2.2.2 x).trans ?_
  have hsize : ({ t with nodes := t.nodes.push { kind, span } } : Tree).size = t.size + 1 := by
    simp [size]
  rw [hparent, hsize]

theorem kind?_add_self (kind : NodeKind) (span : Span) :
    (t.add kind span).2.kind? t.size = some kind := by
  rw [kind?_add, if_pos rfl]

/-- Adding a node leaves the content of those that are there. -/
theorem kind?_add_of_lt {kind : NodeKind} {span : Span} (h : x < t.size) :
    (t.add kind span).2.kind? x = t.kind? x := by
  rw [kind?_add, if_neg (Nat.ne_of_lt h)]

theorem span_add_of_lt {kind : NodeKind} {span : Span} (h : x < t.size) :
    (t.add kind span).2.span x = t.span x := by
  rw [span_add, if_neg (Nat.ne_of_lt h)]

/-! ### Replacing the content of slots -/

@[simp] theorem size_relink (p old new : NodeId) : (t.relink p old new).size = t.size := by
  rw [relink]
  split
  · rfl
  · split <;> simp

@[simp] theorem root_relink (p old new : NodeId) : (t.relink p old new).root = t.root := by
  rw [relink]
  split
  · rfl
  · split <;> simp

@[simp] theorem kind?_relink (p old new : NodeId) :
    (t.relink p old new).kind? x = t.kind? x := by
  rw [relink]
  split
  · rfl
  · split <;> simp

@[simp] theorem span_relink (p old new : NodeId) : (t.relink p old new).span x = t.span x := by
  rw [relink]
  split
  · rfl
  · split <;> simp

/-- A slot that keeps its content keeps all parent links. -/
@[simp] theorem relink_self (t : Tree) (p old : NodeId) : t.relink p old old = t := by
  rw [relink, if_pos rfl]

theorem setKind_setParent (t : Tree) (child id : NodeId) (parent : Option NodeId)
    (kind : NodeKind) :
    (t.setParent child parent).setKind id kind = (t.setKind id kind).setParent child parent :=
  modify_comm (f := fun n => { n with parent }) (g := fun n => { n with kind }) (fun _ => rfl) t
    child id

/-- Linking does not look at content. -/
theorem setKind_relink (t : Tree) (p old new id : NodeId) (kind : NodeKind) :
    (t.relink p old new).setKind id kind = (t.setKind id kind).relink p old new := by
  simp only [relink, parent?_setKind, link]
  split
  · rfl
  · split <;> simp only [setKind_setParent]

/-- What comes into a slot hangs below the node of that slot. -/
theorem parent?_relink_new {p old new : NodeId} (hne : old ≠ new) (hlt : new < t.size) :
    (t.relink p old new).parent? new = some p := by
  rw [relink, if_neg hne]
  split <;> simp [parent?_link, hlt]

/-- Only what leaves a slot and what comes into it is linked anew. -/
theorem parent?_relink_of_ne {p old new : NodeId} (hold : x ≠ old) (hnew : x ≠ new) :
    (t.relink p old new).parent? x = t.parent? x := by
  rw [relink]
  split
  · rfl
  · split
    · rw [parent?_link, if_neg fun h => hnew h.1.symm, parent?_setParent,
        if_neg fun h => hold h.1.symm]
    · rw [parent?_link, if_neg fun h => hnew h.1.symm]

end Tree

end StackTemplate
