import StackTemplate.Proofs.Tree.Listing
import StackTemplate.Proofs.Tree.Slots
import StackTemplate.Tree.Copy

/-!
# Growing a tree

Passes make new nodes before they put any of them into the tree. What is there keeps its content; a
new node hangs its children below it, and these are new nodes themselves or old nodes that it
adopts (`Grows`). A *sprout* is a new node that nothing holds yet.

New nodes are made from the bottom up, so the children of a new node have smaller ids than it has.
-/

namespace StackTemplate

namespace Tree

variable {g s s₁ s₂ s' : Tree} {x y z c : NodeId} {P Q : NodeId → Prop}

/-- Everything in the first tree has the same content and place in the second. -/
structure Keeps (s s' : Tree) : Prop where
  root_eq : s'.root = s.root
  size_le : s.size ≤ s'.size
  kind_eq : ∀ x, x < s.size → s'.kind? x = s.kind? x
  span_eq : ∀ x, x < s.size → s'.span x = s.span x

theorem Keeps.refl (s : Tree) : Keeps s s :=
  ⟨rfl, Nat.le_refl _, fun _ _ => rfl, fun _ _ => rfl⟩

theorem Keeps.trans (h : Keeps s s₁) (h' : Keeps s₁ s₂) : Keeps s s₂ where
  root_eq := h'.root_eq.trans h.root_eq
  size_le := Nat.le_trans h.size_le h'.size_le
  kind_eq x hx := (h'.kind_eq x (Nat.lt_of_lt_of_le hx h.size_le)).trans (h.kind_eq x hx)
  span_eq x hx := (h'.span_eq x (Nat.lt_of_lt_of_le hx h.size_le)).trans (h.span_eq x hx)

theorem Keeps.add (s : Tree) (kind : NodeKind) (span : Span) : Keeps s (s.add kind span).2 where
  root_eq := root_add kind span
  size_le := by simp
  kind_eq _ hx := kind?_add_of_lt hx
  span_eq _ hx := span_add_of_lt hx

theorem Keeps.expr?_eq {e : Expr} (h : Keeps s s') (he : s.expr? y = some e) :
    s'.expr? y = some e := by
  rw [expr?_congr (h.kind_eq y (lt_size_of_expr? he)), he]

/-- The second tree is the first with new nodes, which adopt only nodes that satisfy `P`. -/
structure Grows (s s' : Tree) (P : NodeId → Prop) : Prop extends Keeps s s' where
  /-- Nodes that are not adopted stay where they hang. -/
  parent_eq : ∀ x, x < s.size → ¬ P x → s'.parent? x = s.parent? x
  /-- A new node holds no child twice. -/
  nodup : ∀ z, s.size ≤ z → (s'.children z).Nodup
  /-- What a new node holds was made before it, or adopted, and hangs below it. -/
  child : ∀ z c, s.size ≤ z → c ∈ s'.children z →
    c < z ∧ s'.parent? c = some z ∧ (c < s.size → P c)

/-- A new node that hangs below nothing. -/
structure Sprout (s s' : Tree) (y : NodeId) : Prop where
  size_le : s.size ≤ y
  lt_size : y < s'.size
  parent_eq : s'.parent? y = none

theorem Grows.refl (s : Tree) (P : NodeId → Prop) : Grows s s P where
  toKeeps := .refl s
  parent_eq _ _ _ := rfl
  nodup z hz := by
    rw [children_of_size_le hz]
    exact List.nodup_nil
  child z c hz hc := by
    rw [children_of_size_le hz] at hc
    exact absurd hc List.not_mem_nil

theorem Grows.mono (h : Grows s s' P) (hPQ : ∀ x, P x → Q x) : Grows s s' Q where
  toKeeps := h.toKeeps
  parent_eq x hx hQ := h.parent_eq x hx fun hP => hQ (hPQ x hP)
  nodup := h.nodup
  child z c hz hc := by
    obtain ⟨hlt, hparent, hP⟩ := h.child z c hz hc
    exact ⟨hlt, hparent, fun hold => hPQ c (hP hold)⟩

/-- Growth in two steps. The second must not take children away from what the first has made. -/
theorem Grows.trans (h : Grows s s₁ P) (h' : Grows s₁ s₂ Q)
    (hfree : ∀ c, Q c → ∀ z, s.size ≤ z → s₁.parent? c ≠ some z) :
    Grows s s₂ fun c => P c ∨ Q c where
  toKeeps := h.toKeeps.trans h'.toKeeps
  parent_eq x hx hPQ := by
    rw [not_or] at hPQ
    rw [h'.parent_eq x (Nat.lt_of_lt_of_le hx h.size_le) hPQ.2, h.parent_eq x hx hPQ.1]
  nodup z hz := by
    by_cases hlt : z < s₁.size
    · rw [children_congr (h'.kind_eq z hlt)]
      exact h.nodup z hz
    · exact h'.nodup z (Nat.le_of_not_lt hlt)
  child z c hz hc := by
    by_cases hlt : z < s₁.size
    · rw [children_congr (h'.kind_eq z hlt)] at hc
      obtain ⟨hcz, hparent, hP⟩ := h.child z c hz hc
      have hQ : ¬ Q c := fun hQ => hfree c hQ z hz hparent
      refine ⟨hcz, ?_, fun hold => .inl (hP hold)⟩
      rw [h'.parent_eq c (Nat.lt_trans hcz hlt) hQ, hparent]
    · obtain ⟨hcz, hparent, hQ⟩ := h'.child z c (Nat.le_of_not_lt hlt) hc
      exact ⟨hcz, hparent, fun hold => .inr (hQ (Nat.lt_of_lt_of_le hold h.size_le))⟩

/-- Growth that adopts nothing, in two steps. -/
theorem Grows.comp (h : Grows s s₁ fun _ => False) (h' : Grows s₁ s₂ fun _ => False) :
    Grows s s₂ fun _ => False :=
  (h.trans h' fun _ hc => hc.elim).mono fun _ hc => hc.elim id id

/-- Adding a node adopts its children. -/
theorem Grows.add (s : Tree) (kind : NodeKind) (span : Span) (hnodup : kind.children.Nodup)
    (hlt : ∀ c ∈ kind.children, c < s.size) :
    Grows s (s.add kind span).2 (· ∈ kind.children) ∧
      Sprout s (s.add kind span).2 s.size := by
  have hchildren : ∀ z, s.size ≤ z →
      (s.add kind span).2.children z = if z = s.size then kind.children else [] := by
    intro z hz
    rw [Tree.children, kind?_add]
    split
    · rfl
    · rw [kind?_eq_none.mpr hz]
      rfl
  refine ⟨⟨.add s kind span, fun x hx hP => ?_, fun z hz => ?_, fun z c hz hc => ?_⟩,
    Nat.le_refl _, by simp, ?_⟩
  · rw [parent?_add, if_neg fun h => hP h.1]
  · rw [hchildren z hz]
    split
    · exact hnodup
    · exact List.nodup_nil
  · rw [hchildren z hz] at hc
    split at hc
    · next hzs =>
      subst hzs
      have hcs := hlt c hc
      refine ⟨hcs, ?_, fun _ => hc⟩
      rw [parent?_add, if_pos ⟨hc, Nat.lt_succ_of_lt hcs⟩]
    · exact absurd hc List.not_mem_nil
  · have hself : s.size ∉ kind.children := fun h => Nat.lt_irrefl _ (hlt _ h)
    rw [parent?_add, if_neg fun h => hself h.1, parent?_of_size_le (Nat.le_refl _)]

/-- Adding an expression without operands adopts nothing. -/
theorem Grows.leaf (s : Tree) {e : Expr} (span : Span) (he : e.children = []) :
    Grows s (s.addExpr e span).2 (fun _ => False) ∧
      Sprout s (s.addExpr e span).2 (s.addExpr e span).1 := by
  have hchildren : (NodeKind.expr e).children = [] := he
  obtain ⟨hgrows, hsprout⟩ := Grows.add s (.expr e) span (hchildren ▸ List.nodup_nil)
    fun c hc => by rw [hchildren] at hc; cases hc
  refine ⟨hgrows.mono fun c hc => ?_, hsprout⟩
  rw [hchildren] at hc
  cases hc

/-- What is new is grounded, if the adopted nodes are. -/
theorem Grows.grounded (h : Grows s s' P) (hP : ∀ c, P c → c < s.size → s'.Grounded c)
    (hz : s.size ≤ z) (hlt : z < s'.size) : s'.Grounded z := by
  induction z using Nat.strong_induction_on with
  | _ z ih =>
    refine .intro hlt fun c hc => ?_
    obtain ⟨hcz, -, hadopt⟩ := h.child z c hz hc
    by_cases hold : c < s.size
    · exact hP c (hadopt hold) hold
    · exact ih c hcz (Nat.le_of_not_lt hold) (Nat.lt_trans hcz hlt)

theorem Sprout.keep (h : Sprout s s₁ y) (h' : Grows s₁ s₂ fun _ => False) : Sprout s s₂ y where
  size_le := h.size_le
  lt_size := Nat.lt_of_lt_of_le h.lt_size h'.size_le
  parent_eq := (h'.parent_eq y h.lt_size id).trans h.parent_eq

theorem Sprout.later (h : Sprout s₁ s₂ y) (hle : s.size ≤ s₁.size) : Sprout s s₂ y :=
  ⟨Nat.le_trans hle h.size_le, h.lt_size, h.parent_eq⟩

/-- A node over sprouts and over old nodes that it may adopt, which do not hang below new ones. -/
theorem Grows.cap (h : Grows s s₁ fun _ => False) (kind : NodeKind) (span : Span)
    (hnodup : kind.children.Nodup)
    (hchild : ∀ c ∈ kind.children, Sprout s s₁ c ∨ c < s.size ∧ P c)
    (hfree : ∀ c, P c → ∀ z, s.size ≤ z → s.parent? c ≠ some z) :
    Grows s (s₁.add kind span).2 P ∧ Sprout s (s₁.add kind span).2 s₁.size := by
  have hlt : ∀ c ∈ kind.children, c < s₁.size := by
    intro c hc
    rcases hchild c hc with hsprout | ⟨hold, -⟩
    · exact hsprout.lt_size
    · exact Nat.lt_of_lt_of_le hold h.size_le
  obtain ⟨hadd, hsprout⟩ := Grows.add s₁ kind span hnodup hlt
  have hfree' : ∀ c ∈ kind.children, ∀ z, s.size ≤ z → s₁.parent? c ≠ some z := by
    intro c hc z hz hparent
    rcases hchild c hc with hsprout | ⟨hold, hP⟩
    · rw [hsprout.parent_eq] at hparent
      cases hparent
    · rw [h.parent_eq c hold id] at hparent
      exact hfree c hP z hz hparent
  have htotal := h.trans hadd hfree'
  -- Of the adopted children only old ones matter, and these satisfy `P`.
  have hP : ∀ c, c < s.size → (False ∨ c ∈ kind.children) → P c := by
    rintro c hold (hno | hc)
    · exact hno.elim
    · rcases hchild c hc with hsprout | ⟨-, hP⟩
      · exact absurd hsprout.size_le (Nat.not_le.mpr hold)
      · exact hP
  refine ⟨⟨htotal.toKeeps, fun x hx hno => ?_, htotal.nodup, fun z c hz hc => ?_⟩,
    hsprout.later h.size_le⟩
  · exact htotal.parent_eq x hx fun hx' => hno (hP x hx hx')
  · obtain ⟨hcz, hparent, hadopt⟩ := htotal.child z c hz hc
    exact ⟨hcz, hparent, fun hold => hP c hold (hadopt hold)⟩

/-! ### One node for each member of a list -/

/-- How a member `a` of a list is made over a tree that keeps `g`: it stands for a node of `g`, or
a sprout is made for it. `R` is what there is to say about the node. -/
structure Makes {α : Type} (g : Tree) (f : α → Tree → NodeId × Tree) (kept : α → Option NodeId)
    (R : Tree → α → NodeId → Prop) (a : α) : Prop where
  grows : ∀ s, Keeps g s → Grows s (f a s).2 fun _ => False
  old : ∀ s id, Keeps g s → kept a = some id → (f a s).1 = id ∧ id < g.size
  new : ∀ s, Keeps g s → kept a = none → Sprout s (f a s).2 (f a s).1
  holds : ∀ s, Keeps g s → R (f a s).2 a (f a s).1

theorem Makes.lt_size {α : Type} {f : α → Tree → NodeId × Tree} {kept : α → Option NodeId}
    {R : Tree → α → NodeId → Prop} {a : α} (h : Makes g f kept R a) (hs : Keeps g s) :
    (f a s).1 < (f a s).2.size := by
  cases hk : kept a with
  | none => exact (h.new s hs hk).lt_size
  | some id =>
    obtain ⟨hid, hlt⟩ := h.old s id hs hk
    rw [hid]
    exact Nat.lt_of_lt_of_le hlt (Nat.le_trans hs.size_le (h.grows s hs).size_le)

theorem addEach_cons {α : Type} (f : α → Tree → NodeId × Tree) (a : α) (as : List α) (s : Tree) :
    addEach f (a :: as) s =
      ((f a s).1 :: (addEach f as (f a s).2).1, (addEach f as (f a s).2).2) := rfl

/-- Making the members of a list one after the other gives different nodes, each a sprout or an old
node that a member stands for. -/
theorem addEach_spec {α : Type} {f : α → Tree → NodeId × Tree} {kept : α → Option NodeId}
    {R : Tree → α → NodeId → Prop} {as : List α}
    (hmono : ∀ s s' a y, y < s.size → Keeps s s' → R s a y → R s' a y)
    (hmakes : ∀ a ∈ as, Makes g f kept R a) (hkept : (as.filterMap kept).Nodup)
    (s : Tree) (hs : Keeps g s) :
    Grows s (addEach f as s).2 (fun _ => False) ∧ (addEach f as s).1.length = as.length ∧
    (addEach f as s).1.Nodup ∧
    (∀ y ∈ (addEach f as s).1, Sprout s (addEach f as s).2 y ∨ y ∈ as.filterMap kept) ∧
    ∀ pair ∈ as.zip (addEach f as s).1, R (addEach f as s).2 pair.1 pair.2 := by
  induction as generalizing s with
  | nil => exact ⟨.refl s _, rfl, List.nodup_nil, by simp [addEach], by simp [addEach]⟩
  | cons a as ih =>
    have ha := hmakes a (List.mem_cons_self ..)
    have hgrows := ha.grows s hs
    have hs₁ := hs.trans hgrows.toKeeps
    have hrest : (as.filterMap kept).Nodup := by
      cases hk : kept a with
      | none => rwa [List.filterMap_cons_none hk] at hkept
      | some id =>
        rw [List.filterMap_cons_some hk] at hkept
        exact (List.nodup_cons.mp hkept).2
    -- The others are made in the tree that the first one left, which keeps `g` too.
    obtain ⟨hgrows', hlength, hnodup, hmem, hholds⟩ :=
      ih (fun b hb => hmakes b (List.mem_cons_of_mem a hb)) hrest (f a s).2 hs₁
    have hlt := ha.lt_size hs
    refine ⟨?_, by simpa [addEach] using hlength, ?_, ?_, ?_⟩
    · exact hgrows.comp hgrows'
    · -- Later sprouts have larger ids; the nodes that members stand for differ by `hkept`.
      refine List.nodup_cons.mpr ⟨fun hy => ?_, hnodup⟩
      rcases hmem _ hy with hsprout | hold
      · exact Nat.not_le.mpr hlt hsprout.size_le
      · obtain ⟨b, hb, hkb⟩ := List.mem_filterMap.mp hold
        have hbg := ((hmakes b (List.mem_cons_of_mem a hb)).old s _ hs hkb).2
        cases hk : kept a with
        | none =>
          have := (ha.new s hs hk).size_le
          exact Nat.not_le.mpr hbg (Nat.le_trans hs.size_le this)
        | some id =>
          rw [List.filterMap_cons_some hk] at hkept
          rw [(ha.old s id hs hk).1] at hold
          exact (List.nodup_cons.mp hkept).1 hold
    · intro y hy
      rcases List.mem_cons.mp hy with rfl | hy
      · cases hk : kept a with
        | none => exact .inl ((ha.new s hs hk).keep hgrows')
        | some id =>
          rw [(ha.old s id hs hk).1, List.filterMap_cons_some hk]
          exact .inr (List.mem_cons_self ..)
      · rcases hmem y hy with hsprout | hold
        · exact .inl (hsprout.later hgrows.size_le)
        · rw [List.filterMap_cons]
          split
          · exact .inr hold
          · exact .inr (List.mem_cons_of_mem _ hold)
    · intro pair hpair
      rcases List.mem_cons.mp hpair with rfl | hpair
      · exact hmono _ _ _ _ hlt hgrows'.toKeeps (ha.holds s hs)
      · exact hholds pair hpair

/-- A node over the members of a list: it adopts the old nodes that members stand for, and is a
sprout itself. -/
theorem addEach_add_spec {α : Type} {f : α → Tree → NodeId × Tree} {kept : α → Option NodeId}
    {R : Tree → α → NodeId → Prop} {as : List α}
    (hmono : ∀ s s' a y, y < s.size → Keeps s s' → R s a y → R s' a y)
    (hmakes : ∀ a ∈ as, Makes g f kept R a) (hkept : (as.filterMap kept).Nodup)
    (s : Tree) (hs : Keeps g s)
    (hfree : ∀ y ∈ as.filterMap kept, ∀ z, s.size ≤ z → s.parent? y ≠ some z)
    (kind : NodeKind) (span : Span) (hchildren : kind.children = (addEach f as s).1) :
    Grows s ((addEach f as s).2.add kind span).2 (· ∈ as.filterMap kept) ∧
    Sprout s ((addEach f as s).2.add kind span).2 (addEach f as s).2.size ∧
    (addEach f as s).1.length = as.length ∧
    ∀ pair ∈ as.zip (addEach f as s).1,
      R ((addEach f as s).2.add kind span).2 pair.1 pair.2 := by
  obtain ⟨hgrows, hlength, hnodup, hmem, hholds⟩ := addEach_spec hmono hmakes hkept s hs
  have hold : ∀ c ∈ as.filterMap kept, c < s.size := by
    intro c hc
    obtain ⟨a, ha, hka⟩ := List.mem_filterMap.mp hc
    exact Nat.lt_of_lt_of_le ((hmakes a ha).old s c hs hka).2 hs.size_le
  have hchild : ∀ c ∈ kind.children,
      Sprout s (addEach f as s).2 c ∨ c < s.size ∧ c ∈ as.filterMap kept := by
    intro c hc
    rw [hchildren] at hc
    exact (hmem c hc).imp_right fun hkeep => ⟨hold c hkeep, hkeep⟩
  obtain ⟨hgrows', hsprout⟩ := hgrows.cap kind span (hchildren ▸ hnodup) hchild hfree
  refine ⟨hgrows', hsprout, hlength, fun pair hpair => ?_⟩
  have hlt : pair.2 < (addEach f as s).2.size := by
    rcases hmem _ (List.of_mem_zip hpair).2 with hsprout | hkeep
    · exact hsprout.lt_size
    · exact Nat.lt_of_lt_of_le (hold _ hkeep) hgrows.size_le
  exact hmono _ _ _ _ hlt (.add _ _ _) (hholds pair hpair)

/-! ### New expressions -/

/-- All new nodes are expressions. -/
def AddsExprs (s s' : Tree) : Prop := ∀ z, s.size ≤ z → z < s'.size → (s'.expr? z).isSome

theorem AddsExprs.refl (s : Tree) : AddsExprs s s :=
  fun _ hz hlt => absurd hz (Nat.not_le.mpr hlt)

theorem AddsExprs.trans (h : AddsExprs s s₁) (h' : AddsExprs s₁ s₂) (hkeeps : Keeps s₁ s₂) :
    AddsExprs s s₂ := by
  intro z hz hlt
  by_cases hz₁ : z < s₁.size
  · rw [expr?_congr (hkeeps.kind_eq z hz₁)]
    exact h z hz hz₁
  · exact h' z (Nat.le_of_not_lt hz₁) hlt

theorem AddsExprs.add (s : Tree) (e : Expr) (span : Span) :
    AddsExprs s (s.add (.expr e) span).2 := by
  intro z hz hlt
  have hzs : z = s.size := by
    rw [size_add] at hlt
    exact Nat.le_antisymm (Nat.le_of_lt_succ hlt) hz
  rw [expr?, hzs, kind?_add_self]
  rfl

theorem expr?_addExpr (s : Tree) (e : Expr) (span : Span) :
    (s.addExpr e span).2.expr? (s.addExpr e span).1 = some e := by
  rw [addExpr, add_fst, expr?, kind?_add_self]
  rfl

theorem span_addExpr (s : Tree) (e : Expr) (span : Span) :
    (s.addExpr e span).2.span (s.addExpr e span).1 = span := by
  rw [addExpr, add_fst, span_add, if_pos rfl]

theorem AddsExprs.addEach {α : Type} {f : α → Tree → NodeId × Tree} {as : List α}
    (hf : ∀ a ∈ as, ∀ s, Keeps g s → AddsExprs s (f a s).2 ∧ Keeps s (f a s).2)
    (hs : Keeps g s) :
    AddsExprs s (Tree.addEach f as s).2 ∧ Keeps s (Tree.addEach f as s).2 := by
  induction as generalizing s with
  | nil => exact ⟨.refl s, .refl s⟩
  | cons a as ih =>
    obtain ⟨hadds, hkeeps⟩ := hf a (List.mem_cons_self ..) s hs
    obtain ⟨hadds', hkeeps'⟩ :=
      ih (fun b hb => hf b (List.mem_cons_of_mem a hb)) (hs.trans hkeeps)
    exact ⟨hadds.trans hadds' hkeeps', hkeeps.trans hkeeps'⟩

end Tree

end StackTemplate
