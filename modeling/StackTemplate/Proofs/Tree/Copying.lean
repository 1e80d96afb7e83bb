import StackTemplate.Proofs.Tree.Growth

/-!
# Copies of subtrees

A copy is the same subtree over new nodes: every node of it has the content and the place of the
node it was copied from, with the copies of the children in its slots (`Mirrors`). Copying changes
nothing that is there, and the top of the copy hangs below nothing (`copy_spec`).
-/

namespace StackTemplate

namespace Tree

variable {g s s' : Tree} {x y z : NodeId}

/-- The subtree at `y` is that at `x` over new nodes. -/
inductive Mirrors (g s : Tree) : NodeId → NodeId → Prop where
  | intro {x y : NodeId} {kind : NodeKind} {ys : List NodeId} (hnew : g.size ≤ y)
    (hx : g.kind? x = some kind) (hlength : ys.length = kind.children.length) (hy : s.kind? y = some (kind.refill ys))
    (hspan : s.span y = g.span x)
    (below : ∀ pair ∈ kind.children.zip ys, Mirrors g s pair.1 pair.2) : Mirrors g s x y

theorem Mirrors.lt_size (h : Mirrors g s x y) : y < s.size := by
  cases h with
  | intro hnew hx hlength hy hspan below => exact lt_size_of_kind? hy

theorem Mirrors.size_le (h : Mirrors g s x y) : g.size ≤ y := by
  cases h with
  | intro hnew hx hlength hy hspan below => exact hnew

theorem Mirrors.keep (h : Mirrors g s x y) (hs : Keeps s s') : Mirrors g s' x y := by
  induction h with
  | intro hnew hx hlength hy hspan below ih =>
    have hlt := lt_size_of_kind? hy
    exact .intro hnew hx hlength ((hs.kind_eq _ hlt).trans hy) ((hs.span_eq _ hlt).trans hspan) ih

/-- Copying a subtree that is no deeper than `depth`, over any tree that keeps it. -/
theorem copyWithin_makes {depth : Nat} (hx : Within g.children g.size depth x) :
    Makes g (copyWithin depth) (fun _ => none) (Mirrors g) x := by
  induction depth generalizing x with
  | zero => exact hx.elim
  | succ depth ih =>
    obtain ⟨kind, hkind⟩ := exists_kind? hx.1
    have hbelow : ∀ c ∈ kind.children,
        Makes g (copyWithin depth) (fun _ => none) (Mirrors g) c := fun c hc =>
      ih (hx.2 c (by rwa [children_of_kind? hkind]))
    -- All that is asked follows from one fact about the copy in any tree that keeps `g`.
    have hspec : ∀ s, Keeps g s →
        Grows s (copyWithin (depth + 1) x s).2 (fun _ => False) ∧
        Sprout s (copyWithin (depth + 1) x s).2 (copyWithin (depth + 1) x s).1 ∧
        Mirrors g (copyWithin (depth + 1) x s).2 x (copyWithin (depth + 1) x s).1 := by
      intro s hs
      obtain ⟨n, hn⟩ := exists_node? (Nat.lt_of_lt_of_le hx.1 hs.size_le)
      have hnk : n.kind = kind := by
        have := hs.kind_eq x hx.1
        rw [kind?, hn, hkind] at this
        exact Option.some.inj this
      have hns : n.span = g.span x := by
        rw [← hs.span_eq x hx.1, Tree.span, hn]
        rfl
      have hlength : (addEach (copyWithin depth) kind.children s).1.length =
          kind.children.length :=
        (addEach_spec (fun _ _ _ _ _ hk hm => hm.keep hk) hbelow (by simp) s hs).2.1
      have hcopy : copyWithin (depth + 1) x s =
          (addEach (copyWithin depth) kind.children s).2.add
            (kind.refill (addEach (copyWithin depth) kind.children s).1) (g.span x) := by
        rw [copyWithin, hn]
        simp only [hnk, hns]
      obtain ⟨hgrows, hsprout, -, hmirrors⟩ := addEach_add_spec
        (fun _ _ _ _ _ hk hm => hm.keep hk) hbelow (by simp) s hs (by simp)
        (kind.refill (addEach (copyWithin depth) kind.children s).1) (g.span x)
        (NodeKind.children_refill hlength)
      rw [hcopy]
      refine ⟨hgrows.mono fun c hc => by simp at hc, hsprout, ?_⟩
      refine .intro ?_ hkind hlength ?_ ?_ hmirrors
      · rw [add_fst]
        exact Nat.le_trans hs.size_le hsprout.size_le
      · rw [add_fst, kind?_add_self]
      · rw [add_fst, span_add, if_pos rfl]
    exact ⟨fun s hs => (hspec s hs).1, fun _ _ _ h => (Option.some_ne_none _ h.symm).elim,
      fun s hs _ => (hspec s hs).2.1, fun s hs => (hspec s hs).2.2⟩

/-- A copy of a grounded subtree is that subtree over new nodes, and nothing else changes. -/
theorem copy_spec (hx : g.Grounded x) (hs : Keeps g s) :
    Grows s (s.copy x).2 (fun _ => False) ∧ Sprout s (s.copy x).2 (s.copy x).1 ∧
      Mirrors g (s.copy x).2 x (s.copy x).1 := by
  have hmakes := copyWithin_makes ((within_of_grounded hx).mono hs.size_le)
  exact ⟨hmakes.grows s hs, hmakes.new s hs rfl, hmakes.holds s hs⟩

/-- Copying expressions makes expressions. -/
theorem addsExprs_copyWithin {depth : Nat} (hx : Within g.children g.size depth x)
    (hexpr : ∀ z, g.Reaches x z → (g.expr? z).isSome) (hs : Keeps g s) :
    AddsExprs s (copyWithin depth x s).2 ∧ Keeps s (copyWithin depth x s).2 := by
  induction depth generalizing x s with
  | zero => exact hx.elim
  | succ depth ih =>
    obtain ⟨e, he⟩ := Option.isSome_iff_exists.mp (hexpr x .refl)
    obtain ⟨n, hn⟩ := exists_node? (Nat.lt_of_lt_of_le hx.1 hs.size_le)
    have hnk : n.kind = .expr e := by
      have := hs.kind_eq x hx.1
      rw [kind?, hn, expr?_eq_some.mp he] at this
      exact Option.some.inj this
    have hchild : ∀ c ∈ e.children, ∀ s, Keeps g s →
        AddsExprs s (copyWithin depth c s).2 ∧ Keeps s (copyWithin depth c s).2 := by
      intro c hc s hs
      rw [← children_of_expr? he] at hc
      exact ih (hx.2 c hc) (fun z hz => hexpr z ((Reaches.refl.tail hc).trans hz)) hs
    obtain ⟨hadds, hkeeps⟩ := AddsExprs.addEach hchild hs
    rw [copyWithin, hn]
    simp only [hnk]
    exact ⟨hadds.trans (.add _ _ _) (.add _ _ _), hkeeps.trans (.add _ _ _)⟩

theorem exists_mem_zip {α β : Type} {as : List α} {bs : List β} {b : β}
    (hlength : bs.length = as.length) (hb : b ∈ bs) : ∃ a, (a, b) ∈ as.zip bs := by
  obtain ⟨i, hi⟩ := List.mem_iff_getElem?.mp hb
  have hlt : i < as.length := hlength ▸ (List.getElem?_eq_some_iff.mp hi).1
  refine ⟨as.get ⟨i, hlt⟩, List.mem_iff_getElem?.mpr ⟨i, ?_⟩⟩
  rw [List.getElem?_zip_eq_some]
  exact ⟨by simp, hi⟩

theorem map_eq_map_of_zip {α β γ : Type} {f : α → γ} {g : β → γ} {as : List α} {bs : List β}
    (hlength : bs.length = as.length) (h : ∀ pair ∈ as.zip bs, g pair.2 = f pair.1) :
    bs.map g = as.map f := by
  induction as generalizing bs with
  | nil =>
    rw [List.length_eq_zero_iff.mp hlength]
    rfl
  | cons a as ih =>
    cases bs with
    | nil => cases hlength
    | cons b bs =>
      rw [List.map_cons, List.map_cons, h (a, b) (List.mem_cons_self ..),
        ih (Nat.succ.inj hlength) fun pair hpair => h pair (List.mem_cons_of_mem _ hpair)]

/-- Every node of a copy is a copy of some node. -/
theorem Mirrors.reaches (h : Mirrors g s x y) (hz : s.Reaches y z) :
    ∃ w, g.Reaches x w ∧ Mirrors g s w z := by
  induction hz with
  | refl => exact ⟨x, .refl, h⟩
  | @tail y z _ hz ih =>
    obtain ⟨w, hw, hmirrors⟩ := ih
    cases hmirrors with
    | @intro w y kind ys hnew hx hlength hy hspan below =>
      rw [children_of_kind? hy, NodeKind.children_refill hlength] at hz
      obtain ⟨v, hv⟩ := exists_mem_zip hlength hz
      refine ⟨v, hw.tail ?_, below _ hv⟩
      rw [children_of_kind? hx]
      exact (List.of_mem_zip hv).1

end Tree

end StackTemplate
