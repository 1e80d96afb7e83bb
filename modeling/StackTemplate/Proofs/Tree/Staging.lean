import StackTemplate.Proofs.Tree.Growth
import StackTemplate.Proofs.Tree.Substitution
import StackTemplate.Proofs.Tree.WellFormed

/-!
# Staged replacements

A pass stages replacements one expression after the other, and applies them together. The
replacement of an expression is one of its own operands, or the top of some new nodes that were
made for it; these may hold operands of the expression, each at most once (`Block`).

So each new node has an *owner*, the expression that it was made for, and nothing that the new nodes
of one expression hold is held by those of another. `Staged` collects this for all the expressions
staged so far; `Staged.foldlM` and `Staged.foldl` are the whole passes.
-/

namespace StackTemplate

namespace Tree

variable {t g s s' : Tree} {staged : Replacements} {owner : NodeId → NodeId} {x y z c p : NodeId}

/-- Whether an expression is replaced by a new node. -/
def Remade (t : Tree) (staged : Replacements) (x : NodeId) : Prop :=
  ∃ y, staged.lookup x = some y ∧ t.size ≤ y

/-- The nodes made to replace the expression `x` of `t`, with `y` to take its place. -/
structure Block (t s s' : Tree) (x y : NodeId) : Prop where
  grows : Grows s s' (· ∈ t.children x)
  expr : ∀ z, s.size ≤ z → z < s'.size → (s'.expr? z).isSome
  value : y ∈ t.children x ∧ s' = s ∨ Sprout s s' y

/-- The tree `g` is `t` with new nodes for the staged replacements. -/
structure Staged (t : Tree) (staged : Replacements) (g : Tree) (owner : NodeId → NodeId) :
    Prop where
  keeps : Keeps t g
  expr : ∀ z, t.size ≤ z → z < g.size → (g.expr? z).isSome
  nodup : ∀ z, t.size ≤ z → (g.children z).Nodup
  child : ∀ z c, t.size ≤ z → c ∈ g.children z → c < z ∧ g.parent? c = some z
  /-- Old nodes that a new one holds are operands of its owner, which is replaced. -/
  child_old : ∀ z c, t.size ≤ z → c ∈ g.children z → c < t.size →
    c ∈ t.children (owner z) ∧ t.Remade staged (owner z)
  child_new : ∀ z c, t.size ≤ z → c ∈ g.children z → t.size ≤ c → owner c = owner z
  parent_eq : ∀ c, c < t.size → (∀ x, t.Remade staged x → c ∉ t.children x) →
    g.parent? c = t.parent? c
  key : ∀ x y, staged.lookup x = some y → x ∈ t.exprs ∧ t.isFinal x = false
  value : ∀ x y, staged.lookup x = some y → y ∈ t.children x ∨
    t.size ≤ y ∧ y < g.size ∧ g.parent? y = none ∧ owner y = x

theorem Staged.start (t : Tree) (owner : NodeId → NodeId) : Staged t [] t owner where
  keeps := .refl t
  expr z hz hlt := absurd hlt (Nat.not_lt.mpr hz)
  nodup z hz := by rw [children_of_size_le hz]; exact List.nodup_nil
  child z c hz hc := by rw [children_of_size_le hz] at hc; exact absurd hc List.not_mem_nil
  child_old z c hz hc := by rw [children_of_size_le hz] at hc; exact absurd hc List.not_mem_nil
  child_new z c hz hc := by rw [children_of_size_le hz] at hc; exact absurd hc List.not_mem_nil
  parent_eq _ _ _ := rfl
  key _ _ h := by cases h
  value _ _ h := by cases h

theorem lookup_cons_ne (staged : Replacements) {x x' : NodeId} (y : NodeId) (h : x' ≠ x) :
    List.lookup x' ((x, y) :: staged) = staged.lookup x' := by
  have hb : (x' == x) = false := by simpa using h
  rw [List.lookup_cons, hb]

/-- What is staged stays staged. -/
theorem Remade.cons (h : t.Remade staged z) (hx : staged.lookup x = none) :
    t.Remade ((x, y) :: staged) z := by
  obtain ⟨w, hw, hle⟩ := h
  have hne : z ≠ x := by
    rintro rfl
    rw [hx] at hw
    cases hw
  exact ⟨w, by rw [lookup_cons_ne staged y hne, hw], hle⟩

/-- The operands of an expression that is not staged hang below it. -/
theorem Staged.parent_of_child (h : Staged t staged g owner) (hwf : t.WellFormed)
    (hx : x ∈ t.exprs) (hfresh : staged.lookup x = none) (hc : c ∈ t.children x) :
    c < t.size ∧ g.parent? c = some x := by
  have hreach := (hwf.mem_exprs.mp hx).1
  have hlt := hwf.lt_size (hreach.tail hc)
  refine ⟨hlt, ?_⟩
  rw [h.parent_eq c hlt, hwf.parent_eq x c hreach hc]
  rintro x' ⟨y, hy, -⟩ hc'
  -- Another replaced expression cannot hold the operand, for it hangs below `x`.
  have hreach' := (hwf.mem_exprs.mp (h.key x' y hy).1).1
  rw [hwf.eq_of_mem_children hreach' hreach hc' hc, hfresh] at hy
  cases hy

/-- Operands of an expression that is not staged hang below no new node. -/
theorem Staged.operand_free (h : Staged t staged s owner) (hwf : t.WellFormed) (hx : x ∈ t.exprs)
    (hfresh : staged.lookup x = none) (hc : c ∈ t.children x) (hz : s.size ≤ z) :
    s.parent? c ≠ some z := by
  rw [(h.parent_of_child hwf hx hfresh hc).2]
  intro heq
  rw [← Option.some.inj heq] at hz
  have hlt := hwf.lt_size (hwf.mem_exprs.mp hx).1
  exact Nat.not_le.mpr hlt (Nat.le_trans h.keeps.size_le hz)

/-- A new expression over new nodes and operands of the one that it replaces. -/
theorem Staged.block_cap (h : Staged t staged s owner) (hwf : t.WellFormed) (hx : x ∈ t.exprs)
    (hfresh : staged.lookup x = none) (hgrows : Grows s s' fun _ => False)
    (hadds : AddsExprs s s') {e : Expr} (span : Span) (hnodup : e.children.Nodup)
    (hchild : ∀ c ∈ e.children, Sprout s s' c ∨ c ∈ t.children x) :
    Block t s (s'.addExpr e span).2 x (s'.addExpr e span).1 := by
  have hold : ∀ c ∈ t.children x, c < s.size := fun c hc =>
    Nat.lt_of_lt_of_le (h.parent_of_child hwf hx hfresh hc).1 h.keeps.size_le
  obtain ⟨hgrows', hsprout⟩ := hgrows.cap (P := (· ∈ t.children x)) (.expr e) span hnodup
    (fun c hc => (hchild c hc).imp_right fun hc => ⟨hold c hc, hc⟩)
    (fun c hc z hz => h.operand_free hwf hx hfresh hc hz)
  exact ⟨hgrows', hadds.trans (.add s' e span) (.add _ _ _), .inr hsprout⟩

/-- An expression for which nodes were made is replaced by one of them. -/
theorem Block.remade (hblock : Block t s s' x y) (hkeeps : Keeps t s) (hz : s.size ≤ z)
    (hlt : z < s'.size) : t.Remade ((x, y) :: staged) x := by
  rcases hblock.value with ⟨-, heq⟩ | hsprout
  · rw [heq] at hlt
    exact absurd hz (Nat.not_le.mpr hlt)
  · exact ⟨y, List.lookup_cons_self, Nat.le_trans hkeeps.size_le hsprout.size_le⟩

/-- What earlier new nodes hold is not adopted by those of one more expression. -/
theorem Staged.child_kept (h : Staged t staged s owner) (hwf : t.WellFormed) (hx : x ∈ t.exprs)
    (hfresh : staged.lookup x = none) (hblock : Block t s s' x y) (hz : t.size ≤ z)
    (hzs : z < s.size) (hc : c ∈ s.children z) : c < z ∧ s'.parent? c = some z := by
  obtain ⟨hcz, hparent⟩ := h.child z c hz hc
  refine ⟨hcz, ?_⟩
  rw [hblock.grows.parent_eq c (Nat.lt_trans hcz hzs), hparent]
  intro hcx
  rw [(h.parent_of_child hwf hx hfresh hcx).2] at hparent
  have hlt := hwf.lt_size (hwf.mem_exprs.mp hx).1
  rw [Option.some.inj hparent] at hlt
  exact Nat.not_lt.mpr hz hlt

/-- Staging one more expression. Its new nodes belong to it. -/
theorem Staged.step (h : Staged t staged s owner) (hwf : t.WellFormed) (hx : x ∈ t.exprs)
    (hfinal : t.isFinal x = false) (hfresh : staged.lookup x = none) (hblock : Block t s s' x y) :
    Staged t ((x, y) :: staged) s' fun z => if s.size ≤ z then x else owner z := by
  have hgrows := hblock.grows
  have holder : ∀ z, z < s.size → (if s.size ≤ z then x else owner z) = owner z :=
    fun z hz => if_neg (Nat.not_le.mpr hz)
  have hnewer : ∀ z, s.size ≤ z → (if s.size ≤ z then x else owner z) = x :=
    fun z hz => if_pos hz
  have hadopt : ∀ c ∈ t.children x, c < t.size := fun c hc =>
    (h.parent_of_child hwf hx hfresh hc).1
  -- A new node is an earlier one, and holds what it held, or was made for `x`.
  have hsplit : ∀ z, (z < s.size ∧ s'.children z = s.children z) ∨ s.size ≤ z := fun z =>
    (Nat.lt_or_ge z s.size).imp_left fun hzs => ⟨hzs, children_congr (hgrows.kind_eq z hzs)⟩
  exact
    { keeps := h.keeps.trans hgrows.toKeeps
      expr := fun z hz hlt => by
        by_cases hzs : z < s.size
        · rw [expr?_congr (hgrows.kind_eq z hzs)]
          exact h.expr z hz hzs
        · exact hblock.expr z (Nat.le_of_not_lt hzs) hlt
      nodup := fun z hz => by
        rcases hsplit z with ⟨-, hchildren⟩ | hle
        · rw [hchildren]
          exact h.nodup z hz
        · exact hgrows.nodup z hle
      child := fun z c hz hc => by
        rcases hsplit z with ⟨hzs, hchildren⟩ | hle
        · exact h.child_kept hwf hx hfresh hblock hz hzs (hchildren ▸ hc)
        · obtain ⟨hcz, hparent, -⟩ := hgrows.child z c hle hc
          exact ⟨hcz, hparent⟩
      child_old := fun z c hz hc hold => by
        rcases hsplit z with ⟨hzs, hchildren⟩ | hle
        · obtain ⟨hmem, hremade⟩ := h.child_old z c hz (hchildren ▸ hc) hold
          simp only [holder z hzs]
          exact ⟨hmem, hremade.cons hfresh⟩
        · have hcx := (hgrows.child z c hle hc).2.2 (Nat.lt_of_lt_of_le hold h.keeps.size_le)
          simp only [hnewer z hle]
          exact ⟨hcx, hblock.remade h.keeps hle (lt_size_of_mem_children hc)⟩
      child_new := fun z c hz hc hcnew => by
        rcases hsplit z with ⟨hzs, hchildren⟩ | hle
        · rw [hchildren] at hc
          have hcs := Nat.lt_trans (h.child z c hz hc).1 hzs
          simp only [holder z hzs, holder c hcs]
          exact h.child_new z c hz hc hcnew
        · have hcs : s.size ≤ c := Nat.le_of_not_lt fun hcs =>
            Nat.not_le.mpr (hadopt c ((hgrows.child z c hle hc).2.2 hcs)) hcnew
          simp only [hnewer z hle, hnewer c hcs]
      parent_eq := fun c hc hno => by
        have hs : s.parent? c = t.parent? c :=
          h.parent_eq c hc fun z hz => hno z (hz.cons hfresh)
        rcases hblock.value with ⟨-, heq⟩ | hsprout
        · rw [heq, hs]
        · rw [hgrows.parent_eq c (Nat.lt_of_lt_of_le hc h.keeps.size_le), hs]
          exact hno x (hblock.remade h.keeps hsprout.size_le hsprout.lt_size)
      key := fun x' y' hy => by
        by_cases hxx : x' = x
        · rw [hxx]
          exact ⟨hx, hfinal⟩
        · rw [lookup_cons_ne staged y hxx] at hy
          exact h.key x' y' hy
      value := fun x' y' hy => by
        by_cases hxx : x' = x
        · subst hxx
          rw [List.lookup_cons_self] at hy
          obtain rfl := Option.some.inj hy
          refine hblock.value.imp And.left fun hsprout => ?_
          exact ⟨Nat.le_trans h.keeps.size_le hsprout.size_le, hsprout.lt_size, hsprout.parent_eq,
            hnewer y hsprout.size_le⟩
        · rw [lookup_cons_ne staged y hxx] at hy
          refine (h.value x' y' hy).imp_right fun ⟨hle, hlt, hparent, howner⟩ => ?_
          refine ⟨hle, Nat.lt_of_lt_of_le hlt hgrows.size_le, ?_, (holder y' hlt).trans howner⟩
          rw [hgrows.parent_eq y' hlt, hparent]
          exact fun hmem => Nat.not_le.mpr (hadopt y' hmem) hle }

/-! ### Where staged replacements lead -/

section Leads

variable (h : Staged t staged g owner) (hwf : t.WellFormed)

include h hwf

theorem Staged.reaches_of_key (hx : staged.lookup x = some y) : t.Reaches t.root x :=
  (hwf.mem_exprs.mp (h.key x y hx).1).1

/-- New nodes are not replaced. -/
theorem Staged.lookup_new (hz : t.size ≤ z) : staged.lookup z = none := by
  cases hr : staged.lookup z with
  | none => rfl
  | some y => exact absurd hz (Nat.not_le.mpr (hwf.lt_size (h.reaches_of_key hwf hr)))

/-- The content of nodes that are not expressions is not replaced. -/
theorem Staged.lookup_of_not_expr (hx : t.expr? x = none) : staged.lookup x = none := by
  cases hr : staged.lookup x with
  | none => rfl
  | some y =>
    have := (hwf.mem_exprs.mp (h.key x y hr).1).2
    rw [hx] at this
    cases this

theorem Staged.children_old (hx : t.Reaches t.root x) : g.children x = t.children x :=
  children_congr (h.keeps.kind_eq x (hwf.lt_size hx))

/-- No way over children and replacements is endless: replacements lead to operands, or to new
nodes that hold operands. -/
theorem Staged.settles (hx : t.Reaches t.root x) :
    g.Settles (fun id => staged.lookup id) x := by
  have hgrounded := hwf.grounded_of_reaches hx
  induction hgrounded with
  | @intro x lt below ih =>
    -- New nodes are made from the bottom up; what they hold of `x` settles by `ih`.
    have hnew : ∀ z, t.size ≤ z → z < g.size → owner z = x →
        g.Settles (fun id => staged.lookup id) z := by
      intro z
      induction z using Nat.strong_induction_on with
      | _ z ihz =>
        intro hz hlt howner
        refine .intro hlt fun c hc => ?_
        rcases List.mem_append.mp hc with hc | hc
        · have hcz := (h.child z c hz hc).1
          by_cases hold : c < t.size
          · have hmem := (h.child_old z c hz hc hold).1
            rw [howner] at hmem
            exact ih c hmem (hx.tail hmem)
          · have hle := Nat.le_of_not_lt hold
            exact ihz c hcz hle (Nat.lt_trans hcz hlt)
              ((h.child_new z c hz hc hle).trans howner)
        · simp [h.lookup_new hwf hz] at hc
    refine .intro (Nat.lt_of_lt_of_le lt h.keeps.size_le) fun c hc => ?_
    rcases List.mem_append.mp hc with hc | hc
    · rw [h.children_old hwf hx] at hc
      exact ih c hc (hx.tail hc)
    · rw [Option.mem_toList] at hc
      rcases h.value x c hc with hmem | ⟨hle, hlt, -, howner⟩
      · exact ih c hmem (hx.tail hmem)
      · exact hnew c hle hlt howner

/-- One replacement of an expression by an operand. -/
def Lifts (t : Tree) (staged : Replacements) (x y : NodeId) : Prop :=
  staged.lookup x = some y ∧ y ∈ t.children x

/-- A replaced expression leads to where its replacement leads. -/
theorem Staged.follow_of_lookup (hx : staged.lookup x = some y) :
    g.follow (fun id => staged.lookup id) x = g.follow (fun id => staged.lookup id) y := by
  have hreach := h.reaches_of_key hwf hx
  have hfinal : g.isFinal x = false := by
    rw [isFinal, expr?_congr (h.keeps.kind_eq x (hwf.lt_size hreach))]
    exact (h.key x y hx).2
  exact follow_of_some (r := fun id => staged.lookup id) (h.settles hwf hreach) hfinal hx

/-- From an old node replacements lead down over operands, to a node that is not replaced or to a
new one. -/
theorem Staged.follow_old (hx : t.Reaches t.root x) :
    ∃ w, Relation.ReflTransGen (Lifts t staged) x w ∧ t.Reaches t.root w ∧
      (staged.lookup w = none ∧ g.follow (fun id => staged.lookup id) x = w ∨
        ∃ y, staged.lookup w = some y ∧ t.size ≤ y ∧ y < g.size ∧ owner y = w ∧
          g.follow (fun id => staged.lookup id) x = y) := by
  have hgrounded := hwf.grounded_of_reaches hx
  induction hgrounded with
  | @intro x lt below ih =>
    have hsettles := h.settles hwf hx
    cases hr : staged.lookup x with
    | none => exact ⟨x, .refl, hx, .inl ⟨hr, follow_of_none hsettles hr⟩⟩
    | some y =>
      have hfollow := h.follow_of_lookup hwf hr
      rcases h.value x y hr with hmem | ⟨hle, hlt, -, howner⟩
      · obtain ⟨w, hlifts, hw, hend⟩ := ih y hmem (hx.tail hmem)
        rw [← hfollow] at hend
        exact ⟨w, .head ⟨hr, hmem⟩ hlifts, hw, hend⟩
      · have hyr := h.lookup_new hwf hle
        have hself := follow_of_none (hsettles.replacement hr) hyr
        exact ⟨x, .refl, hx, .inr ⟨y, hr, hle, hlt, howner, hfollow.trans hself⟩⟩

/-- An old node leads to itself only if nothing replaces it. -/
theorem Staged.follow_eq_self_iff (hx : t.Reaches t.root x) :
    g.follow (fun id => staged.lookup id) x = x ↔ staged.lookup x = none := by
  refine ⟨fun hself => ?_, follow_of_none (h.settles hwf hx)⟩
  obtain ⟨w, -, -, ⟨hnone, hw⟩ | ⟨y, -, hy, -, -, hw⟩⟩ := h.follow_old hwf hx
  · rwa [← hself, hw]
  · exact absurd (hwf.lt_size hx) (Nat.not_lt.mpr (hself.symm.trans hw ▸ hy))

/-- New nodes lead to themselves. -/
theorem Staged.follow_new (hz : t.size ≤ z) :
    g.follow (fun id => staged.lookup id) z = z := by
  have hnone := h.lookup_new hwf hz
  rw [follow]
  cases g.size with
  | zero => rfl
  | succ n =>
    rw [followWithin, hnone]
    split <;> rfl

/-- An expression leads to the new node that replaces it. -/
theorem Staged.follow_made (hx : staged.lookup x = some y) (hy : t.size ≤ y) :
    g.follow (fun id => staged.lookup id) x = y := by
  rw [h.follow_of_lookup hwf hx, h.follow_new hwf hy]

end Leads

/-! ### Staging one expression after the other -/

/-- A fold meets no fault if no step does where `P` holds, and keeps `P`. -/
theorem foldlM_ok {ε σ α : Type} {P : σ → Prop} {step : σ → α → Except ε σ} {as : List α}
    (hstep : ∀ s, ∀ a ∈ as, P s → ∃ s', step s a = .ok s' ∧ P s') {s : σ} (hs : P s) :
    ∃ s', as.foldlM step s = .ok s' ∧ P s' := by
  induction as generalizing s with
  | nil => exact ⟨s, rfl, hs⟩
  | cons a as ih =>
    obtain ⟨next, hnext, hP⟩ := hstep s a (List.mem_cons_self ..) hs
    rw [List.foldlM_cons, hnext]
    exact ih (fun s a' ha' => hstep s a' (List.mem_cons_of_mem a ha')) hP

/-- What every step keeps, a fold that meets no fault keeps. -/
theorem foldlM_keeps {ε σ α : Type} {P : σ → Prop} {step : σ → α → Except ε σ} {as : List α}
    (hstep : ∀ s a s', P s → step s a = .ok s' → P s') {s s' : σ} (hs : P s)
    (h : as.foldlM step s = .ok s') : P s' := by
  induction as generalizing s with
  | nil =>
    obtain rfl := Except.ok.inj h
    exact hs
  | cons a as ih =>
    rw [List.foldlM_cons] at h
    obtain ⟨next, ha, hrest⟩ := exists_of_bind_eq_ok h
    exact ih (hstep s a next hs ha) hrest

/-- What every step keeps that takes up an argument for the first time, a fold over distinct
arguments keeps. -/
theorem foldlM_done {ε σ α : Type} {P : σ → List α → Prop} {step : σ → α → Except ε σ}
    {as : List α} (hstep : ∀ s done, ∀ a ∈ as, ∀ s', P s done → a ∉ done → step s a = .ok s' →
      P s' (done ++ [a])) {s s' : σ} {done : List α} (hs : P s done) (hnodup : (done ++ as).Nodup)
    (h : as.foldlM step s = .ok s') : P s' (done ++ as) := by
  induction as generalizing s done with
  | nil =>
    obtain rfl := Except.ok.inj h
    rwa [List.append_nil]
  | cons a as ih =>
    have hsplit : done ++ a :: as = done ++ [a] ++ as := by
      rw [List.append_assoc, List.singleton_append]
    have hnew : a ∉ done := fun hmem =>
      (List.nodup_append.mp hnodup).2.2 a hmem a (List.mem_cons_self ..) rfl
    rw [List.foldlM_cons] at h
    obtain ⟨next, ha, hrest⟩ := exists_of_bind_eq_ok h
    rw [hsplit] at hnodup ⊢
    have hnext := hstep s done a (List.mem_cons_self ..) next hs hnew ha
    exact ih (fun s done b hb => hstep s done b (List.mem_cons_of_mem a hb)) hnext hnodup hrest

/-- Stages that leave all as it is, one after the other. -/
theorem foldlM_of_fixed {α β : Type} {step : β → α → Except Fault β} {b : β} {as : List α}
    (h : ∀ a ∈ as, step b a = .ok b) : as.foldlM step b = .ok b := by
  have hstep : ∀ s, ∀ a ∈ as, s = b → ∃ s', step s a = .ok s' ∧ s' = b := by
    rintro s a ha rfl
    exact ⟨s, h a ha, rfl⟩
  obtain ⟨after, hafter, rfl⟩ := foldlM_ok (P := (· = b)) hstep rfl
  exact hafter

/-- One stage of a pass: an expression is left alone, or some nodes are made to replace it. `Q` is
what there is to say about an expression and its replacement. -/
def Stages (t : Tree) (Q : Tree → NodeId → Option NodeId → Prop) (sofar after : Replacements × Tree)
    (x : NodeId) : Prop :=
  after = sofar ∧ Q sofar.2 x none ∨
    ∃ y, after.1 = (x, y) :: sofar.1 ∧ t.isFinal x = false ∧ Block t sofar.2 after.2 x y ∧
      Q after.2 x (some y)

/-- A pass over all expressions in which every stage succeeds. -/
theorem Staged.foldlM {Q : Tree → NodeId → Option NodeId → Prop}
    {step : Replacements × Tree → NodeId → Except Fault (Replacements × Tree)}
    (hwf : t.WellFormed)
    (hmono : ∀ s s' x y, x < t.size → Keeps t s → Keeps s s' → Q s x y → Q s' x y)
    (hstep : ∀ sofar owner x, Staged t sofar.1 sofar.2 owner → x ∈ t.exprs →
      sofar.1.lookup x = none → ∃ after, step sofar x = .ok after ∧ Stages t Q sofar after x) :
    ∃ after owner, t.exprs.foldlM step ([], t) = .ok after ∧ Staged t after.1 after.2 owner ∧
      ∀ x ∈ t.exprs, Q after.2 x (after.1.lookup x) := by
  -- The induction is on the expressions still to come; none of them is staged.
  have hrun : ∀ xs : List NodeId, xs.Nodup → (∀ x ∈ xs, x ∈ t.exprs) →
      ∀ (sofar : Replacements × Tree) (owner : NodeId → NodeId),
      Staged t sofar.1 sofar.2 owner → (∀ x ∈ xs, sofar.1.lookup x = none) →
      ∃ after owner, xs.foldlM step sofar = .ok after ∧ Staged t after.1 after.2 owner ∧
        Keeps sofar.2 after.2 ∧ (∀ x ∈ xs, Q after.2 x (after.1.lookup x)) ∧
        ∀ x, x ∉ xs → after.1.lookup x = sofar.1.lookup x := by
    intro xs
    induction xs with
    | nil =>
      intro _ _ sofar owner hs _
      exact ⟨sofar, owner, rfl, hs, .refl _, by simp, fun _ _ => rfl⟩
    | cons x xs ih =>
      intro hnodup hmem sofar owner hs hfresh
      obtain ⟨hx, hnodup⟩ := List.nodup_cons.mp hnodup
      have hxmem := hmem x (List.mem_cons_self ..)
      have hxfresh := hfresh x (List.mem_cons_self ..)
      have hrest : ∀ z ∈ xs, z ∈ t.exprs := fun z hz => hmem z (List.mem_cons_of_mem x hz)
      have hlt := hwf.lt_size (hwf.mem_exprs.mp hxmem).1
      obtain ⟨next, hnext, hstages⟩ := hstep sofar owner x hs hxmem hxfresh
      rw [List.foldlM_cons, hnext]
      rcases hstages with ⟨heq, hq⟩ | ⟨y, hstaged, hfinal, hblock, hq⟩
      · rw [heq]
        obtain ⟨after, owner', hrun, hs', hkeeps, hqs, hother⟩ := ih hnodup hrest sofar owner hs
          fun z hz => hfresh z (List.mem_cons_of_mem x hz)
        refine ⟨after, owner', hrun, hs', hkeeps, fun z hz => ?_, fun z hz =>
          hother z fun hz' => hz (List.mem_cons_of_mem x hz')⟩
        rcases List.mem_cons.mp hz with rfl | hz
        · rw [hother z hx, hxfresh]
          exact hmono _ _ z none hlt hs.keeps hkeeps hq
        · exact hqs z hz
      · have hs₁ := hs.step hwf hxmem hfinal hxfresh hblock
        rw [← hstaged] at hs₁
        have hne : ∀ z, z ≠ x → next.1.lookup z = sofar.1.lookup z := by
          intro z hz
          rw [hstaged, lookup_cons_ne sofar.1 y hz]
        have hfresh' : ∀ z ∈ xs, next.1.lookup z = none := by
          intro z hz
          rw [hne z fun heq => hx (heq ▸ hz)]
          exact hfresh z (List.mem_cons_of_mem x hz)
        obtain ⟨after, owner', hrun, hs', hkeeps, hqs, hother⟩ :=
          ih hnodup hrest next _ hs₁ hfresh'
        refine ⟨after, owner', hrun, hs', hblock.grows.toKeeps.trans hkeeps, fun z hz => ?_,
          fun z hz => ?_⟩
        · rcases List.mem_cons.mp hz with rfl | hz
          · rw [hother z hx, hstaged, List.lookup_cons_self]
            exact hmono _ _ z (some y) hlt hs₁.keeps hkeeps hq
          · exact hqs z hz
        · rw [hother z fun hz' => hz (List.mem_cons_of_mem x hz'),
            hne z fun heq => hz (heq ▸ List.mem_cons_self ..)]
  obtain ⟨after, owner, hrun, hs, -, hqs, -⟩ :=
    hrun t.exprs hwf.nodup_exprs (fun x hx => hx) ([], t) id (.start t id) fun _ _ => rfl
  exact ⟨after, owner, hrun, hs, hqs⟩

theorem Staged.foldl {Q : Tree → NodeId → Option NodeId → Prop}
    {step : Replacements × Tree → NodeId → Replacements × Tree} (hwf : t.WellFormed)
    (hmono : ∀ s s' x y, x < t.size → Keeps t s → Keeps s s' → Q s x y → Q s' x y)
    (hstep : ∀ sofar owner x, Staged t sofar.1 sofar.2 owner → x ∈ t.exprs →
      sofar.1.lookup x = none → Stages t Q sofar (step sofar x) x) :
    ∃ owner, Staged t (t.exprs.foldl step ([], t)).1 (t.exprs.foldl step ([], t)).2 owner ∧
      ∀ x ∈ t.exprs, Q (t.exprs.foldl step ([], t)).2 x
        ((t.exprs.foldl step ([], t)).1.lookup x) := by
  have hpure : ∀ sofar owner x, Staged t sofar.1 sofar.2 owner → x ∈ t.exprs →
      sofar.1.lookup x = none →
      ∃ after, (pure (step sofar x) : Except Fault _) = .ok after ∧ Stages t Q sofar after x :=
    fun sofar owner x hs hx hfresh => ⟨_, rfl, hstep sofar owner x hs hx hfresh⟩
  obtain ⟨after, owner, hrun, hs, hqs⟩ := Staged.foldlM hwf hmono hpure
  rw [List.foldlM_pure] at hrun
  obtain rfl := Except.ok.inj hrun
  exact ⟨owner, hs, hqs⟩

end Tree

end StackTemplate
