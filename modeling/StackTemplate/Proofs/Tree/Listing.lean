import StackTemplate.Proofs.Tree.Access
import StackTemplate.Proofs.Tree.Grounded

/-!
# Document order

Below a grounded node the walk with a stack lists the node, and then what it lists for each child
in turn (`descendants_eq`). So it lists exactly the nodes that can be met on the way down
(`mem_descendants`), and `exprs` and `decls` are the expressions and declarations among the nodes
within reach of the root.
-/

namespace StackTemplate

namespace Tree

variable {t : Tree} {x y : NodeId}

/-- Whether a node is met on a way down from another, itself included. -/
def Reaches (t : Tree) : NodeId → NodeId → Prop := Descends t.children

/-- Whether every way down from a node ends inside the tree. -/
def Grounded (t : Tree) (x : NodeId) : Prop := StackTemplate.Grounded t.children t.size x

theorem Reaches.refl : t.Reaches x x := Relation.ReflTransGen.refl

theorem Reaches.tail {z : NodeId} (h : t.Reaches x y) (hz : z ∈ t.children y) : t.Reaches x z :=
  Relation.ReflTransGen.tail h hz

theorem Reaches.head {z : NodeId} (hy : y ∈ t.children x) (h : t.Reaches y z) : t.Reaches x z :=
  Relation.ReflTransGen.head hy h

theorem Reaches.trans {z : NodeId} (h : t.Reaches x y) (h' : t.Reaches y z) : t.Reaches x z :=
  Relation.ReflTransGen.trans h h'

/-- Induction from the leaves of a grounded node to the node. -/
theorem Grounded.induct {P : NodeId → Prop} (h : t.Grounded x)
    (step : ∀ y, t.Grounded y → (∀ c ∈ t.children y, P c) → P y) : P x := by
  induction h with
  | @intro x lt below ih => exact step x (.intro lt below) ih

/-- Two trees that agree on what a node reaches, agree on what is grounded below it. -/
theorem Grounded.congr {t' : Tree} (h : t.Grounded x)
    (hkind : ∀ y, t.Reaches x y → t'.kind? y = t.kind? y) : t'.Grounded x := by
  induction h with
  | @intro x lt below ih =>
    have hx := hkind x .refl
    refine .intro (isSome_kind?.mp (hx ▸ isSome_kind?.mpr lt)) fun c hc => ?_
    rw [children_congr hx] at hc
    exact ih c hc fun y hy => hkind y (.head hc hy)

/-! ### The size of a subtree -/

theorem totalOf_congr {α : Type} {f g : α → Nat} {as : List α} (h : ∀ a ∈ as, f a = g a) :
    totalOf f as = totalOf g as := by
  induction as with
  | nil => rfl
  | cons a as ih =>
    rw [totalOf, totalOf, h a (List.mem_cons_self ..), ih fun b hb => h b (List.mem_cons_of_mem a hb)]

/-- The size of a subtree does not depend on the depth, if that is enough. -/
theorem weight_congr {n m : Nat} (hn : Within t.children t.size n x)
    (hm : Within t.children t.size m x) : t.weight n x = t.weight m x := by
  induction n generalizing m x with
  | zero => exact hn.elim
  | succ n ih =>
    cases m with
    | zero => exact hm.elim
    | succ m =>
      rw [weight, weight, totalOf_congr fun c hc => ih (hn.2 c hc) (hm.2 c hc)]

theorem weight_eq (h : t.Grounded x) :
    t.weight t.size x = totalOf (t.weight t.size) (t.children x) + 1 := by
  obtain ⟨depth, hsize, hbelow⟩ := h.exists_within
  have hchildren : ∀ c ∈ t.children x, t.weight depth c = t.weight t.size c := fun c hc =>
    weight_congr (hbelow c hc) (within_of_grounded (h.child hc))
  conv_lhs => rw [hsize, weight, totalOf_congr hchildren, Nat.add_comm]

/-! ### Listing -/

/-- A stack of pending nodes is listed node by node, if each of them is. -/
theorem visitPending_append {pending : List NodeId} (k : Nat) (rest : List NodeId)
    (h : ∀ c ∈ pending, ∀ k rest, t.visitPending (t.weight t.size c + k) (c :: rest) =
      t.descendants c ++ t.visitPending k rest) :
    t.visitPending (totalOf (t.weight t.size) pending + k) (pending ++ rest) =
      pending.flatMap t.descendants ++ t.visitPending k rest := by
  induction pending with
  | nil => simp [totalOf]
  | cons c cs ih =>
    rw [totalOf, Nat.add_assoc, List.cons_append, h c (List.mem_cons_self ..),
      ih fun b hb => h b (List.mem_cons_of_mem c hb), List.flatMap_cons, List.append_assoc]

/-- As many steps as a grounded subtree has nodes list the subtree and leave the rest of the
stack. -/
theorem visitPending_cons (h : t.Grounded x) (k : Nat) (rest : List NodeId) :
    t.visitPending (t.weight t.size x + k) (x :: rest) =
      t.descendants x ++ t.visitPending k rest := by
  induction h generalizing k rest with
  | @intro x lt below ih =>
    have hgeneral : ∀ k rest, t.visitPending (t.weight t.size x + k) (x :: rest) =
        x :: (t.children x).flatMap t.descendants ++ t.visitPending k rest := by
      intro k rest
      rw [weight_eq (.intro lt below), Nat.add_right_comm, visitPending,
        visitPending_append k rest ih, List.cons_append]
    have hself : t.descendants x = x :: (t.children x).flatMap t.descendants := by
      show t.visitPending (t.weight t.size x) [x] = _
      simpa [visitPending] using hgeneral 0 []
    rw [hself, hgeneral]

/-- A grounded node is listed before what is below its children, in their order. -/
theorem descendants_eq (h : t.Grounded x) :
    t.descendants x = x :: (t.children x).flatMap t.descendants := by
  have hpending := visitPending_append 0 [] fun c hc => visitPending_cons (h.child hc)
  rw [descendants, weight_eq h, visitPending, List.append_nil]
  simpa [visitPending] using hpending

/-- The list holds what can be met on the way down, and nothing else. -/
theorem mem_descendants (h : t.Grounded x) : y ∈ t.descendants x ↔ t.Reaches x y := by
  induction h with
  | @intro x lt below ih =>
    rw [descendants_eq (.intro lt below), List.mem_cons, List.mem_flatMap]
    constructor
    · rintro (rfl | ⟨c, hc, hy⟩)
      · exact .refl
      · exact .head hc ((ih c hc).mp hy)
    · intro hy
      rcases Relation.ReflTransGen.cases_head hy with rfl | ⟨c, hc, hcy⟩
      · exact .inl rfl
      · exact .inr ⟨c, hc, (ih c hc).mpr hcy⟩

theorem mem_exprs (h : t.Grounded t.root) :
    x ∈ t.exprs ↔ t.Reaches t.root x ∧ (t.expr? x).isSome := by
  rw [exprs, List.mem_filter, reachable, mem_descendants h]

theorem mem_decls (h : t.Grounded t.root) :
    x ∈ t.decls ↔ t.Reaches t.root x ∧ (t.decl? x).isSome := by
  rw [decls, List.mem_filter, reachable, mem_descendants h]

end Tree

end StackTemplate
