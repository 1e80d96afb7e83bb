import StackTemplate.Proofs.Tree.Counting
import StackTemplate.Proofs.Tree.WellFormed
import StackTemplate.Tree.Walk

/-!
# Visiting

A visitor that overrides nothing is called once for a node, by the method for the sort of the node,
and then for the node's children in order. `Visits` gives the calls of such a walk that ends; there
is no bound on its depth. The walk ends just where every way down does (`exists_visits`), its calls
come in document order (`Visits.calls_eq`), and so do the entering steps of a tour
(`entered_tour`). The walk with a stack meets the same nodes, and after the last of them its stack is
empty (`visitPending_of_length_le`).
-/

namespace StackTemplate

namespace Tree

variable {t : Tree} {x y : NodeId}

/-! ### The calls of a visitor -/

mutual

/-- The calls that a walk from a node makes, each with the node and what is in it. -/
inductive Visits (t : Tree) : NodeId → List (NodeId × NodeKind) → Prop where
  | module {x : NodeId} {m : Module} {calls : List (NodeId × NodeKind)}
    (kind : t.kind? x = some (.module m)) (below : VisitsEach t m.children calls) :
    Visits t x ((x, .module m) :: calls)
  | decl {x : NodeId} {d : Decl} {calls : List (NodeId × NodeKind)}
    (kind : t.kind? x = some (.decl d)) (below : VisitsEach t d.children calls) :
    Visits t x ((x, .decl d) :: calls)
  | expr {x : NodeId} {e : Expr} {calls : List (NodeId × NodeKind)}
    (kind : t.kind? x = some (.expr e)) (below : VisitsEach t e.children calls) :
    Visits t x ((x, .expr e) :: calls)

/-- The calls that walks from several nodes make, one walk after the other. -/
inductive VisitsEach (t : Tree) : List NodeId → List (NodeId × NodeKind) → Prop where
  | nil : VisitsEach t [] []
  | cons {x : NodeId} {xs : List NodeId} {calls rest : List (NodeId × NodeKind)}
    (first : Visits t x calls) (others : VisitsEach t xs rest) :
    VisitsEach t (x :: xs) (calls ++ rest)

end

/-- The call for a node. -/
def call? (t : Tree) (x : NodeId) : Option (NodeId × NodeKind) := (t.kind? x).map (x, ·)

theorem call?_of_kind? {kind : NodeKind} (h : t.kind? x = some kind) :
    t.call? x = some (x, kind) := by
  rw [call?, h, Option.map_some]

theorem call?_eq_some {call : NodeId × NodeKind} :
    t.call? x = some call ↔ call.1 = x ∧ t.kind? x = some call.2 := by
  rw [call?, Option.map_eq_some_iff]
  constructor
  · rintro ⟨kind, hkind, rfl⟩
    exact ⟨rfl, hkind⟩
  · rintro ⟨rfl, hkind⟩
    exact ⟨call.2, hkind, rfl⟩

/-- The call for a grounded node is followed by the calls for what is below each child. -/
theorem calls_cons {kind : NodeKind} (h : t.Grounded x) (hkind : t.kind? x = some kind) :
    (t.descendants x).filterMap t.call? =
      (x, kind) :: kind.children.flatMap fun c => (t.descendants c).filterMap t.call? := by
  rw [descendants_eq h, List.filterMap_cons_some (call?_of_kind? hkind), List.filterMap_flatMap,
    children_of_kind? hkind]

/-- A walk from an existing node visits it, and then each of its children. -/
theorem Visits.intro {kind : NodeKind} {calls : List (NodeId × NodeKind)}
    (hkind : t.kind? x = some kind) (below : t.VisitsEach kind.children calls) :
    t.Visits x ((x, kind) :: calls) := by
  cases kind with
  | module m => exact .module hkind below
  | decl d => exact .decl hkind below
  | expr e => exact .expr hkind below

theorem VisitsEach.of_forall {xs : List NodeId} {f : NodeId → List (NodeId × NodeKind)}
    (h : ∀ c ∈ xs, t.Visits c (f c)) : t.VisitsEach xs (xs.flatMap f) := by
  induction xs with
  | nil => exact .nil
  | cons c cs ih =>
    rw [List.flatMap_cons]
    exact .cons (h c (List.mem_cons_self ..)) (ih fun b hb => h b (List.mem_cons_of_mem c hb))

/-- From a grounded node the walk ends, with the calls in document order. -/
theorem exists_visits (h : t.Grounded x) :
    t.Visits x ((t.descendants x).filterMap t.call?) := by
  induction h with
  | @intro x lt below ih =>
    obtain ⟨kind, hkind⟩ := exists_kind? lt
    rw [calls_cons (.intro lt below) hkind]
    rw [children_of_kind? hkind] at ih
    exact .intro hkind (.of_forall ih)

/-- If the walks from the children of a node end and are in document order, so is the walk from the
node. -/
theorem calls_of_below {kind : NodeKind} {calls : List (NodeId × NodeKind)}
    (hkind : t.kind? x = some kind)
    (below : (∀ c ∈ kind.children, t.Grounded c) ∧
      calls = kind.children.flatMap fun c => (t.descendants c).filterMap t.call?) :
    t.Grounded x ∧ (x, kind) :: calls = (t.descendants x).filterMap t.call? := by
  obtain ⟨hgrounded, hcalls⟩ := below
  have hx : t.Grounded x :=
    .intro (lt_size_of_kind? hkind) fun c hc => hgrounded c (children_of_kind? hkind ▸ hc)
  exact ⟨hx, by rw [calls_cons hx hkind, hcalls]⟩

mutual

/-- A walk that ends has ended everywhere below the node, and has made its calls in document
order. -/
theorem Visits.spec {x : NodeId} {calls : List (NodeId × NodeKind)} :
    t.Visits x calls → t.Grounded x ∧ calls = (t.descendants x).filterMap t.call?
  | .module hkind below => calls_of_below hkind below.spec
  | .decl hkind below => calls_of_below hkind below.spec
  | .expr hkind below => calls_of_below hkind below.spec

theorem VisitsEach.spec {xs : List NodeId} {calls : List (NodeId × NodeKind)} :
    t.VisitsEach xs calls → (∀ c ∈ xs, t.Grounded c) ∧
      calls = xs.flatMap fun c => (t.descendants c).filterMap t.call?
  | .nil => ⟨fun _ hc => absurd hc List.not_mem_nil, rfl⟩
  | .cons first others => by
    obtain ⟨hgrounded, hcalls⟩ := first.spec
    obtain ⟨hothers, hrest⟩ := others.spec
    exact ⟨List.forall_mem_cons.mpr ⟨hgrounded, hothers⟩,
      by rw [List.flatMap_cons, ← hcalls, ← hrest]⟩

end

namespace Visits

variable {calls : List (NodeId × NodeKind)}

theorem grounded (h : t.Visits x calls) : t.Grounded x := h.spec.1

theorem calls_eq (h : t.Visits x calls) : calls = (t.descendants x).filterMap t.call? := h.spec.2

/-- Each call is made by the method for what is in the node. -/
theorem kind?_eq (h : t.Visits x calls) {call : NodeId × NodeKind} (hcall : call ∈ calls) :
    t.kind? call.1 = some call.2 := by
  rw [h.calls_eq] at hcall
  obtain ⟨z, -, hz⟩ := List.mem_filterMap.mp hcall
  obtain ⟨heq, hkind⟩ := call?_eq_some.mp hz
  rw [heq, hkind]

/-- The nodes are visited in document order. -/
theorem nodes_eq (h : t.Visits x calls) : calls.map Prod.fst = t.descendants x := by
  have hnode : ∀ y ∈ t.descendants x, (t.call? y).map Prod.fst = some y := fun y hy => by
    obtain ⟨kind, hkind⟩ := exists_kind? (h.grounded.descend ((mem_descendants h.grounded).mp hy)).lt
    rw [call?_of_kind? hkind, Option.map_some]
  rw [h.calls_eq, List.map_filterMap, List.filterMap_congr hnode, List.filterMap_some]

end Visits

/-! ### Tours and the stack -/

/-- The nodes that a tour enters come in document order, if it goes deep enough. -/
theorem entered_tourWithin {depth : Nat} (h : Within t.children t.size depth x)
    (hx : t.Grounded x) :
    Step.entered (t.tourWithin (fun _ => true) depth x) = t.descendants x := by
  induction depth generalizing x with
  | zero => exact h.elim
  | succ depth ih =>
    have hbelow : (t.children x).flatMap
        (fun c => Step.entered (t.tourWithin (fun _ => true) depth c)) =
        (t.children x).flatMap t.descendants :=
      List.flatMap_congr fun c hc => ih (h.2 c hc) (hx.child hc)
    rw [descendants_eq hx, ← hbelow]
    simp [tourWithin, Step.entered, List.filterMap_flatMap]

theorem entered_tour (h : t.Grounded x) :
    Step.entered (t.tour (fun _ => true) x) = t.descendants x :=
  entered_tourWithin (within_of_grounded h) h

theorem weight_eq_length (h : t.Grounded x) :
    t.weight t.size x = (t.descendants x).length := by
  induction h with
  | @intro x lt below ih =>
    rw [weight_eq (.intro lt below), descendants_eq (.intro lt below), List.length_cons,
      List.length_flatMap, totalOf_congr ih, totalOf_eq_sum]

/-- The stack is empty after the last node, so further steps list nothing more. -/
theorem visitPending_of_length_le (h : t.Grounded x) {steps : Nat}
    (hsteps : (t.descendants x).length ≤ steps) : t.visitPending steps [x] = t.descendants x := by
  obtain ⟨k, rfl⟩ := Nat.exists_eq_add_of_le hsteps
  have hrest : t.visitPending k [] = [] := by cases k <;> rfl
  rw [← weight_eq_length h, visitPending_cons h, hrest, List.append_nil]

/-! ### The root, the expressions and the declarations -/

namespace WellFormed

theorem disjoint_exprs_decls (h : t.WellFormed) : t.exprs.Disjoint t.decls := by
  intro y hexpr hdecl
  obtain ⟨d, hd⟩ := Option.isSome_iff_exists.mp (h.mem_decls.mp hdecl).2
  have he := (h.mem_exprs.mp hexpr).2
  rw [expr?_of_decl? hd] at he
  cases he

theorem root_or_mem (h : t.WellFormed) (hx : t.Reaches t.root x) :
    x = t.root ∨ x ∈ t.exprs ∨ x ∈ t.decls := by
  rcases Relation.ReflTransGen.cases_tail hx with heq | ⟨p, hp, hpx⟩
  · exact .inl heq
  · rcases h.expr_or_decl hp hpx with he | hd
    · exact .inr (.inl (h.mem_exprs.mpr ⟨hx, he⟩))
    · exact .inr (.inr (h.mem_decls.mpr ⟨hx, hd⟩))

/-- The nodes within reach are the root, the expressions and the declarations, each once. -/
theorem reachable_perm (h : t.WellFormed) :
    t.reachable.Perm (t.root :: (t.exprs ++ t.decls)) := by
  have hroot : t.root ∉ t.exprs ++ t.decls := by
    rw [List.mem_append, h.mem_exprs, h.mem_decls, h.expr?_root, h.decl?_root]
    rintro (⟨-, hnone⟩ | ⟨-, hnone⟩) <;> cases hnone
  have hnodup : (t.root :: (t.exprs ++ t.decls)).Nodup :=
    List.nodup_cons.mpr ⟨hroot, h.nodup_exprs.append h.nodup_decls h.disjoint_exprs_decls⟩
  refine (List.perm_ext_iff_of_nodup h.nodup_reachable hnodup).mpr fun y => ?_
  rw [reachable, mem_descendants h.grounded, List.mem_cons, List.mem_append]
  refine ⟨h.root_or_mem, ?_⟩
  rintro (rfl | hexpr | hdecl)
  · exact .refl
  · exact (h.mem_exprs.mp hexpr).1
  · exact (h.mem_decls.mp hdecl).1

end WellFormed

/-- From a node where every way down ends inside the tree, the recursive walk ends, and it visits
the nodes that the walk with a stack lists, in the same order. From the root of a well-formed tree
each node within reach is listed once, and the list is the root and, shuffled but each in order, the
expressions and the declarations. -/
theorem visits_document_order (t : Tree) :
    (∀ x, (∀ y, t.Reaches x y → y < t.size) →
      (∀ y, t.Reaches x y → ¬ Relation.TransGen (fun p c => c ∈ t.children p) y y) →
      (∃ calls, t.Visits x calls) ∧
      (∀ calls, t.Visits x calls → calls.map Prod.fst = t.descendants x ∧
        ∀ call ∈ calls, t.kind? call.1 = some call.2) ∧
      Step.entered (t.tour (fun _ => true) x) = t.descendants x ∧
      ∀ steps, (t.descendants x).length ≤ steps → t.visitPending steps [x] = t.descendants x) ∧
    (t.WellFormed →
      (∃ calls, t.Visits t.root calls ∧ calls.map Prod.fst = t.reachable) ∧
      (∀ y, t.Reaches t.root y → t.reachable.count y = 1) ∧
      (∀ y ∈ t.reachable, t.Reaches t.root y) ∧
      t.exprs.Sublist t.reachable ∧ t.decls.Sublist t.reachable ∧ t.exprs.Disjoint t.decls ∧
      t.reachable.Perm (t.root :: (t.exprs ++ t.decls))) := by
  refine ⟨fun x hinside hacyclic => ?_, fun hwf => ?_⟩
  · have hx : t.Grounded x := grounded_of_acyclic hinside hacyclic
    exact ⟨⟨_, exists_visits hx⟩, fun calls hcalls => ⟨hcalls.nodes_eq, fun _ => hcalls.kind?_eq⟩,
      entered_tour hx, fun _ => visitPending_of_length_le hx⟩
  · have hmem : ∀ y, y ∈ t.reachable ↔ t.Reaches t.root y := fun y =>
      mem_descendants hwf.grounded
    have hvisits := exists_visits hwf.grounded
    refine ⟨⟨_, hvisits, hvisits.nodes_eq⟩, fun y hy => ?_, fun y => (hmem y).mp,
      List.filter_sublist, List.filter_sublist, hwf.disjoint_exprs_decls, hwf.reachable_perm⟩
    exact List.count_eq_one_of_mem hwf.nodup_reachable ((hmem y).mpr hy)

/-- A variable with a joined value and, in a group, a condition. -/
def nestedCondition : Tree where
  nodes := #[
    { kind := .expr (.ref "X"), span := ⟨0, 5, 6, by decide⟩, parent := some 2 },
    { kind := .expr (.literal (.string "-")), span := ⟨0, 7, 10, by decide⟩, parent := some 2 },
    { kind := .expr (.join "" [0, 1]), span := ⟨0, 4, 11, by decide⟩, parent := some 3 },
    { kind := .decl { localName := "Name", kind := .var none 2 }, span := ⟨0, 0, 11, by decide⟩,
      parent := some 7 },
    { kind := .expr (.isDefined "X"), span := ⟨0, 20, 21, by decide⟩, parent := some 5 },
    { kind := .decl { localName := "Inner", kind := .condition 4 }, span := ⟨0, 16, 22, by decide⟩,
      parent := some 6 },
    { kind := .decl { localName := "Group", kind := .group [5] }, span := ⟨0, 12, 23, by decide⟩,
      parent := some 7 },
    { kind := .module { name := "Demo", items := [3, 6] }, span := ⟨0, 0, 24, by decide⟩ }]
  root := 7

/-- The value is visited before the group, and the group before the condition in it. -/
theorem nestedCondition_visits :
    nestedCondition.WellFormed ∧
    (∃ calls, nestedCondition.Visits 7 calls ∧ calls.map Prod.fst = [7, 3, 2, 0, 1, 6, 5, 4] ∧
      ∀ call ∈ calls, nestedCondition.kind? call.1 = some call.2) ∧
    (∀ steps, 8 ≤ steps → nestedCondition.visitPending steps [7] = [7, 3, 2, 0, 1, 6, 5, 4]) ∧
    nestedCondition.exprs = [2, 0, 1, 4] ∧ nestedCondition.decls = [3, 6, 5] ∧
    nestedCondition.reachable.Perm (7 :: ([2, 0, 1, 4] ++ [3, 6, 5])) := by
  have hwf : nestedCondition.WellFormed := by
    refine .ofAll (m := { name := "Demo", items := [3, 6] }) rfl rfl ?_
    decide +kernel
  have hlist : nestedCondition.descendants 7 = [7, 3, 2, 0, 1, 6, 5, 4] := by decide +kernel
  have hexprs : nestedCondition.exprs = [2, 0, 1, 4] := by decide +kernel
  have hdecls : nestedCondition.decls = [3, 6, 5] := by decide +kernel
  obtain ⟨hwalks, hparts⟩ := visits_document_order nestedCondition
  obtain ⟨⟨calls, hcalls⟩, horder, -, hstack⟩ :=
    hwalks 7 (fun _ hy => hwf.lt_size hy) (fun _ hy => hwf.acyclic hy)
  obtain ⟨hnodes, hkinds⟩ := horder calls hcalls
  obtain ⟨-, -, -, -, -, -, hperm⟩ := hparts hwf
  rw [hlist] at hnodes hstack
  rw [hexprs, hdecls] at hperm
  exact ⟨hwf, ⟨calls, hcalls, hnodes, hkinds⟩, hstack, hexprs, hdecls, hperm⟩

end Tree

end StackTemplate
