import StackTemplate.Proofs.Tree.Rewiring

/-!
# Walks that change nothing

A substitution counts the slots that it changes. If it counts none, it leaves the tree as it is, and
every slot within reach led to what it held (`substituteBelow_of_zero`). Replacements that a pass
has staged are for expressions within reach, so none were staged (`Staged.eq_nil`).
-/

namespace StackTemplate

namespace Tree

variable {t g : Tree} {r : NodeId → Option NodeId} {x y z : NodeId} {staged : Replacements}
  {owner : NodeId → NodeId}

theorem modify_of_fixed {f : Node → Node} (h : ∀ n, t.node? x = some n → f n = n) :
    t.modify x f = t := by
  have hnodes : t.nodes.modify x f = t.nodes := by
    refine Array.ext_getElem? fun i => ?_
    rw [Array.getElem?_modify]
    split
    · next hi =>
      subst hi
      cases hn : t.nodes[x]? with
      | none => rfl
      | some n => rw [Option.map_some, h n hn]
    · rfl
  rw [modify, hnodes]

theorem setKind_self {kind : NodeKind} (h : t.kind? x = some kind) : t.setKind x kind = t := by
  refine modify_of_fixed fun n hn => ?_
  rw [kind?, hn, Option.map_some] at h
  rw [← Option.some.inj h]

theorem foldl_relink_self (x : NodeId) (cs : List NodeId) (t : Tree) :
    (cs.zip cs).foldl (fun t (slot : NodeId × NodeId) => t.relink x slot.1 slot.2) t = t := by
  induction cs with
  | nil => rfl
  | cons c cs ih => rw [List.zip_cons_cons, List.foldl_cons, relink_self, ih]

/-- Putting the children of a node back changes nothing. -/
theorem replaceChildren_self (t : Tree) (x : NodeId) : t.replaceChildren x (t.children x) = t := by
  unfold replaceChildren
  cases hkind : t.kind? x with
  | none => rfl
  | some kind =>
    rw [children_of_kind? hkind]
    simp only [NodeKind.refill_children]
    rw [setKind_self hkind]
    exact foldl_relink_self x kind.children t

theorem eq_of_changes {old new : List NodeId} (hlength : new.length = old.length)
    (h : changes old new = 0) : new = old := by
  induction old generalizing new with
  | nil => exact List.length_eq_zero_iff.mp hlength
  | cons a old ih =>
    cases new with
    | nil => cases hlength
    | cons b new =>
      rw [changes, List.zip_cons_cons, List.countP_cons, Nat.add_eq_zero_iff] at h
      obtain ⟨hrest, hfirst⟩ := h
      have hab : a = b := by simpa using hfirst
      rw [hab, ih (Nat.succ.inj hlength) hrest]

/-- The walk below some nodes, one after the other, that starts with a count. -/
def walkAll (r : NodeId → Option NodeId) (depth : Nat) (start : Nat × Tree)
    (nodes : List NodeId) : Nat × Tree :=
  nodes.foldl (fun (count, t) child =>
    let (more, t) := substituteBelow r depth child t
    (count + more, t)) start

theorem walkAll_cons (r : NodeId → Option NodeId) (depth : Nat) (count : Nat) (t : Tree)
    (c : NodeId) (nodes : List NodeId) : walkAll r depth (count, t) (c :: nodes) =
      walkAll r depth (count + (substituteBelow r depth c t).1, (substituteBelow r depth c t).2)
        nodes :=
  rfl

theorem le_walkAll (r : NodeId → Option NodeId) (depth : Nat) (nodes : List NodeId)
    (start : Nat × Tree) : start.1 ≤ (walkAll r depth start nodes).1 := by
  induction nodes generalizing start with
  | nil => exact Nat.le_refl _
  | cons c nodes ih =>
    have hle := ih (start.1 + (substituteBelow r depth c start.2).1,
      (substituteBelow r depth c start.2).2)
    exact (Nat.le_add_right _ _).trans hle

/-- Below each of the nodes nothing changes if nothing is counted. -/
theorem walkAll_of_zero {P : NodeId → Prop} {depth : Nat} {nodes : List NodeId} {count : Nat}
    (hstep : ∀ c ∈ nodes, (substituteBelow r depth c t).1 = 0 →
      (substituteBelow r depth c t).2 = t ∧ P c)
    (h : (walkAll r depth (count, t) nodes).1 = 0) :
    count = 0 ∧ (walkAll r depth (count, t) nodes).2 = t ∧ ∀ c ∈ nodes, P c := by
  induction nodes generalizing count with
  | nil => exact ⟨h, rfl, fun c hc => absurd hc List.not_mem_nil⟩
  | cons c nodes ih =>
    obtain ⟨hfirst, hstep⟩ := List.forall_mem_cons.mp hstep
    have hcount := Nat.le_zero.mp (h ▸ le_walkAll r depth nodes
      (count + (substituteBelow r depth c t).1, (substituteBelow r depth c t).2))
    obtain ⟨hzero, hmore⟩ := Nat.add_eq_zero_iff.mp hcount
    obtain ⟨hsame, hc⟩ := hfirst hmore
    have hnext : walkAll r depth (count, t) (c :: nodes) =
        walkAll r depth (count + (substituteBelow r depth c t).1, t) nodes :=
      congrArg (fun s => walkAll r depth (count + (substituteBelow r depth c t).1, s) nodes) hsame
    rw [hnext] at h ⊢
    obtain ⟨-, htree, hrest⟩ := ih hstep h
    exact ⟨hzero, htree, List.forall_mem_cons.mpr ⟨hc, hrest⟩⟩

/-- A walk that counts no change leaves the tree as it is, and all slots on its way lead to what they
hold. -/
theorem substituteBelow_of_zero {depth : Nat} (hdepth : Within (t.slotsAfter r) t.size depth x)
    (h : (substituteBelow r depth x t).1 = 0) :
    (substituteBelow r depth x t).2 = t ∧
      ∀ z, t.ReachesAfter r x z → t.slotsAfter r z = t.children z := by
  induction depth generalizing x with
  | zero => exact hdepth.elim
  | succ depth ih =>
    have hwalk : substituteBelow r (depth + 1) x t =
        walkAll r depth (changes (t.children x) (t.slotsAfter r x),
          t.replaceChildren x (t.slotsAfter r x)) (t.slotsAfter r x) := rfl
    have hcount := Nat.le_zero.mp (h ▸ hwalk ▸ le_walkAll r depth (t.slotsAfter r x)
      (changes (t.children x) (t.slotsAfter r x), t.replaceChildren x (t.slotsAfter r x)))
    have hslots : t.slotsAfter r x = t.children x := eq_of_changes (List.length_map ..) hcount
    have hsame : t.replaceChildren x (t.slotsAfter r x) = t := by
      rw [hslots, replaceChildren_self]
    rw [hwalk, hsame] at h ⊢
    obtain ⟨-, htree, hbelow⟩ := walkAll_of_zero (fun c hc hzero => ih (hdepth.2 c hc) hzero) h
    refine ⟨htree, fun z hz => ?_⟩
    rcases Relation.ReflTransGen.cases_head hz with rfl | ⟨c, hc, hcz⟩
    · exact hslots
    · exact hbelow c hc z hcz

/-- If applying what a pass has staged changes no slot, the pass has staged nothing. -/
theorem Staged.eq_nil (h : Staged t staged g owner) (hwf : t.WellFormed)
    (hcount : (g.apply staged).1 = 0) : staged = [] := by
  by_contra hne
  have hroot := h.settles hwf .refl
  rw [← h.keeps.root_eq] at hroot
  have hdepth := (within_of_grounded (grounded_slotsAfter hroot).1).mono (size_le_walkDepth g)
  rw [apply, if_neg (by simpa using hne)] at hcount
  obtain ⟨-, hslots⟩ := substituteBelow_of_zero hdepth hcount
  have hreach : ∀ x, t.Reaches t.root x → g.ReachesAfter (fun id => staged.lookup id) g.root x := by
    intro x hx
    induction hx with
    | refl => rw [h.keeps.root_eq]; exact .refl
    | @tail p x hp hxp ih =>
      refine ih.tail ?_
      rw [hslots p ih, h.children_old hwf hp]
      exact hxp
  obtain ⟨⟨x, y⟩, hmem⟩ := List.exists_mem_of_ne_nil staged hne
  cases hlookup : staged.lookup x with
  | none =>
    rw [List.lookup_eq_none_iff] at hlookup
    simpa using hlookup (x, y) hmem
  | some y' =>
    obtain ⟨hx, hexpr⟩ := hwf.mem_exprs.mp (h.key x y' hlookup).1
    obtain ⟨e, he⟩ := Option.isSome_iff_exists.mp hexpr
    rcases Relation.ReflTransGen.cases_tail hx with heq | ⟨p, hp, hxp⟩
    · exact hwf.ne_root_of_expr? he heq
    -- The slot of the expression leads to itself, so nothing replaces the expression.
    have hself : g.follow (fun id => staged.lookup id) x = x := by
      have hmap := hslots p (hreach p hp)
      rw [← h.children_old hwf hp] at hxp
      exact follow_of_slotsAfter hmap hxp
    rw [h.follow_eq_self_iff hwf hx, hlookup] at hself
    cases hself

end Tree

end StackTemplate
