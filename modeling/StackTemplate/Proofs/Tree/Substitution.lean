import StackTemplate.Proofs.Tree.Listing
import StackTemplate.Proofs.Tree.Slots

/-!
# What a substitution does

A batch of replacements sends every slot on the walk to where its replacements lead: to a final
literal, or to a node that nothing replaces. `follow_eq` is the recursive reading of that, and
`apply_spec` says that afterwards every node within reach of the root has just these nodes in its
slots and is otherwise what it was.

Both need that no way over children and replacements is endless (`Settles`). The walk itself
changes the tree it walks over, so its proof goes through trees on the way (`Progress`), in which
some nodes are as before and some have their new slots already.
-/

namespace StackTemplate

namespace Tree

variable {g s t : Tree} {r : NodeId → Option NodeId} {x y w : NodeId}

/-! ### Following replacements -/

/-- Where a substitution can go from a node: to its children and to what replaces it. -/
def onward (g : Tree) (r : NodeId → Option NodeId) (x : NodeId) : List NodeId :=
  g.children x ++ (r x).toList

/-- No way over children and replacements from the node is endless. -/
def Settles (g : Tree) (r : NodeId → Option NodeId) (x : NodeId) : Prop :=
  StackTemplate.Grounded (g.onward r) g.size x

theorem mem_onward_of_child (h : y ∈ g.children x) : y ∈ g.onward r x :=
  List.mem_append_left _ h

theorem mem_onward_of_replacement (h : r x = some y) : y ∈ g.onward r x :=
  List.mem_append_right _ (by rw [h]; simp)

theorem Settles.child (h : g.Settles r x) (hy : y ∈ g.children x) : g.Settles r y :=
  Grounded.child h (mem_onward_of_child hy)

theorem Settles.replacement (h : g.Settles r x) (hy : r x = some y) : g.Settles r y :=
  Grounded.child h (mem_onward_of_replacement hy)

theorem Settles.ne_replacement (h : g.Settles r x) (hy : r x = some y) : y ≠ x := by
  rintro rfl
  exact Grounded.not_transGen h (.single (mem_onward_of_replacement hy))

theorem Settles.node?_isNone (h : g.Settles r x) : (g.node? x).isNone = false := by
  obtain ⟨n, hn⟩ := exists_node? (Grounded.lt h)
  rw [hn, Option.isNone_some]

/-- Where replacements lead does not depend on the number of steps, if that is enough. -/
theorem followWithin_congr {n m : Nat} (hn : Within (g.onward r) g.size n x)
    (hm : Within (g.onward r) g.size m x) (hx : g.Settles r x) :
    g.followWithin r n x = g.followWithin r m x := by
  induction n generalizing m x with
  | zero => exact hn.elim
  | succ n ih =>
    cases m with
    | zero => exact hm.elim
    | succ m =>
      rw [followWithin, followWithin]
      split
      · rfl
      · cases hr : r x with
        | none => rfl
        | some y =>
          have hy := mem_onward_of_replacement (g := g) hr
          simp only [hx.ne_replacement hr, if_false]
          exact ih (hn.2 y hy) (hm.2 y hy) (hx.replacement hr)

/-- A final literal stays where it is; anything else leads to where its replacement leads. -/
theorem follow_eq (h : g.Settles r x) :
    g.follow r x = if g.isFinal x then x else ((r x).map (g.follow r)).getD x := by
  obtain ⟨depth, hsize, hbelow⟩ := Grounded.exists_within h
  rw [follow, hsize, followWithin, h.node?_isNone, Bool.or_false]
  split
  · rfl
  · cases hr : r x with
    | none => rfl
    | some y =>
      have hy := mem_onward_of_replacement (g := g) hr
      simp only [h.ne_replacement hr, if_false, Option.map_some, Option.getD_some]
      exact followWithin_congr (hbelow y hy) (within_of_grounded (h.replacement hr))
        (h.replacement hr)

theorem follow_of_none (h : g.Settles r x) (hr : r x = none) : g.follow r x = x := by
  rw [follow_eq h, hr]
  split <;> rfl

theorem follow_of_some (h : g.Settles r x) (hfinal : g.isFinal x = false) (hr : r x = some y) :
    g.follow r x = g.follow r y := by
  rw [follow_eq h, hr, hfinal]
  rfl

theorem follow_of_final (h : g.Settles r x) (hfinal : g.isFinal x) : g.follow r x = x := by
  rw [follow_eq h, if_pos hfinal]

/-- Whatever holds where nothing leads on, and is passed back along replacements, holds where a
node leads. -/
theorem follow_induct {P : NodeId → NodeId → Prop} (h : g.Settles r x)
    (stop : ∀ y, g.Settles r y → g.isFinal y = true ∨ r y = none → P y y)
    (step : ∀ y z w, g.Settles r y → r y = some z → g.isFinal y = false → P z w → P y w) :
    P x (g.follow r x) := by
  induction h with
  | @intro x lt below ih =>
    have hx : g.Settles r x := .intro lt below
    by_cases hfinal : g.isFinal x
    · rw [follow_of_final hx hfinal]
      exact stop x hx (.inl hfinal)
    · rw [Bool.not_eq_true] at hfinal
      cases hr : r x with
      | none =>
        rw [follow_of_none hx hr]
        exact stop x hx (.inr hr)
      | some y =>
        rw [follow_of_some hx hfinal hr]
        exact step x y _ hx hr hfinal (ih y (mem_onward_of_replacement hr))

theorem follow_follow (h : g.Settles r x) : g.follow r (g.follow r x) = g.follow r x := by
  refine follow_induct (P := fun _ w => g.follow r w = w) h ?_ (fun _ _ _ _ _ _ hw => hw)
  rintro y hy (hfinal | hr)
  · exact follow_of_final hy hfinal
  · exact follow_of_none hy hr

theorem settles_follow (h : g.Settles r x) : g.Settles r (g.follow r x) :=
  follow_induct (P := fun _ w => g.Settles r w) h (fun _ hy _ => hy) (fun _ _ _ _ _ _ hw => hw)

/-! ### The tree afterwards -/

/-- The children of a node after the substitution. -/
def slotsAfter (g : Tree) (r : NodeId → Option NodeId) (x : NodeId) : List NodeId :=
  (g.children x).map (g.follow r)

/-- Whether a node is within reach of another after the substitution. -/
def ReachesAfter (g : Tree) (r : NodeId → Option NodeId) : NodeId → NodeId → Prop :=
  Descends (g.slotsAfter r)

/-- A node whose slots were all sent on has its new children. -/
theorem children_of_mapSlots (h : t.kind? x = (g.kind? x).map (NodeKind.mapSlots (g.follow r))) :
    t.children x = g.slotsAfter r x := by
  rw [children, h, slotsAfter, children]
  cases g.kind? x with
  | none => rfl
  | some kind => exact NodeKind.children_mapSlots _ kind

/-- What stays in its slot leads to itself. -/
theorem follow_of_slotsAfter {c : NodeId} (h : g.slotsAfter r x = g.children x)
    (hc : c ∈ g.children x) : g.follow r c = c :=
  List.map_inj_left.mp (h.trans (List.map_id _).symm) c hc

theorem mem_slotsAfter : y ∈ g.slotsAfter r x ↔ ∃ c ∈ g.children x, g.follow r c = y :=
  List.mem_map

theorem ReachesAfter.settles (hxy : g.ReachesAfter r x y) (h : g.Settles r x) :
    g.Settles r y := by
  induction hxy with
  | refl => exact h
  | tail _ hstep ih =>
    obtain ⟨c, hc, rfl⟩ := mem_slotsAfter.mp hstep
    exact settles_follow (ih.child hc)

/-- Ways down that settle end after the substitution, too. -/
theorem grounded_slotsAfter (h : g.Settles r x) :
    StackTemplate.Grounded (g.slotsAfter r) g.size x ∧
    StackTemplate.Grounded (g.slotsAfter r) g.size (g.follow r x) := by
  induction h with
  | @intro x lt below ih =>
    have hx : g.Settles r x := .intro lt below
    have hself : StackTemplate.Grounded (g.slotsAfter r) g.size x := by
      refine .intro lt fun y hy => ?_
      obtain ⟨c, hc, rfl⟩ := mem_slotsAfter.mp hy
      exact (ih c (mem_onward_of_child hc)).2
    refine ⟨hself, ?_⟩
    rw [follow_eq hx]
    split
    · exact hself
    · cases hr : r x with
      | none => exact hself
      | some y => exact (ih y (mem_onward_of_replacement hr)).2

/-! ### Trees on the way -/

/-- A tree on the way of the walk: nodes are as before, or have their new slots already. -/
structure Progress (g : Tree) (f : NodeId → NodeId) (s : Tree) : Prop where
  size_eq : s.size = g.size
  root_eq : s.root = g.root
  span_eq : ∀ x, s.span x = g.span x
  kind_or : ∀ x, s.kind? x = g.kind? x ∨ s.kind? x = (g.kind? x).map (NodeKind.mapSlots f)

theorem Progress.start (g : Tree) (f : NodeId → NodeId) : Progress g f g :=
  ⟨rfl, rfl, fun _ => rfl, fun _ => .inl rfl⟩

/-- New slots do not make a literal final, or stop it from being final. -/
theorem isFinal_of_mapSlots {f : NodeId → NodeId}
    (h : s.kind? x = (g.kind? x).map (NodeKind.mapSlots f)) : s.isFinal x = g.isFinal x := by
  rw [isFinal, isFinal, expr?, expr?, h]
  cases hkind : g.kind? x with
  | none => rfl
  | some kind =>
    simp only [Option.map_some, Option.bind_some, NodeKind.expr?_mapSlots]
    cases kind.expr? with
    | none => rfl
    | some e => cases e <;> rfl

theorem Progress.isFinal_eq {f : NodeId → NodeId} (h : Progress g f s) (x : NodeId) :
    s.isFinal x = g.isFinal x := by
  rcases h.kind_or x with hx | hx
  · rw [isFinal, isFinal, expr?_congr hx]
  · exact isFinal_of_mapSlots hx

/-- Replacements lead to the same nodes all along. -/
theorem Progress.follow_eq {f : NodeId → NodeId} (h : Progress g f s) :
    s.follow r = g.follow r := by
  have hnode : ∀ x, (s.node? x).isNone = (g.node? x).isNone := fun x => by
    rw [Bool.eq_iff_iff, Option.isNone_iff_eq_none, Option.isNone_iff_eq_none, node?_eq_none,
      node?_eq_none, h.size_eq]
  have hsteps : ∀ n x, s.followWithin r n x = g.followWithin r n x := by
    intro n
    induction n with
    | zero => exact fun _ => rfl
    | succ n ih =>
      intro x
      rw [followWithin, followWithin, h.isFinal_eq, hnode]
      simp only [ih]
  funext x
  rw [follow, follow, h.size_eq, hsteps]

/-- Relinking slots changes no content. -/
theorem foldl_relink (p : NodeId) (slots : List (NodeId × NodeId)) (s : Tree) :
    let s' := slots.foldl (fun s slot => s.relink p slot.1 slot.2) s
    s'.size = s.size ∧ s'.root = s.root ∧ (∀ x, s'.span x = s.span x) ∧
      ∀ x, s'.kind? x = s.kind? x := by
  induction slots generalizing s with
  | nil => simp
  | cons slot slots ih =>
    obtain ⟨hsize, hroot, hspan, hkind⟩ := ih (s.relink p slot.1 slot.2)
    refine ⟨by simpa using hsize, by simpa using hroot, by simpa using hspan, by simpa using hkind⟩

/-- Filling the slots of a node changes the content of that node only. -/
theorem replaceChildren_spec {kind : NodeKind} (h : s.kind? y = some kind) (new : List NodeId) :
    (s.replaceChildren y new).size = s.size ∧ (s.replaceChildren y new).root = s.root ∧
    (∀ x, (s.replaceChildren y new).span x = s.span x) ∧
    (s.replaceChildren y new).kind? y = some (kind.refill new) ∧
    ∀ x, x ≠ y → (s.replaceChildren y new).kind? x = s.kind? x := by
  obtain ⟨hsize, hroot, hspan, hkind⟩ :=
    foldl_relink y (kind.children.zip new) (s.setKind y (kind.refill new))
  simp only [replaceChildren, h]
  refine ⟨by simpa using hsize, by simpa using hroot, by simpa using hspan, ?_, fun x hx => ?_⟩
  · rw [hkind, kind?_setKind_self (lt_size_of_kind? h)]
  · rw [hkind, kind?_setKind_ne (Ne.symm hx)]

/-- The slots that a node has on the way lead to the slots that it shall have. -/
theorem Progress.map_children (h : Progress g (g.follow r) s) (hy : g.Settles r y) :
    (s.children y).map (s.follow r) = g.slotsAfter r y := by
  rw [h.follow_eq]
  rcases h.kind_or y with hkind | hkind
  · rw [children_congr hkind, slotsAfter]
  · rw [children_of_mapSlots hkind, slotsAfter, List.map_map]
    exact List.map_congr_left fun c hc => follow_follow (hy.child hc)

/-- One step of the walk gives one node its new slots. -/
theorem Progress.replaceChildren (h : Progress g (g.follow r) s) (hy : g.Settles r y) :
    Progress g (g.follow r) (s.replaceChildren y (g.slotsAfter r y)) ∧
    (s.replaceChildren y (g.slotsAfter r y)).kind? y =
      (g.kind? y).map (NodeKind.mapSlots (g.follow r)) ∧
    ∀ x, x ≠ y → (s.replaceChildren y (g.slotsAfter r y)).kind? x = s.kind? x := by
  obtain ⟨kind, hk⟩ := exists_kind? (Grounded.lt hy)
  have hslots : g.slotsAfter r y = kind.children.map (g.follow r) := by
    rw [slotsAfter, children_of_kind? hk]
  obtain ⟨now, hnow, hfill⟩ : ∃ now, s.kind? y = some now ∧
      now.refill (g.slotsAfter r y) = kind.mapSlots (g.follow r) := by
    rw [hslots]
    rcases h.kind_or y with hkind | hkind
    · exact ⟨kind, by rw [hkind, hk], kind.refill_map _⟩
    · exact ⟨kind.mapSlots (g.follow r), by rw [hkind, hk]; rfl, kind.refill_mapSlots _⟩
  obtain ⟨hsize, hroot, hspan, hself, hother⟩ := replaceChildren_spec hnow (g.slotsAfter r y)
  have hdone : (s.replaceChildren y (g.slotsAfter r y)).kind? y =
      (g.kind? y).map (NodeKind.mapSlots (g.follow r)) := by
    rw [hself, hfill, hk, Option.map_some]
  refine ⟨⟨hsize.trans h.size_eq, hroot.trans h.root_eq,
    fun x => (hspan x).trans (h.span_eq x), fun x => ?_⟩, hdone, hother⟩
  by_cases hx : x = y
  · exact .inr (hx ▸ hdone)
  · rw [hother x hx]
    exact h.kind_or x

/-! ### The walk -/

/-- The tree that is left when the walk has gone below some nodes, one after the other. -/
theorem foldl_substituteBelow (depth : Nat) (new : List NodeId) (count : Nat) (s : Tree) :
    (new.foldl
      (fun (count, t) child =>
        let (more, t) := substituteBelow r depth child t
        (count + more, t)) (count, s)).2 =
      new.foldl (fun t child => (substituteBelow r depth child t).2) s := by
  induction new generalizing count s with
  | nil => rfl
  | cons c new ih => exact ih _ _

/-- Every node below the start of the walk gets its new slots and keeps them. Whatever `Q` each
step of the walk keeps, the whole walk keeps. -/
theorem substituteBelow_spec {Q : Tree → Prop} (hroot : g.Settles r g.root)
    (hQ : ∀ s y, g.ReachesAfter r g.root y → Progress g (g.follow r) s → Q s →
      Q (s.replaceChildren y (g.slotsAfter r y)))
    {depth : Nat} (hdepth : Within (g.slotsAfter r) g.size depth y)
    (hy : g.ReachesAfter r g.root y) (hs : Progress g (g.follow r) s) (hq : Q s) :
    let s' := (substituteBelow r depth y s).2
    Progress g (g.follow r) s' ∧ Q s' ∧
      ∀ z, g.ReachesAfter r y z ∨ s.kind? z = (g.kind? z).map (NodeKind.mapSlots (g.follow r)) →
        s'.kind? z = (g.kind? z).map (NodeKind.mapSlots (g.follow r)) := by
  induction depth generalizing y s with
  | zero => exact hdepth.elim
  | succ depth ih =>
    -- The children of `y` are walked one after the other; each walk keeps what is done.
    have hlist : ∀ (new : List NodeId) (s : Tree), (∀ c ∈ new, c ∈ g.slotsAfter r y) →
        Progress g (g.follow r) s → Q s →
        let s' := new.foldl (fun t child => (substituteBelow r depth child t).2) s
        Progress g (g.follow r) s' ∧ Q s' ∧
          ∀ z, (∃ c ∈ new, g.ReachesAfter r c z) ∨
              s.kind? z = (g.kind? z).map (NodeKind.mapSlots (g.follow r)) →
            s'.kind? z = (g.kind? z).map (NodeKind.mapSlots (g.follow r)) := by
      intro new
      induction new with
      | nil =>
        intro s _ hs hq
        refine ⟨hs, hq, fun z hz => ?_⟩
        rcases hz with ⟨c, hc, -⟩ | hz
        · exact absurd hc List.not_mem_nil
        · exact hz
      | cons c new ihnew =>
        intro s hmem hs hq
        have hc := hmem c (List.mem_cons_self ..)
        obtain ⟨hs', hq', hdone⟩ := ih (hdepth.2 c hc) (Relation.ReflTransGen.tail hy hc) hs hq
        obtain ⟨hs'', hq'', hdone'⟩ :=
          ihnew _ (fun b hb => hmem b (List.mem_cons_of_mem c hb)) hs' hq'
        refine ⟨hs'', hq'', fun z hz => hdone' z ?_⟩
        rcases hz with ⟨b, hb, hz⟩ | hz
        · rcases List.mem_cons.mp hb with rfl | hb
          · exact .inr (hdone z (.inl hz))
          · exact .inl ⟨b, hb, hz⟩
        · exact .inr (hdone z (.inr hz))
    have hsettles := hy.settles hroot
    obtain ⟨hs', hself, hother⟩ := hs.replaceChildren hsettles
    have hq' := hQ s y hy hs hq
    obtain ⟨hs'', hq'', hdone⟩ := hlist (g.slotsAfter r y) _ (fun c hc => hc) hs' hq'
    have hwalk : (substituteBelow r (depth + 1) y s).2 =
        (g.slotsAfter r y).foldl (fun t child => (substituteBelow r depth child t).2)
          (s.replaceChildren y (g.slotsAfter r y)) := by
      rw [substituteBelow, foldl_substituteBelow, hs.map_children hsettles]
    rw [hwalk]
    refine ⟨hs'', hq'', fun z hz => hdone z ?_⟩
    by_cases hzy : z = y
    · exact .inr (hzy ▸ hself)
    · rcases hz with hz | hz
      · rcases Relation.ReflTransGen.cases_head hz with heq | ⟨c, hc, hz⟩
        · exact absurd heq.symm hzy
        · exact .inl ⟨c, hc, hz⟩
      · exact .inr ((hother z hzy).trans hz)

/-- The walk may go at least as deep as there are nodes. -/
theorem size_le_walkDepth (g : Tree) : g.size ≤ g.walkDepth := by
  show g.size ≤ g.size ^ (g.slotCount + 1)
  exact Nat.le_self_pow (Nat.succ_ne_zero _) _

/-- A substitution in which nothing is replaced leads every node to itself. -/
theorem follow_none (g : Tree) : g.follow (fun _ => none) = id := by
  funext x
  rw [follow]
  cases g.size with
  | zero => rfl
  | succ n =>
    rw [followWithin]
    split <;> rfl

theorem mapSlots_id (kind : NodeKind) : kind.mapSlots id = kind := by
  rw [← NodeKind.refill_map, List.map_id, NodeKind.refill_children]

/-- Applying staged replacements gives every node within reach its new slots and leaves all else
about it. Whatever `Q` each step of the walk keeps, the result has. -/
theorem apply_spec {Q : Tree → Prop} {staged : Replacements}
    (hroot : g.Settles (fun id => staged.lookup id) g.root)
    (hQ : ∀ s y, g.ReachesAfter (fun id => staged.lookup id) g.root y →
      Progress g (g.follow fun id => staged.lookup id) s → Q s →
      Q (s.replaceChildren y (g.slotsAfter (fun id => staged.lookup id) y)))
    (hq : Q g) :
    let t := (g.apply staged).2
    Progress g (g.follow fun id => staged.lookup id) t ∧ Q t ∧
      ∀ z, g.ReachesAfter (fun id => staged.lookup id) g.root z →
        t.kind? z = (g.kind? z).map (NodeKind.mapSlots (g.follow fun id => staged.lookup id)) := by
  rw [apply]
  split
  · next hempty =>
    rw [List.isEmpty_iff] at hempty
    subst hempty
    refine ⟨.start g _, hq, fun z _ => ?_⟩
    have hnone : (fun id : NodeId => ([] : Replacements).lookup id) = fun _ => none := rfl
    rw [hnone, follow_none]
    cases g.kind? z with
    | none => rfl
    | some kind => rw [Option.map_some, mapSlots_id]
  · have hdepth := (within_of_grounded (grounded_slotsAfter hroot).1).mono (size_le_walkDepth g)
    obtain ⟨hprogress, hq', hdone⟩ := substituteBelow_spec hroot hQ hdepth .refl (.start g _) hq
    exact ⟨hprogress, hq', fun z hz => hdone z (.inl hz)⟩

section Apply

variable {staged : Replacements} (hroot : g.Settles (fun id => staged.lookup id) g.root)

include hroot

theorem progress_apply : Progress g (g.follow fun id => staged.lookup id) (g.apply staged).2 :=
  (apply_spec (Q := fun _ => True) hroot (fun _ _ _ _ _ => trivial) trivial).1

theorem kind?_apply (hx : g.ReachesAfter (fun id => staged.lookup id) g.root x) :
    (g.apply staged).2.kind? x =
      (g.kind? x).map (NodeKind.mapSlots (g.follow fun id => staged.lookup id)) :=
  (apply_spec (Q := fun _ => True) hroot (fun _ _ _ _ _ => trivial) trivial).2.2 x hx

theorem children_apply (hx : g.ReachesAfter (fun id => staged.lookup id) g.root x) :
    (g.apply staged).2.children x = g.slotsAfter (fun id => staged.lookup id) x :=
  children_of_mapSlots (kind?_apply hroot hx)

/-- What is below a node in the tree afterwards. -/
theorem reaches_apply (hx : g.ReachesAfter (fun id => staged.lookup id) g.root x) :
    (g.apply staged).2.Reaches x y ↔ g.ReachesAfter (fun id => staged.lookup id) x y :=
  descends_congr fun _ hy => children_apply hroot (hx.trans hy)

theorem reaches_root_apply : (g.apply staged).2.Reaches (g.apply staged).2.root x ↔
    g.ReachesAfter (fun id => staged.lookup id) g.root x := by
  rw [(progress_apply hroot).root_eq]
  exact reaches_apply hroot .refl

end Apply

/-! ### Parent links -/

/-- Linking slots of a node anew hangs what comes into them below that node. A node that leaves no
slot hangs where it hung, unless it comes into one. -/
theorem parent?_foldl_relink {f : NodeId → NodeId} (p : NodeId) (slots : List NodeId) (s : Tree)
    (hw : ∀ d ∈ slots, d = w → f d = d) (hlt : w < s.size) :
    ((slots.map fun d => (d, f d)).foldl (fun s slot => s.relink p slot.1 slot.2) s).parent? w =
      if ∃ d ∈ slots, f d ≠ d ∧ f d = w then some p else s.parent? w := by
  induction slots generalizing s with
  | nil => simp
  | cons d slots ih =>
    obtain ⟨hfirst, hw⟩ := List.forall_mem_cons.mp hw
    rw [List.map_cons, List.foldl_cons, ih _ hw (by simpa using hlt)]
    by_cases hd : f d = d
    · simp [hd]
    · by_cases hdw : f d = w
      · subst hdw
        simp [hd, parent?_relink_new (Ne.symm hd) hlt]
      · have hne : w ≠ d := fun heq => hd (hfirst heq.symm)
        simp [hdw, parent?_relink_of_ne hne (Ne.symm hdw)]

/-- A step of the walk hangs what it puts into slots below the node of the slots. -/
theorem Progress.parent?_replaceChildren (hs : Progress g (g.follow r) s) (hy : g.Settles r y)
    (hw : ∀ d ∈ s.children y, d = w → g.follow r d = d) (hlt : w < g.size) :
    (s.replaceChildren y (g.slotsAfter r y)).parent? w =
      if ∃ d ∈ s.children y, g.follow r d ≠ d ∧ g.follow r d = w then some y
      else s.parent? w := by
  have hslots : g.slotsAfter r y = (s.children y).map (g.follow r) := by
    rw [← hs.map_children hy, hs.follow_eq]
  obtain ⟨now, hnow⟩ := exists_kind? (hs.size_eq ▸ Grounded.lt hy)
  have hparent := parent?_foldl_relink y (s.children y)
    (s.setKind y (now.refill (g.slotsAfter r y))) hw (by simpa [hs.size_eq] using hlt)
  rw [List.map_prod_left_eq_zip, ← hslots, parent?_setKind] at hparent
  simp only [Tree.replaceChildren, hnow, ← children_of_kind? hnow]
  exact hparent

/-- On the way a slot holds what it held before, or what it shall hold. -/
theorem Progress.mem_children {d : NodeId} (hs : Progress g (g.follow r) s)
    (hd : d ∈ s.children y) : d ∈ g.children y ∨ ∃ c ∈ g.children y, g.follow r c = d := by
  rcases hs.kind_or y with hkind | hkind
  · rw [children_congr hkind] at hd
    exact .inl hd
  · rw [children_of_mapSlots hkind] at hd
    exact .inr (mem_slotsAfter.mp hd)

/-- Nodes in slots within reach afterwards lead to one node only if they are one node below one
parent. -/
def LeadsApart (g : Tree) (r : NodeId → Option NodeId) : Prop :=
  ∀ p c q d, g.ReachesAfter r g.root p → c ∈ g.children p → g.ReachesAfter r g.root q →
    d ∈ g.children q → g.follow r c = g.follow r d → p = q ∧ c = d

/-- The parent links on the way: what has come into a slot hangs below the node of the slot, and
what stays in its slot, or is in none, hangs where it hung. -/
structure Hangs (g : Tree) (r : NodeId → Option NodeId) (s : Tree) : Prop where
  moved : ∀ p c, g.ReachesAfter r g.root p → c ∈ g.children p → g.follow r c ≠ c →
    s.children p = g.slotsAfter r p → s.parent? (g.follow r c) = some p
  stayed : ∀ p c, g.ReachesAfter r g.root p → c ∈ g.children p → g.follow r c = c →
    s.parent? c = g.parent? c
  outside : ∀ w < g.size, (∀ p c, g.ReachesAfter r g.root p → c ∈ g.children p →
    c ≠ w ∧ g.follow r c ≠ w) → s.parent? w = g.parent? w

theorem Hangs.start (g : Tree) (r : NodeId → Option NodeId) : Hangs g r g where
  moved _ _ _ hc hmoved hfilled := absurd (follow_of_slotsAfter hfilled.symm hc) hmoved
  stayed _ _ _ _ _ := rfl
  outside _ _ _ := rfl

/-- A step of the walk keeps the parent links so. -/
theorem Hangs.replaceChildren (hapart : g.LeadsApart r) (hroot : g.Settles r g.root)
    (hy : g.ReachesAfter r g.root y) (hs : Progress g (g.follow r) s) (h : Hangs g r s) :
    Hangs g r (s.replaceChildren y (g.slotsAfter r y)) := by
  have hsettles := hy.settles hroot
  -- A slot that the step changes is a slot that the batch changes.
  have hchanged : ∀ d ∈ s.children y, g.follow r d ≠ d → d ∈ g.children y := by
    intro d hd hne
    rcases hs.mem_children hd with hd | ⟨c, hc, rfl⟩
    · exact hd
    · exact absurd (follow_follow (hsettles.child hc)) hne
  have hparent : ∀ p c, g.ReachesAfter r g.root p → c ∈ g.children p →
      (s.replaceChildren y (g.slotsAfter r y)).parent? (g.follow r c) =
        if ∃ d ∈ s.children y, g.follow r d ≠ d ∧ g.follow r d = g.follow r c then some y
        else s.parent? (g.follow r c) := by
    intro p c hp hc
    have hc' := (hp.settles hroot).child hc
    refine hs.parent?_replaceChildren hsettles (fun d _ hd => ?_) (Grounded.lt (settles_follow hc'))
    rw [hd, follow_follow hc']
  refine ⟨fun p c hp hc hmoved hfilled => ?_, fun p c hp hc hstays => ?_, fun w hw hout => ?_⟩
  · rw [hparent p c hp hc]
    split
    · next hexists =>
      obtain ⟨d, hd, hne, heq⟩ := hexists
      rw [(hapart y d p c hy (hchanged d hd hne) hp hc heq).1]
    · next hnone =>
      refine h.moved p c hp hc hmoved ?_
      rcases hs.kind_or p with hkind | hkind
      · -- The slots of `p` are as they were, so `p` is not the node of this step.
        by_cases hpy : p = y
        · refine absurd ⟨c, ?_, hmoved, rfl⟩ hnone
          rwa [← hpy, children_congr hkind]
        · rw [← hfilled, children_congr ((hs.replaceChildren hsettles).2.2 p hpy)]
      · exact children_of_mapSlots hkind
  · have hparent' := hparent p c hp hc
    rw [hstays, if_neg] at hparent'
    · rw [hparent', h.stayed p c hp hc hstays]
    · rintro ⟨d, hd, hne, heq⟩
      have hsame := hapart y d p c hy (hchanged d hd hne) hp hc (heq.trans hstays.symm)
      exact hne (hsame.2 ▸ hstays)
  · rw [hs.parent?_replaceChildren hsettles (fun d hd hdw => ?_) hw, if_neg, h.outside w hw hout]
    · rintro ⟨d, hd, hne, heq⟩
      exact (hout y d hy (hchanged d hd hne)).2 heq
    · rcases hs.mem_children hd with hd | ⟨c, hc, rfl⟩
      · exact absurd hdw (hout y d hy hd).1
      · exact absurd hdw (hout y c hy hc).2

/-- Afterwards what has come into a slot hangs below the node of the slot. -/
theorem hangs_apply {staged : Replacements} (hroot : g.Settles (fun id => staged.lookup id) g.root)
    (hapart : g.LeadsApart fun id => staged.lookup id) :
    Hangs g (fun id => staged.lookup id) (g.apply staged).2 :=
  (apply_spec hroot (fun _ _ hy hs => Hangs.replaceChildren hapart hroot hy hs) (.start g _)).2.1

/-- Where a substitution may put nodes without mixing them up: slots within reach afterwards hold
nodes that hang below them, and no two of them lead to one node, or to the root. -/
structure Separates (g : Tree) (r : NodeId → Option NodeId) : Prop where
  settles : g.Settles r g.root
  root_parent : g.parent? g.root = none
  linked : ∀ p c, g.ReachesAfter r g.root p → c ∈ g.children p → g.parent? c = some p
  inj : ∀ p c q d, g.ReachesAfter r g.root p → c ∈ g.children p → g.ReachesAfter r g.root q →
    d ∈ g.children q → g.follow r c = g.follow r d → c = d
  ne_root : ∀ p c, g.ReachesAfter r g.root p → c ∈ g.children p → g.follow r c ≠ g.root

theorem Separates.leadsApart (h : g.Separates r) : g.LeadsApart r := by
  intro p c q d hp hc hq hd heq
  obtain rfl := h.inj p c q d hp hc hq hd heq
  exact ⟨Option.some.inj ((h.linked p c hp hc).symm.trans (h.linked q c hq hd)), rfl⟩

/-- After the substitution every slot within reach holds where its old content leads, and that
hangs below it. -/
theorem Separates.apply {staged : Replacements}
    (h : g.Separates fun id => staged.lookup id) :
    let r := fun id : NodeId => staged.lookup id
    let t := (g.apply staged).2
    Progress g (g.follow r) t ∧ t.parent? g.root = none ∧
    (∀ z, g.ReachesAfter r g.root z →
      t.kind? z = (g.kind? z).map (NodeKind.mapSlots (g.follow r))) ∧
    ∀ p c, g.ReachesAfter r g.root p → c ∈ g.children p →
      t.parent? (g.follow r c) = some p := by
  intro r t
  have hhangs := hangs_apply h.settles h.leadsApart
  refine ⟨progress_apply h.settles, ?_, fun z hz => kind?_apply h.settles hz,
    fun p c hp hc => ?_⟩
  · rw [hhangs.outside g.root (Grounded.lt h.settles) fun p c hp hc => ⟨?_, h.ne_root p c hp hc⟩,
      h.root_parent]
    rintro rfl
    exact nomatch h.root_parent.symm.trans (h.linked p g.root hp hc)
  · by_cases hstays : g.follow r c = c
    · rw [hstays, hhangs.stayed p c hp hc hstays, h.linked p c hp hc]
    · exact hhangs.moved p c hp hc hstays (children_apply h.settles hp)

end Tree

end StackTemplate
