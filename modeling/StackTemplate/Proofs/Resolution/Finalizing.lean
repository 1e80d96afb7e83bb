import StackTemplate.Proofs.Resolution.Mirroring
import StackTemplate.Proofs.Resolution.NamesBelow

/-!
# What wiring the finalizer changes

Wiring first labels declarations and makes new expressions beside the tree (`Widens`); then it hangs
these below the finalizer. Other declarations get reverse edges and nothing else, and all
expressions below them stay as they are (`Spares`). The finalizer keeps its edges and gets one to
each resource with a condition. The names below its fields are those that were there before, and
those of the new `if` expressions: the names in the copied conditions and in what the resources are
referenced by (`wire_wires`).
-/

namespace StackTemplate

namespace Tree

variable {g g' s s' : Tree} {x y : NodeId}

/-! ### Subtrees that stay -/

/-- The subtree at a node is the same in both trees. -/
def SameBelow (g g' : Tree) (x : NodeId) : Prop :=
  ∀ z, g.Reaches x z → g'.kind? z = g.kind? z ∧ g'.span z = g.span z

theorem SameBelow.refl (g : Tree) (x : NodeId) : SameBelow g g x := fun _ _ => ⟨rfl, rfl⟩

theorem SameBelow.child (h : SameBelow g g' x) (hy : y ∈ g.children x) : SameBelow g g' y :=
  fun z hz => h z (.head hy hz)

theorem SameBelow.symm (h : SameBelow g g' x) : SameBelow g' g x := by
  intro z hz
  rw [reaches_congr fun z hz => (h z hz).1] at hz
  exact ⟨(h z hz).1.symm, (h z hz).2.symm⟩

theorem SameBelow.trans {g'' : Tree} (h : SameBelow g g' x) (h' : SameBelow g' g'' x) :
    SameBelow g g'' x := by
  intro z hz
  have hz' := (reaches_congr fun z hz => (h z hz).1).mpr hz
  exact ⟨(h' z hz').1.trans (h z hz).1, (h' z hz').2.trans (h z hz).2⟩

theorem SameBelow.expr?_eq (h : SameBelow g g' x) : g'.expr? x = g.expr? x :=
  expr?_congr (h x .refl).1

theorem SameBelow.guardFor_eq (h : SameBelow g g' x) : g'.guardFor x = g.guardFor x := by
  rw [guardFor, guardFor, h.expr?_eq]

theorem SameBelow.namesBelow {name : String} (h : SameBelow g g' x) :
    g'.NamesBelow x name ↔ g.NamesBelow x name :=
  namesBelow_congr fun z hz => (h z hz).1

/-- A copy is one also of the same subtree of a smaller tree, and in a tree that keeps it. -/
theorem Mirrors.congr (h : Mirrors g s x y) (hsize : g'.size ≤ g.size) (hx : SameBelow g g' x)
    (hy : SameBelow s s' y) : Mirrors g' s' x y := by
  induction h with
  | @intro x y kind ys hnew hkind hlength hcopy hspan below ih =>
    refine .intro (Nat.le_trans hsize hnew) ((hx x .refl).1.trans hkind) hlength
      ((hy y .refl).1.trans hcopy) ?_ fun pair hpair => ?_
    · rw [(hy y .refl).2, (hx x .refl).2, hspan]
    · obtain ⟨hleft, hright⟩ := List.of_mem_zip hpair
      refine ih pair hpair (hx.child ?_) (hy.child ?_)
      · rwa [children_of_kind? hkind]
      · rwa [children_of_kind? hcopy, NodeKind.children_refill hlength]

end Tree

namespace Finalizer

open StackTemplate.Tree

variable {t s s' s'' g g' g'' : Tree} {directory : Directory} {finalizer : NodeId}
  {finalizerName name : String} {r : ConditionalResource}

/-! ### Labels and new expressions -/

/-- The second tree has all nodes of the first, with their spans. Declarations other than the
finalizer have at most more reverse edges, and the finalizer has its fields and its edges. -/
structure Widens (finalizer : NodeId) (t s : Tree) : Prop where
  size_le : t.size ≤ s.size
  span_eq : ∀ z, z < t.size → s.span z = t.span z
  expr : ∀ z, (t.expr? z).isSome → s.kind? z = t.kind? z
  decl : ∀ x d, t.decl? x = some d → x ≠ finalizer → ∃ back, s.decl? x = some (d.extend [] back)
  own : ∀ d, t.decl? finalizer = some d → ∃ d', s.decl? finalizer = some d' ∧
    d'.kind.fields = d.kind.fields ∧ d'.reference = d.reference ∧ d.dependencies ⊆ d'.dependencies

theorem Widens.refl (finalizer : NodeId) (t : Tree) : Widens finalizer t t where
  size_le := Nat.le_refl _
  span_eq _ _ := rfl
  expr _ _ := rfl
  decl _ d hd _ := ⟨[], by rw [hd, Decl.extend_nil]⟩
  own d hd := ⟨d, hd, rfl, rfl, List.Subset.refl _⟩

theorem Widens.trans (h : Widens finalizer t s) (h' : Widens finalizer s s') :
    Widens finalizer t s' where
  size_le := Nat.le_trans h.size_le h'.size_le
  span_eq z hz := (h'.span_eq z (Nat.lt_of_lt_of_le hz h.size_le)).trans (h.span_eq z hz)
  expr z hz := by
    have heq := h.expr z hz
    rw [← expr?_congr heq] at hz
    rw [h'.expr z hz, heq]
  decl x d hd hne := by
    obtain ⟨back, hback⟩ := h.decl x d hd hne
    obtain ⟨back', hback'⟩ := h'.decl x _ hback hne
    exact ⟨back ++ back', by rw [hback', Decl.extend_extend, List.nil_append]⟩
  own d hd := by
    obtain ⟨d', hd', hfields, hreference, hsubset⟩ := h.own d hd
    obtain ⟨d'', hd'', hfields', hreference', hsubset'⟩ := h'.own d' hd'
    exact ⟨d'', hd'', hfields'.trans hfields, hreference'.trans hreference,
      List.Subset.trans hsubset hsubset'⟩

theorem Widens.ofKeeps (h : Keeps t s) : Widens finalizer t s where
  size_le := h.size_le
  span_eq := h.span_eq
  expr z hz := by
    obtain ⟨e, he⟩ := Option.isSome_iff_exists.mp hz
    exact h.kind_eq z (lt_size_of_expr? he)
  decl x d hd _ := by
    refine ⟨[], ?_⟩
    rw [decl?_congr (h.kind_eq x (lt_size_of_decl? hd)), hd, Decl.extend_nil]
  own d hd := ⟨d, by rw [decl?_congr (h.kind_eq finalizer (lt_size_of_decl? hd)), hd], rfl, rfl,
    List.Subset.refl _⟩

/-- Labels leave expressions alone. -/
theorem expr_of_relabelled {z : NodeId} (h : Relabelled t s) (hz : (t.expr? z).isSome) :
    s.kind? z = t.kind? z := by
  rcases h.kind z with heq | ⟨d, d', hd, -⟩
  · exact heq
  · rw [expr?_of_decl? (decl?_eq_some.mpr hd)] at hz
    cases hz

theorem Widens.recordEdge (t : Tree) (finalizer target : NodeId) (finalizerName : String)
    (edge : Dependency) :
    Widens finalizer t (t.recordEdge finalizer finalizerName target edge) where
  size_le := (recordEdge_relabelled ..).size_eq.ge
  span_eq z _ := span_recordEdge t finalizer finalizerName target edge z
  expr z hz := expr_of_relabelled (recordEdge_relabelled ..) hz
  decl x d hd hne := by
    refine ⟨if x = target then [edge.reversed finalizerName] else [], ?_⟩
    rw [decl?_recordEdge, hd, Option.map_some, if_neg hne]
  own d hd := by
    have hd' := decl?_recordEdge t finalizer finalizerName target edge finalizer
    rw [hd, Option.map_some] at hd'
    exact ⟨_, hd', rfl, rfl, List.subset_append_left _ _⟩

theorem Widens.recordEdges (directory : Directory) (finalizer : NodeId) (finalizerName : String)
    (edges : List Dependency) (t : Tree) :
    Widens finalizer t (t.recordEdges directory finalizer finalizerName edges) := by
  induction edges generalizing t with
  | nil => exact .refl finalizer t
  | cons edge edges ih =>
    rw [recordEdges_cons]
    cases directory.get? edge.target with
    | none => exact ih t
    | some target => exact (recordEdge t finalizer target finalizerName edge).trans (ih _)

theorem Widens.setDependsOn (t : Tree) (finalizer : NodeId) (names : List String) :
    Widens finalizer t (t.modifyDecl finalizer (setDependsOn names)) where
  size_le := (Relabelled.modifyDecl fun d _ => setDependsOn_relabels names d).size_eq.ge
  span_eq z _ := span_modifyDecl t finalizer (Finalizer.setDependsOn names) z
  expr z hz := expr_of_relabelled (.modifyDecl fun d _ => setDependsOn_relabels names d) hz
  decl x d hd hne := ⟨[], by rw [decl?_modifyDecl, if_neg hne, hd, Decl.extend_nil]⟩
  own d hd := by
    have hlabels := setDependsOn_relabels names d
    refine ⟨Finalizer.setDependsOn names d, ?_, hlabels.fields_eq, hlabels.reference_eq, ?_⟩
    · rw [decl?_modifyDecl, if_pos rfl, hd, Option.map_some]
    · unfold Finalizer.setDependsOn
      split <;> exact List.Subset.refl _

theorem begun_widens (t : Tree) (directory : Directory) (finalizerName : String)
    (finalizer : NodeId) (dependsOn : List String) :
    Widens finalizer t (begun t directory finalizerName finalizer dependsOn) :=
  (Widens.setDependsOn t finalizer _).trans (.recordEdges ..)

/-! ### The names in the new expressions -/

/-- The name occurs in what a resource is referenced by under its condition: in the condition, or in
the reference expression if there is one. -/
def Copies (t : Tree) (r : ConditionalResource) (name : String) : Prop :=
  t.NamesBelow r.condition name ∨
    ∃ e, (t.decl? r.id).bind Decl.reference = some e ∧ t.NamesBelow e name

/-- The name occurs in the `if` expression for a resource. -/
def ItemNames (t : Tree) (r : ConditionalResource) (name : String) : Prop :=
  Copies t r name ∨ ((t.decl? r.id).bind Decl.reference = none ∧ name = r.name) ∨
    name = noValueName

theorem IsConditional.namesBelow {item : NodeId}
    (h : IsConditional s s' r item) : s'.NamesBelow item name ↔ ItemNames s r name := by
  obtain ⟨condition, reference, noValue, hitem, hcondition, hreference, hnone⟩ := h
  have hreference' : s'.NamesBelow reference name ↔
      (∃ e, (s.decl? r.id).bind Decl.reference = some e ∧ s.NamesBelow e name) ∨
        (s.decl? r.id).bind Decl.reference = none ∧ name = r.name := by
    rcases hreference with ⟨e, he, hmirrors⟩ | ⟨hnone, href⟩
    · simp [he, hmirrors.namesBelow]
    · rw [namesBelow_iff, named?_of_expr? href, children_of_expr? href]
      simp [hnone, Expr.named?, Expr.children, eq_comm]
  have hnone' : s'.NamesBelow noValue name ↔ name = noValueName := by
    rw [namesBelow_iff, named?_of_expr? hnone, children_of_expr? hnone]
    simp [Expr.named?, Expr.children, eq_comm]
  rw [namesBelow_iff, named?_of_expr? hitem, children_of_expr? hitem]
  simp only [Expr.named?, Expr.children, List.mem_cons, List.not_mem_nil, or_false,
    exists_eq_or_imp, exists_eq_left, hcondition.namesBelow, hreference', hnone', ItemNames, Copies]
  simp [or_assoc]

theorem Widens.reference_eq {x : NodeId} (h : Widens finalizer g g') (hx : (g.decl? x).isSome) :
    (g'.decl? x).bind Decl.reference = (g.decl? x).bind Decl.reference := by
  obtain ⟨d, hd⟩ := Option.isSome_iff_exists.mp hx
  by_cases hne : x = finalizer
  · subst hne
    obtain ⟨d', hd', -, hreference, -⟩ := h.own d hd
    rw [hd, hd', Option.bind_some, Option.bind_some, hreference]
  · obtain ⟨back, hback⟩ := h.decl x d hd hne
    rw [hd, hback]
    rfl

theorem Widens.sameBelow {p : NodeId} (h : Widens finalizer g g')
    (hbelow : ∀ z, g.Reaches p z → (g.expr? z).isSome) : SameBelow g g' p := by
  intro z hz
  obtain ⟨e, he⟩ := Option.isSome_iff_exists.mp (hbelow z hz)
  exact ⟨h.expr z (hbelow z hz), h.span_eq z (lt_size_of_expr? he)⟩

theorem Copyable.sameBelow_condition (hr : Copyable g r) (hwf : g.WellFormed)
    (h : Widens finalizer g g') : SameBelow g g' r.condition :=
  h.sameBelow fun _ hz => hwf.expr_of_reaches hr.condition_reaches hr.condition_expr hz

theorem Copyable.sameBelow_reference {e : NodeId} (hr : Copyable g r) (hwf : g.WellFormed)
    (h : Widens finalizer g g') (he : (g.decl? r.id).bind Decl.reference = some e) :
    SameBelow g g' e := by
  obtain ⟨d, hd, hreference⟩ := Option.bind_eq_some_iff.mp he
  have hslot : e ∈ g.exprSlots r.id := by
    rw [exprSlots, decl?_eq_some.mp hd]
    exact List.mem_append_right _ (Option.mem_toList.mpr hreference)
  exact h.sameBelow fun _ hz => hwf.expr_of_reaches
    (hr.reaches.tail (mem_children.mpr (.inl hslot))) (hwf.expr_slot r.id e hr.reaches hslot) hz

/-- The `if` expression was made of what an earlier tree holds, and is there in a later one. -/
theorem IsConditional.congr {item : NodeId} (h : IsConditional s s' r item)
    (hwidens : Widens finalizer t s) (hwf : t.WellFormed) (hr : Copyable t r)
    (hitem : SameBelow s' s'' item) : IsConditional t s'' r item := by
  obtain ⟨condition, reference, noValue, hexpr, hcondition, hreference, hnone⟩ := h
  have hchildren : s'.children item = [condition, reference, noValue] := children_of_expr? hexpr
  have hbelow : ∀ c ∈ [condition, reference, noValue], SameBelow s' s'' c := fun c hc =>
    hitem.child (hchildren ▸ hc)
  have hbelow_reference := hbelow reference (by simp)
  refine ⟨condition, reference, noValue, hitem.expr?_eq.trans hexpr, ?_, ?_,
    (hbelow noValue (by simp)).expr?_eq.trans hnone⟩
  · exact hcondition.congr hwidens.size_le (hr.sameBelow_condition hwf hwidens).symm
      (hbelow condition (by simp))
  · rw [References, ← hwidens.reference_eq hr.decl]
    refine hreference.imp (fun ⟨e, he, hmirrors⟩ => ⟨e, he, ?_⟩) fun ⟨hnone, href⟩ =>
      ⟨hnone, hbelow_reference.expr?_eq.trans href⟩
    rw [hwidens.reference_eq hr.decl] at he
    exact hmirrors.congr hwidens.size_le (hr.sameBelow_reference hwf hwidens he).symm
      hbelow_reference

theorem IsConditionalEdge.congr {item : NodeId} {edge : Dependency}
    (h : IsConditionalEdge s r item edge) (hitem : SameBelow s s' item) :
    IsConditionalEdge s' r item edge := by
  obtain ⟨condition, reference, noValue, hexpr, rfl⟩ := h
  have hchildren : s.children item = [condition, reference, noValue] := children_of_expr? hexpr
  have hcondition : SameBelow s s' condition := hitem.child (by simp [hchildren])
  exact ⟨condition, reference, noValue, hitem.expr?_eq.trans hexpr, by rw [hcondition.guardFor_eq]⟩

/-- The `if` expression for a resource, and the edge to it. -/
def IsWired (t s : Tree) (r : ConditionalResource) (made : NodeId × Dependency) : Prop :=
  IsConditional t s r made.1 ∧ IsConditionalEdge s r made.1 made.2

/-- What comes of making the `if` expressions for some resources: each gets an expression and an
edge, in their order. -/
structure Itemizes (finalizer : NodeId) (d : Decl) (rs : List ConditionalResource) (s : Tree)
    (made : List NodeId × Tree) : Prop where
  widens : Widens finalizer s made.2
  wired : ∃ wired back, made.1 = wired.map Prod.fst ∧
    made.2.decl? finalizer = some (d.extend (wired.map Prod.snd) back) ∧
    List.Forall₂ (IsWired s made.2) rs wired

/-- Below a new node there are new expressions only. -/
theorem expr_below_new {y z : NodeId} (h : Sprouting t s) (hle : t.size ≤ y) (hlt : y < s.size)
    (hz : s.Reaches y z) : (s.expr? z).isSome := by
  have hnew : t.size ≤ z ∧ z < s.size := by
    induction hz with
    | refl => exact ⟨hle, hlt⟩
    | tail _ hc ih =>
      obtain ⟨hle, hless, -⟩ := h.child _ _ ih.1 hc
      exact ⟨hle, Nat.lt_trans hless ih.2⟩
  exact h.expr z hnew.1 hnew.2

theorem addEach_itemizes {d : Decl} (rs : List ConditionalResource)
    (hrs : ∀ r ∈ rs, Copyable s r) (hwf : s.WellFormed) (hd : s.decl? finalizer = some d) :
    Itemizes finalizer d rs s (addEach (addConditional finalizer finalizerName) rs s) := by
  induction rs generalizing s d with
  | nil => exact ⟨.refl finalizer s, [], [], rfl, by simpa [addEach] using hd, .nil⟩
  | cons r rs ih =>
    -- An item is made beside the tree and an edge recorded, which widens the tree for the others.
    obtain ⟨hcopyable, hrest⟩ := List.forall_mem_cons.mp hrs
    obtain ⟨item, edge, hedge, heq, hkeeps, htops, hitem⟩ :=
      addConditional_grows finalizer finalizerName hwf (.refl s) hcopyable
    have hlabels := recordEdge_relabelled item.2 finalizer finalizerName r.id edge
    have hsprouting := htops.sprouting.relabel hlabels
    have hrecord := Widens.recordEdge item.2 finalizer r.id finalizerName edge
    have hfirst : Widens finalizer s (item.2.recordEdge finalizer finalizerName r.id edge) :=
      (Widens.ofKeeps hkeeps).trans hrecord
    obtain ⟨back, hd'⟩ : ∃ back,
        (item.2.recordEdge finalizer finalizerName r.id edge).decl? finalizer =
          some (d.extend [edge] back) := by
      rw [decl?_recordEdge, decl?_congr (hkeeps.kind_eq finalizer (lt_size_of_decl? hd)), hd,
        Option.map_some, if_pos rfl]
      exact ⟨_, rfl⟩
    obtain ⟨hlater, wired, back', hitems, hdecl, hwired⟩ :=
      ih (fun r' hr' => (hrest r' hr').sprout hwf hsprouting) (hsprouting.wellFormed hwf) hd'
    rw [addEach_cons, heq]
    dsimp only
    generalize addEach (addConditional finalizer finalizerName) rs
      (item.2.recordEdge finalizer finalizerName r.id edge) = later at *
    have htop := htops.top item.1 (List.mem_singleton.mpr rfl)
    have hbelow : SameBelow item.2 later.2 item.1 := (hrecord.trans hlater).sameBelow fun z hz =>
      expr_below_new htops.sprouting htop.size_le htop.lt_size hz
    refine ⟨hfirst.trans hlater, (item.1, edge) :: wired, back ++ back', ?_, ?_,
      .cons ⟨?_, hedge.congr hbelow⟩ ?_⟩
    · rw [hitems, List.map_cons]
    · rw [hdecl, Decl.extend_extend]
      rfl
    · exact hitem.congr (.refl finalizer s) hwf hcopyable hbelow
    · -- The later expressions were made of what this tree holds, too.
      refine ((List.forall₂_and_left ..).mpr ⟨hrest, hwired⟩).imp ?_
      rintro r' made ⟨hr', hconditional, hedge'⟩
      exact ⟨hconditional.congr hfirst hwf hr' (.refl _ _), hedge'⟩

section Wired

variable {rs : List ConditionalResource} {wired : List (NodeId × Dependency)}

/-- The names in the new expressions are those that were copied. -/
theorem namesBelow_wired (h : List.Forall₂ (IsWired t s) rs wired) (name : String) :
    (∃ y ∈ wired.map Prod.fst, s.NamesBelow y name) ↔ ∃ r ∈ rs, ItemNames t r name := by
  induction h with
  | nil => simp
  | cons hfirst _ ih =>
    simp only [List.map_cons, List.mem_cons, exists_eq_or_imp, hfirst.1.namesBelow, ih]

/-- Each resource has an edge to it. -/
theorem exists_wired_edge (h : List.Forall₂ (IsWired t s) rs wired) :
    ∀ r ∈ rs, ∃ edge ∈ wired.map Prod.snd, edge.target = r.name := by
  induction h with
  | nil => simp
  | cons hfirst _ ih =>
    refine List.forall_mem_cons.mpr ⟨⟨_, List.mem_cons_self .., hfirst.2.target_eq⟩, fun r hr => ?_⟩
    obtain ⟨edge, hedge, htarget⟩ := ih r hr
    exact ⟨edge, List.mem_cons_of_mem _ hedge, htarget⟩

end Wired

/-- The tree with the new `if` expressions beside it, and with the edges that come with them. -/
structure Prepared (directory : Directory) (finalizer : NodeId) (d : Decl) (t s : Tree)
    (wired : List (NodeId × Dependency)) : Prop where
  sprouting : Sprouting t s
  widens : Widens finalizer t s
  spare : Spare t.size s.size (wired.map Prod.fst) s
  decl : ∃ back, s.decl? finalizer = some (d.extend (wired.map Prod.snd) back)
  wired : List.Forall₂ (IsWired t s) (conditionals t directory finalizer) wired

theorem conditionalItems_prepared {d : Decl} {dependsOn : List String} (hwf : t.WellFormed)
    (hbound : Bound t directory)
    (hd : (begun t directory finalizerName finalizer dependsOn).decl? finalizer = some d) :
    ∃ wired, (conditionalItems t directory finalizerName finalizer dependsOn).1 =
        wired.map Prod.fst ∧
      Prepared directory finalizer d t
        (conditionalItems t directory finalizerName finalizer dependsOn).2 wired := by
  have htops := conditionalItems_tops finalizerName finalizer dependsOn hwf hbound
  have hlabels := begun_relabelled t directory finalizerName finalizer dependsOn
  have hbegun := begun_widens t directory finalizerName finalizer dependsOn
  have hcopyable : ∀ r ∈ conditionals t directory finalizer, Copyable t r :=
    fun r hr => copyable_of_mem hwf hbound hr
  obtain ⟨hwidens, wired, back, hitems, hdecl, hwired⟩ :
      Itemizes finalizer d (conditionals t directory finalizer)
        (begun t directory finalizerName finalizer dependsOn)
        (conditionalItems t directory finalizerName finalizer dependsOn) :=
    addEach_itemizes _
      (fun r hr => (hcopyable r hr).sprout hwf ((Sprouting.refl t).relabel hlabels))
      (hlabels.wellFormed hwf) hd
  refine ⟨wired, hitems, htops.sprouting, hbegun.trans hwidens,
    hitems ▸ htops.spare hwf hlabels.size_eq.ge, ⟨back, hdecl⟩, ?_⟩
  refine ((List.forall₂_and_left ..).mpr ⟨hcopyable, hwired⟩).imp ?_
  rintro r made ⟨hr, hconditional, hedge⟩
  exact ⟨hconditional.congr hbegun hwf hr (.refl _ _), hedge⟩

/-! ### Hanging them below the finalizer -/

/-- Declarations other than the finalizer have at most more reverse edges, and the expressions below
them are as they were. -/
structure Spares (finalizer : NodeId) (g g' : Tree) : Prop where
  decl : ∀ x d, g.Reaches g.root x → g.decl? x = some d → x ≠ finalizer →
    ∃ back, g'.decl? x = some (d.extend [] back)
  below : ∀ x d p z, g.Reaches g.root x → g.decl? x = some d → x ≠ finalizer →
    p ∈ g.exprSlots x → g.Reaches p z → g'.kind? z = g.kind? z

theorem Spares.refl (finalizer : NodeId) (g : Tree) : Spares finalizer g g :=
  ⟨fun _ d _ hd _ => ⟨[], by rw [hd, Decl.extend_nil]⟩, fun _ _ _ _ _ _ _ _ _ => rfl⟩

theorem exprSlots_extend {x : NodeId} {d : Decl} {back : List Dependency}
    (hd : g.decl? x = some d) (hd' : g'.decl? x = some (d.extend [] back)) :
    g'.exprSlots x = g.exprSlots x := by
  rw [exprSlots, exprSlots, decl?_eq_some.mp hd, decl?_eq_some.mp hd']
  rfl

theorem Spares.trans (h : Spares finalizer g g') (h' : Spares finalizer g' g'')
    (hkeeps : KeepsItems g g') : Spares finalizer g g'' where
  decl x d hx hd hne := by
    obtain ⟨back, hback⟩ := h.decl x d hx hd hne
    obtain ⟨back', hback'⟩ :=
      h'.decl x _ (hkeeps.host x hx (expr?_of_decl? hd)).1 hback hne
    exact ⟨back ++ back', by rw [hback', Decl.extend_extend, List.nil_append]⟩
  below x d p z hx hd hne hp hz := by
    obtain ⟨back, hback⟩ := h.decl x d hx hd hne
    have hbelow : ∀ z, g.Reaches p z → g'.kind? z = g.kind? z := fun z hz =>
      h.below x d p z hx hd hne hp hz
    rw [← hbelow z hz]
    refine h'.below x _ p z (hkeeps.host x hx (expr?_of_decl? hd)).1 hback hne ?_
      ((reaches_congr hbelow).mpr hz)
    rwa [exprSlots_extend hd hback]

theorem Widens.spares (h : Widens finalizer g g') (hwf : g.WellFormed) : Spares finalizer g g' where
  decl x d _ hd hne := h.decl x d hd hne
  below x _ p z hx _ _ hp hz := h.expr z (hwf.expr_of_reaches
    (hx.tail (mem_children.mpr (.inl hp))) (hwf.expr_slot x p hx hp) hz)

theorem mem_exprSlots_of_fields {x p : NodeId} {d : Decl} (hd : g.decl? x = some d)
    (hp : p ∈ d.kind.fields) : p ∈ g.exprSlots x := by
  rw [exprSlots, decl?_eq_some.mp hd]
  exact List.mem_append_left _ hp

/-- The node is below a field of the declaration. -/
def BelowField (g : Tree) (d : Decl) (y : NodeId) : Prop := ∃ p ∈ d.kind.fields, g.Reaches p y

theorem BelowField.expr {x y : NodeId} {d : Decl} (h : BelowField g d y) (hwf : g.WellFormed)
    (hx : g.Reaches g.root x) (hd : g.decl? x = some d) :
    g.Reaches g.root y ∧ (g.expr? y).isSome := by
  obtain ⟨p, hp, hy⟩ := h
  have hslot := mem_exprSlots_of_fields hd hp
  have hreach := hx.tail (mem_children.mpr (.inl hslot))
  exact ⟨hreach.trans hy, hwf.expr_of_reaches hreach (hwf.expr_slot x p hx hslot) hy⟩

section Grafting

variable {N : NodeId → Prop} {y : NodeId} {d : Decl}

/-- A graft at the finalizer or below one of its fields. -/
theorem Spares.graft (h : Grafts g g' y N) (hwf : g.WellFormed)
    (hx : g.Reaches g.root finalizer) (hd : g.decl? finalizer = some d)
    (hy : y = finalizer ∨ BelowField g d y) : Spares finalizer g g' := by
  refine ⟨fun x dx hx' hdx hne => ⟨[], ?_⟩, fun x dx p z hx' hdx hne hp hz => ?_⟩
  · have hxy : x ≠ y := by
      rintro rfl
      rcases hy with heq | hbelow
      · exact hne heq
      · have he := (hbelow.expr hwf hx hd).2
        rw [expr?_of_decl? hdx] at he
        cases he
    rw [decl?_congr (h.kind_eq x hx' hxy), hdx, Decl.extend_nil]
  · have hreach := hx'.tail (mem_children.mpr (.inl hp))
    refine h.kind_eq z (hreach.trans hz) ?_
    rintro rfl
    rcases hy with rfl | ⟨p', hp', hz'⟩
    · have he := hwf.expr_of_reaches hreach (hwf.expr_slot x p hx' hp) hz
      rw [expr?_of_decl? hd] at he
      cases he
    · exact hne (hwf.eq_of_slots hx' hx (expr?_of_decl? hdx) (expr?_of_decl? hd) hp
        (mem_exprSlots_of_fields hd hp') hz hz').1

/-- The names below the fields of a declaration. -/
def FieldsName (t : Tree) (x : NodeId) (name : String) : Prop :=
  ∃ d, t.decl? x = some d ∧ ∃ p ∈ d.kind.fields, t.NamesBelow p name

theorem fieldsName_iff {x : NodeId} (hd : g.decl? x = some d) :
    FieldsName g x name ↔ ∃ p ∈ d.kind.fields, g.NamesBelow p name := by
  simp [FieldsName, hd]

/-- What a graft below a field brings to the names at its node, it brings to the declaration. -/
theorem fieldsName_graft {Q : Prop} (h : Grafts g g' y N) (hwf : g.WellFormed)
    (hx : g.Reaches g.root finalizer) (hd : g.decl? finalizer = some d) (hy : BelowField g d y)
    (hself : g'.NamesBelow y name ↔ g.NamesBelow y name ∨ Q) :
    FieldsName g' finalizer name ↔ FieldsName g finalizer name ∨ Q := by
  have hne : finalizer ≠ y := by
    rintro rfl
    have he := (hy.expr hwf hx hd).2
    rw [expr?_of_decl? hd] at he
    cases he
  have hd' : g'.decl? finalizer = some d := by
    rw [decl?_congr (h.kind_eq finalizer hx hne), hd]
  have hnames : ∀ p ∈ d.kind.fields,
      (g'.NamesBelow p name ↔ g.NamesBelow p name ∨ g.Reaches p y ∧ Q) := fun p hp =>
    h.namesBelow hwf hself (hx.tail (mem_children.mpr (.inl (mem_exprSlots_of_fields hd hp))))
  rw [fieldsName_iff hd, fieldsName_iff hd']
  constructor
  · rintro ⟨p, hp, hname⟩
    rcases (hnames p hp).mp hname with hname | ⟨-, hQ⟩
    · exact .inl ⟨p, hp, hname⟩
    · exact .inr hQ
  · rintro (⟨p, hp, hname⟩ | hQ)
    · exact ⟨p, hp, (hnames p hp).mpr (.inl hname)⟩
    · obtain ⟨p, hp, hpy⟩ := hy
      exact ⟨p, hp, (hnames p hp).mpr (.inr ⟨hpy, hQ⟩)⟩

end Grafting

/-! ### The three grafts -/

section Appending

variable {d : Decl} {resource : ResourceItem} {n m : Nat} {ys : List NodeId}

/-- What is beside the tree stays when something is hung into the tree. -/
theorem Spare.kind?_hang {x z : NodeId} {kind : NodeKind} {e : Expr} {span : Span}
    (h : Spare n m ys g) (hwf : g.WellFormed) (hx : g.Reaches g.root x) (hz : n ≤ z ∧ z < m) :
    (g.hang x kind e span).kind? z = g.kind? z := by
  rw [Tree.kind?_hang kind span e (hwf.lt_size hx), if_neg, if_neg]
  · exact Nat.ne_of_lt (Nat.lt_of_lt_of_le hz.2 h.le_size)
  · rintro rfl
    exact h.outside z hx hz

/-- Below what is beside the tree is only what is beside the tree. -/
theorem Spare.reaches {y z : NodeId} (h : Spare n m ys g) (hy : n ≤ y ∧ y < m)
    (hz : g.Reaches y z) : n ≤ z ∧ z < m := by
  induction hz with
  | refl => exact hy
  | tail _ hc ih => exact (h.child _ _ ih hc).1

theorem Spare.namesBelow_hang {x y : NodeId} {kind : NodeKind} {e : Expr} {span : Span}
    (h : Spare n m ys g) (hwf : g.WellFormed) (hx : g.Reaches g.root x) (hy : y ∈ ys) :
    (g.hang x kind e span).NamesBelow y name ↔ g.NamesBelow y name :=
  namesBelow_congr fun _ hz => h.kind?_hang hwf hx (h.reaches (h.top y hy).1 hz)

/-- The properties of a resource are a field. -/
theorem mem_fields_of_properties {id : NodeId} (hresource : d.kind = .resource resource)
    (hid : resource.properties = some id) : id ∈ d.kind.fields := by
  rw [hresource, DeclKind.fields, hid]
  simp

/-- A new object in place of the properties brings no names, and may lose some. -/
theorem fieldsName_newProperties {span : Span} (hwf : g.WellFormed)
    (hx : g.Reaches g.root finalizer) (hd : g.decl? finalizer = some d)
    (hresource : d.kind = .resource resource)
    (hname : FieldsName (g.hang finalizer (.decl (setProperties g.size d)) (.object .empty) span)
      finalizer name) : FieldsName g finalizer name := by
  have hgrafts := grafts_newProperties span hwf hx hd hresource
  have hlt := hwf.lt_size hx
  have hd' : (g.hang finalizer (.decl (setProperties g.size d)) (.object .empty) span).decl?
      finalizer = some (setProperties g.size d) := by
    rw [decl?_eq_some, Tree.kind?_hang _ _ _ hlt, if_pos rfl]
  have hnew : (g.hang finalizer (.decl (setProperties g.size d)) (.object .empty) span).expr?
      g.size = some (.object .empty) := by
    rw [expr?_eq_some, Tree.kind?_hang _ _ _ hlt, if_neg (Nat.ne_of_gt hlt), if_pos rfl]
  rw [fieldsName_iff hd'] at hname
  obtain ⟨p, hp, hname⟩ := hname
  rw [setProperties_of_resource hresource] at hp
  have hp' : p = g.size ∨ p ∈ d.kind.fields := by
    rw [hresource]
    simp only [DeclKind.fields, List.mem_append, Option.toList_some, List.mem_singleton] at hp ⊢
    tauto
  rcases hp' with rfl | hp'
  · rw [namesBelow_iff, named?_of_expr? hnew, children_of_expr? hnew] at hname
    simp [Expr.named?, Expr.children, Table.values, Table.empty] at hname
  · refine (fieldsName_iff hd).mpr ⟨p, hp', (namesBelow_congr fun z hz => ?_).mp hname⟩
    obtain ⟨hreach, he⟩ := BelowField.expr ⟨p, hp', hz⟩ hwf hx hd
    refine hgrafts.kind_eq z hreach ?_
    rintro rfl
    rw [expr?_of_decl? hd] at he
    cases he

/-- A graft leaves the way down to its node. -/
theorem reaches_graft {N : NodeId → Prop} {p x : NodeId} (h : Grafts g g' x N)
    (hwf : g.WellFormed) (hp : g.Reaches g.root p) (hpx : g.Reaches p x) : g'.Reaches p x := by
  induction hpx using Relation.ReflTransGen.head_induction_on with
  | refl => exact .refl
  | @head p c hc hcx ih =>
    have hne : p ≠ x := by
      rintro rfl
      exact hwf.acyclic hp (.head' hc hcx)
    refine .head ?_ (ih (hp.tail hc))
    rwa [children_congr (h.kind_eq p hp hne)]

/-- Nothing changes below the operands of the node at which a graft is made. -/
theorem namesBelow_operand {N : NodeId → Prop} {x c : NodeId} (h : Grafts g g' x N)
    (hwf : g.WellFormed) (hx : g.Reaches g.root x) (hc : c ∈ g.children x) :
    g'.NamesBelow c name ↔ g.NamesBelow c name := by
  refine namesBelow_congr fun z hz => h.kind_eq z ((hx.tail hc).trans hz) ?_
  rintro rfl
  exact hwf.acyclic hx (.head' hc hz)

/-- A new list brings no names: it holds what was there before. -/
theorem namesBelow_newList {object : NodeId} {fields : Table NodeId} (span : Span)
    (hwf : g.WellFormed) (hx : g.Reaches g.root object)
    (hobject : g.expr? object = some (.object fields)) :
    (g.hang object (.expr (.object (fields.insert dependsOnKey g.size)))
      (.list (fields.get? dependsOnKey).toList) span).NamesBelow object name ↔
        g.NamesBelow object name := by
  have hgrafts := grafts_newList span hwf hx hobject
  have hlt := hwf.lt_size hx
  have hchildren : g.children object = fields.values := children_of_expr? hobject
  have hkind := Tree.kind?_hang (.expr (.object (fields.insert dependsOnKey g.size))) span
    (.list (fields.get? dependsOnKey).toList) hlt
  generalize g.hang object _ _ span = g' at hgrafts hkind ⊢
  have hobject' : g'.expr? object = some (.object (fields.insert dependsOnKey g.size)) := by
    rw [expr?_eq_some, hkind, if_pos rfl]
  have hlist : g'.expr? g.size = some (.list (fields.get? dependsOnKey).toList) := by
    rw [expr?_eq_some, hkind, if_neg (Nat.ne_of_gt hlt), if_pos rfl]
  have hold : ∀ c ∈ fields.values, (g'.NamesBelow c name ↔ g.NamesBelow c name) := fun c hc =>
    namesBelow_operand hgrafts hwf hx (hchildren ▸ hc)
  -- The old value of the field, if any, is below the list now.
  have hnew : g'.NamesBelow g.size name ↔
      ∃ c ∈ (fields.get? dependsOnKey).toList, g.NamesBelow c name := by
    rw [namesBelow_iff, named?_of_expr? hlist, children_of_expr? hlist]
    simp only [Expr.named?, Expr.children, reduceCtorEq, false_or]
    exact exists_congr fun c => and_congr_right fun hc => hold c (mem_values_of_get? hc)
  rw [namesBelow_iff, namesBelow_iff (t := g), named?_of_expr? hobject, named?_of_expr? hobject',
    children_of_expr? hobject, children_of_expr? hobject']
  simp only [Expr.named?, Expr.children, reduceCtorEq, false_or]
  constructor
  · rintro ⟨c, hc, hname⟩
    obtain ⟨⟨key, c'⟩, hentry, rfl⟩ := List.mem_map.mp hc
    rcases Table.mem_insertEntries hentry with heq | hmem
    · obtain ⟨rfl, rfl⟩ := Prod.mk.inj heq
      obtain ⟨c, hc, hname⟩ := hnew.mp hname
      exact ⟨c, mem_values_of_get? hc, hname⟩
    · have hvalue : c' ∈ fields.values := List.mem_map.mpr ⟨_, hmem, rfl⟩
      exact ⟨c', hvalue, (hold c' hvalue).mp hname⟩
  · rintro ⟨c, hc, hname⟩
    obtain ⟨⟨key, c'⟩, hentry, rfl⟩ := List.mem_map.mp hc
    by_cases hkey : key = dependsOnKey
    · subst hkey
      refine ⟨g.size, List.mem_map.mpr ⟨_, Table.mem_insert .., rfl⟩, hnew.mpr ⟨c', ?_, hname⟩⟩
      exact Option.mem_toList.mpr (Table.get?_eq_some.mpr hentry)
    · exact ⟨c', List.mem_map.mpr ⟨_, Table.mem_insert_of_ne hentry hkey, rfl⟩,
        (hold c' hc).mpr hname⟩

/-- Items at the end of a list bring their names. -/
theorem namesBelow_appendItems {list : NodeId} {values : List NodeId} (hwf : g.WellFormed)
    (hspare : Spare n m ys g) (hx : g.Reaches g.root list)
    (hlist : g.expr? list = some (.list values)) :
    (appendItems g list ys).NamesBelow list name ↔
      g.NamesBelow list name ∨ ∃ y ∈ ys, g.NamesBelow y name := by
  have hgrafts := grafts_appendItems hwf hspare hx hlist
  have hlist' : (appendItems g list ys).expr? list = some (.list (values ++ ys)) := by
    rw [expr?_eq_some, kind?_appendItems hlist, if_pos rfl]
  have hold : ∀ c ∈ values, ((appendItems g list ys).NamesBelow c name ↔ g.NamesBelow c name) :=
    fun c hc => namesBelow_operand hgrafts hwf hx (by rwa [children_of_expr? hlist])
  have hnew : ∀ y ∈ ys, ((appendItems g list ys).NamesBelow y name ↔ g.NamesBelow y name) := by
    refine fun y hy => namesBelow_congr fun z hz => ?_
    rw [kind?_appendItems hlist, if_neg]
    rintro rfl
    exact hspare.outside z hx (hspare.reaches (hspare.top y hy).1 hz)
  rw [namesBelow_iff, namesBelow_iff (t := g), named?_of_expr? hlist, named?_of_expr? hlist',
    children_of_expr? hlist, children_of_expr? hlist']
  simp only [Expr.named?, Expr.children, reduceCtorEq, false_or, List.mem_append]
  constructor
  · rintro ⟨c, hc | hc, hname⟩
    · exact .inl ⟨c, hc, (hold c hc).mp hname⟩
    · exact .inr ⟨c, hc, (hnew c hc).mp hname⟩
  · rintro (⟨c, hc, hname⟩ | ⟨c, hc, hname⟩)
    · exact ⟨c, .inl hc, (hold c hc).mpr hname⟩
    · exact ⟨c, .inr hc, (hnew c hc).mpr hname⟩

/-- A change on the way to the place for the new expressions, which is a node of the tree below a
field of the finalizer. It brings no names. -/
structure Opens (finalizer : NodeId) (ys : List NodeId) (g : Tree) (found : NodeId × Tree) :
    Prop where
  spares : Spares finalizer g found.2
  names : ∀ name, FieldsName found.2 finalizer name → FieldsName g finalizer name
  items : ∀ y ∈ ys, ∀ name, found.2.NamesBelow y name ↔ g.NamesBelow y name
  place : ∃ d resource, found.2.decl? finalizer = some d ∧ d.kind = .resource resource ∧
    BelowField found.2 d found.1

theorem ensureProperties_opens (hwf : g.WellFormed) (hspare : Spare n m ys g)
    (hx : g.Reaches g.root finalizer) (hd : g.decl? finalizer = some d)
    (hresource : d.kind = .resource resource) :
    Opens finalizer ys g (ensureProperties g finalizer) := by
  rcases ensureProperties_cases hd hresource with ⟨id, fields, heq, hid, hobject⟩ | ⟨-, heq⟩
  · rw [heq]
    exact ⟨.refl finalizer g, fun _ h => h, fun _ _ _ => Iff.rfl, d, resource, hd, hresource, id,
      mem_fields_of_properties hresource hid, .refl⟩
  · rw [heq]
    have hgrafts := grafts_newProperties (g.span finalizer) hwf hx hd hresource
    refine ⟨.graft hgrafts hwf hx hd (.inl rfl),
      fun _ => fieldsName_newProperties hwf hx hd hresource,
      fun y hy _ => hspare.namesBelow_hang hwf hx hy, setProperties g.size d, _, ?_,
      by rw [setProperties_of_resource hresource], g.size, ?_, .refl⟩
    · rw [decl?_eq_some, Tree.kind?_hang _ _ _ (hwf.lt_size hx), if_pos rfl]
    · rw [setProperties_of_resource hresource]
      exact mem_fields_of_properties rfl rfl

theorem ensureList_opens {object : NodeId} {fields : Table NodeId} {found : NodeId × Tree}
    (span : Span) (hwf : g.WellFormed) (hspare : Spare n m ys g)
    (hx : g.Reaches g.root finalizer) (hd : g.decl? finalizer = some d)
    (hresource : d.kind = .resource resource) (hplace : BelowField g d object)
    (hobject : g.expr? object = some (.object fields))
    (h : ensureList g span object = .ok found) : Opens finalizer ys g found := by
  obtain ⟨hreach, -⟩ := hplace.expr hwf hx hd
  have hchildren : g.children object = fields.values := children_of_expr? hobject
  rcases ensureList_cases span hwf hreach hobject with ⟨id, values, heq, hid, hlist⟩ | ⟨-, heq⟩
  · rw [heq] at h
    obtain rfl := Except.ok.inj h
    obtain ⟨p, hp, hpo⟩ := hplace
    refine ⟨.refl finalizer g, fun _ h => h, fun _ _ _ => Iff.rfl, d, resource, hd, hresource, p,
      hp, hpo.tail ?_⟩
    rw [hchildren]
    exact mem_values_of_get? (Option.mem_toList.mpr hid)
  · rw [heq] at h
    obtain rfl := Except.ok.inj h
    have hgrafts := grafts_newList span hwf hreach hobject
    -- A new list goes in below the properties, so the declaration stays as it is.
    have hne : finalizer ≠ object := by
      rintro rfl
      rw [expr?_of_decl? hd] at hobject
      cases hobject
    refine ⟨.graft hgrafts hwf hx hd (.inr hplace), fun name hname => ?_,
      fun y hy _ => hspare.namesBelow_hang hwf hreach hy, d, resource, ?_, hresource, ?_⟩
    · have hself : _ ↔ g.NamesBelow object name ∨ False :=
        (namesBelow_newList span hwf hreach hobject).trans (iff_of_eq (or_false _)).symm
      exact ((fieldsName_graft hgrafts hwf hx hd hplace hself).mp hname).resolve_right id
    · rw [decl?_congr (hgrafts.kind_eq finalizer hx hne), hd]
    · obtain ⟨p, hp, hpo⟩ := hplace
      have hpreach := hx.tail (mem_children.mpr (.inl (mem_exprSlots_of_fields hd hp)))
      refine ⟨p, hp, (reaches_graft hgrafts hwf hpreach hpo).tail ?_⟩
      have hkind := Tree.kind?_hang (.expr (.object (fields.insert dependsOnKey g.size))) span
        (.list (fields.get? dependsOnKey).toList) (hwf.lt_size hreach) object
      rw [if_pos rfl] at hkind
      rw [children_of_kind? hkind]
      exact List.mem_map.mpr ⟨_, Table.mem_insert .., rfl⟩

/-- Hanging expressions below the finalizer brings just their names to it. -/
theorem appendDependsOn_names (hwf : g.WellFormed) (hspare : Spare n m ys g)
    (hx : g.Reaches g.root finalizer) (hd : g.decl? finalizer = some d)
    (hresource : d.kind = .resource resource) (h : appendDependsOn g finalizer ys = .ok g') :
    Spares finalizer g g' ∧
      (∃ d resource, g'.decl? finalizer = some d ∧ d.kind = .resource resource) ∧
      (∀ name, FieldsName g' finalizer name →
        FieldsName g finalizer name ∨ ∃ y ∈ ys, g.NamesBelow y name) ∧
      ∀ name, (∃ y ∈ ys, g.NamesBelow y name) → FieldsName g' finalizer name := by
  by_cases hempty : ys.isEmpty
  · rw [appendDependsOn, if_pos hempty] at h
    obtain rfl := Except.ok.inj h
    refine ⟨.refl finalizer g, ⟨d, resource, hd, hresource⟩, fun _ hname => .inl hname,
      fun name => ?_⟩
    rw [List.isEmpty_iff.mp hempty]
    rintro ⟨y, hy, -⟩
    cases hy
  have hobject := ensureProperties_spec hwf hspare hx hd hresource
  have hopens := ensureProperties_opens hwf hspare hx hd hresource
  obtain ⟨hadapts, hobject_reaches, _, hobject, fields, rfl⟩ := hobject
  rw [appendDependsOn, if_neg hempty] at h
  generalize ensureProperties g finalizer = first at *
  obtain ⟨found, hfound, hadapts', hlist_reaches, _, hlist, values, rfl⟩ :=
    ensureList_spec (g.span finalizer) hadapts.wellFormed hadapts.spare hobject_reaches hobject
  simp only [hfound] at h
  obtain rfl := Except.ok.inj h
  -- The tree after each change, with the finalizer in it.
  obtain ⟨d₁, resource₁, hd₁, hresource₁, hplace₁⟩ := hopens.place
  have hx₁ := (hadapts.keepsItems.host finalizer hx (expr?_of_decl? hd)).1
  have hopens' := ensureList_opens (g.span finalizer) hadapts.wellFormed hadapts.spare hx₁ hd₁
    hresource₁ hplace₁ hobject hfound
  obtain ⟨d₂, resource₂, hd₂, hresource₂, hplace₂⟩ := hopens'.place
  have hx₂ := (hadapts'.keepsItems.host finalizer hx₁ (expr?_of_decl? hd₁)).1
  have hgrafts := grafts_appendItems hadapts'.wellFormed hadapts'.spare hlist_reaches hlist
  have hnames : ∀ name, FieldsName (appendItems found.2 found.1 ys) finalizer name ↔
      FieldsName found.2 finalizer name ∨ ∃ y ∈ ys, found.2.NamesBelow y name := fun name =>
    fieldsName_graft hgrafts hadapts'.wellFormed hx₂ hd₂ hplace₂
      (namesBelow_appendItems hadapts'.wellFormed hadapts'.spare hlist_reaches hlist)
  have hitems : ∀ name, (∃ y ∈ ys, found.2.NamesBelow y name) ↔ ∃ y ∈ ys, g.NamesBelow y name :=
    fun name => exists_congr fun y => and_congr_right fun hy =>
      (hopens'.items y hy name).trans (hopens.items y hy name)
  refine ⟨?_, ⟨d₂, resource₂, ?_, hresource₂⟩, fun name hname => ?_, fun name hname => ?_⟩
  · exact (hopens.spares.trans hopens'.spares hadapts.keepsItems).trans
      (.graft hgrafts hadapts'.wellFormed hx₂ hd₂ (.inr hplace₂))
      (hadapts.keepsItems.trans hadapts'.keepsItems)
  · rw [decl?_congr (hgrafts.kind_eq finalizer hx₂ ?_), hd₂]
    rintro rfl
    rw [expr?_of_decl? hd₂] at hlist
    cases hlist
  · rcases (hnames name).mp hname with hname | hname
    · exact .inl (hopens.names name (hopens'.names name hname))
    · exact .inr ((hitems name).mp hname)
  · exact (hnames name).mpr (.inr ((hitems name).mpr hname))

end Appending

/-! ### Wiring as a whole -/

/-- What wiring does to a tree. -/
structure Wires (directory : Directory) (finalizer : NodeId) (t g : Tree) : Prop where
  spares : Spares finalizer t g
  resource : ∃ d resource, g.decl? finalizer = some d ∧ d.kind = .resource resource
  /-- The finalizer keeps its edges, and gets one to each resource with a condition. -/
  edges : ∀ d d', t.decl? finalizer = some d → g.decl? finalizer = some d' →
    d.dependencies ⊆ d'.dependencies ∧
      ∀ r ∈ conditionals t directory finalizer, ∃ edge ∈ d'.dependencies, edge.target = r.name
  /-- The names below its fields were there before or come with the new expressions. -/
  names : ∀ name, FieldsName g finalizer name →
    FieldsName t finalizer name ∨ ∃ r ∈ conditionals t directory finalizer, ItemNames t r name
  /-- All names of the new expressions come in. -/
  new_names : ∀ name, (∃ r ∈ conditionals t directory finalizer, ItemNames t r name) →
    FieldsName g finalizer name

theorem wire_wires {d : Decl} {resource : ResourceItem} {dependsOn : List String}
    {found : FinalizerDependencies × Tree} (hwf : t.WellFormed) (hbound : Bound t directory)
    (hx : t.Reaches t.root finalizer) (hd : t.decl? finalizer = some d)
    (hresource : d.kind = .resource resource)
    (h : wire t directory finalizerName finalizer dependsOn = .ok found) :
    Wires directory finalizer t found.2 := by
  obtain ⟨happend, -, -⟩ := appended_of_wire hwf hbound hx hd hresource h
  obtain ⟨d₁, hd₁, -⟩ := (begun_widens t directory finalizerName finalizer dependsOn).own d hd
  obtain ⟨wired, hitems, hprepared⟩ := conditionalItems_prepared hwf hbound hd₁
  rw [hitems] at happend
  generalize (conditionalItems t directory finalizerName finalizer dependsOn).2 = s at *
  obtain ⟨d₂, hd₂, hfields, hreference, hsubset⟩ := hprepared.widens.own d hd
  obtain ⟨d₂', hd₂', hlabels₂⟩ := hprepared.sprouting.decl hd
  obtain rfl := Option.some.inj (hd₂.symm.trans hd₂')
  obtain ⟨names, hresource₂⟩ := hlabels₂.resource resource hresource
  have hkeeps := hprepared.sprouting.keepsItems hwf
  have hx₂ := (hkeeps.host finalizer hx (expr?_of_decl? hd)).1
  obtain ⟨hspares, hkind, hnames, hnew⟩ := appendDependsOn_names
    (hprepared.sprouting.wellFormed hwf) hprepared.spare hx₂ hd₂ hresource₂ happend
  have hcopied := namesBelow_wired hprepared.wired
  refine ⟨(hprepared.widens.spares hwf).trans hspares hkeeps, hkind, fun d' d'' hd' hd'' => ?_,
    fun name hname => ?_, fun name hname => hnew name ((hcopied name).mpr hname)⟩
  · obtain rfl := Option.some.inj (hd.symm.trans hd')
    obtain ⟨d₃, hd₃, -, hout, -⟩ := appendDependsOn_keepsEdges happend finalizer d₂ hd₂
    obtain rfl := Option.some.inj (hd''.symm.trans hd₃)
    obtain ⟨back, hback⟩ := hprepared.decl
    rw [hout]
    refine ⟨hsubset, fun r hr => ?_⟩
    obtain ⟨edge, hedge, htarget⟩ := exists_wired_edge hprepared.wired r hr
    refine ⟨edge, ?_, htarget⟩
    rw [Option.some.inj (hd₂.symm.trans hback)]
    exact List.mem_append_right _ hedge
  · refine (hnames name hname).imp (fun hname => ?_) (hcopied name).mp
    rw [fieldsName_iff hd₂, hfields] at hname
    obtain ⟨p, hp, hname⟩ := hname
    refine (fieldsName_iff hd).mpr
      ⟨p, hp, (hprepared.widens.sameBelow fun z hz => ?_).namesBelow.mp hname⟩
    exact (BelowField.expr ⟨p, hp, hz⟩ hwf hx hd).2

/-- Looking for the finalizer leaves the tree alone, or wires a resource. -/
theorem analyze_wires {found : Option FinalizerDependencies × Tree} (hwf : t.WellFormed)
    (hbound : Bound t directory) (h : analyze t directory finalizerName = .ok found) :
    (found.2 = t ∧ ∀ finalizer d resource, directory.get? finalizerName = some finalizer →
        t.decl? finalizer = some d → d.kind ≠ .resource resource) ∨
      ∃ finalizer, directory.get? finalizerName = some finalizer ∧
        Wires directory finalizer t found.2 := by
  refine (analyze_cases h).imp_right ?_
  rintro ⟨finalizer, d, resource, report, hget, hd, hresource, hwire⟩
  obtain ⟨hx, -⟩ := hbound finalizerName finalizer hget
  exact ⟨finalizer, hget, wire_wires hwf hbound hx hd hresource hwire⟩

end Finalizer

end StackTemplate
