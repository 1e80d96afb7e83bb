import StackTemplate.Proofs.Resolution.Dependencies

/-!
# What wiring the finalizer retains

Other declarations keep all that they hold. The properties of the finalizer keep every field besides
`DependsOn`, and the expressions under `DependsOn` stay in front of the new ones. So all that was in
the tree stays in it, with one exception: properties that are no object give way to a new object
when there is something to append, and go out of reach (`analyze_retains`, `tiered_gives_way`).
-/

namespace StackTemplate

namespace Tree

variable {t : Tree} {z p : NodeId}

/-- What is within reach is in a slot of the node that it hangs below. -/
theorem WellFormed.mem_children_of_parent? (h : t.WellFormed) (hz : t.Reaches t.root z)
    (hp : t.parent? z = some p) : z ∈ t.children p := by
  rcases Relation.ReflTransGen.cases_tail hz with heq | ⟨q, hq, hmem⟩
  · rw [heq, h.root_parent] at hp
    cases hp
  · rw [h.parent_eq q z hq hmem] at hp
    rwa [← Option.some.inj hp]

end Tree

namespace Finalizer

open StackTemplate.Tree

variable {t s g g' : Tree} {directory : Directory} {finalizer : NodeId} {finalizerName : String}
  {d : Decl} {resource : ResourceItem} {ys : List NodeId} {object list : NodeId}

/-- The properties of the finalizer are this expression, which is no object, and some other resource
may exist. -/
structure GivesWay (t : Tree) (directory : Directory) (finalizerName : String) (p : NodeId) :
    Prop where
  possible : ∃ name, mayExist t directory finalizerName name = true
  properties : ∃ finalizer d resource, directory.get? finalizerName = some finalizer ∧
    t.decl? finalizer = some d ∧ d.kind = .resource resource ∧ resource.properties = some p
  not_object : ∀ fields, t.expr? p ≠ some (.object fields)

theorem GivesWay.properties_eq {p : NodeId} (h : GivesWay t directory finalizerName p)
    (hget : directory.get? finalizerName = some finalizer) (hd : t.decl? finalizer = some d)
    (hresource : d.kind = .resource resource) : resource.properties = some p := by
  obtain ⟨finalizer', d', resource', hget', hd', hresource', hp⟩ := h.properties
  obtain rfl := Option.some.inj (hget.symm.trans hget')
  obtain rfl := Option.some.inj (hd.symm.trans hd')
  obtain rfl := DeclKind.resource.inj (hresource.symm.trans hresource')
  exact hp

/-! ### Appending -/

section Appended

variable (h : Appended finalizer d resource ys g g' object list)
  (hd : g.decl? finalizer = some d) (hresource : d.kind = .resource resource)

include h hresource

theorem Appended.children_finalizer : g'.children finalizer =
    resource.ifCondition.toList ++ [object] ++ resource.value.toList ++ d.reference.toList := by
  have hset := setProperties_of_resource hresource object
  rw [children_resource h.decl (by rw [hset]), hset]
  rfl

include hd

/-- The children of the finalizer stay, but for properties that are no object. -/
theorem Appended.mem_children_finalizer {c : NodeId} (hc : c ∈ g.children finalizer) :
    c ∈ g'.children finalizer ∨ resource.properties = some c ∧
      ∀ fields, g.expr? c ≠ some (.object fields) := by
  rw [h.children_finalizer hresource]
  rw [children_resource hd hresource] at hc
  simp only [List.mem_append, Option.mem_toList, List.mem_singleton] at hc ⊢
  rcases hc with ((hc | hc) | hc) | hc
  · exact .inl (.inl (.inl (.inl hc)))
  · rcases h.object_old_or_new with ⟨hobject, -⟩ | ⟨-, hother⟩
    · rw [hobject] at hc
      exact .inl (.inl (.inl (.inr (Option.some.inj hc).symm)))
    · exact .inr ⟨hc, fun fields => hother c fields hc⟩
  · exact .inl (.inl (.inr hc))
  · exact .inl (.inr hc)

omit hd hresource in
theorem Appended.list_mem : list ∈ g'.children object := by
  rw [children_of_expr? h.object_expr]
  exact List.mem_map.mpr ⟨_, Table.mem_insert .., rfl⟩

/-- What a node holds is within reach if the node is, but for properties that are no object. -/
theorem Appended.reaches_child (hwf : g.WellFormed) {y c : NodeId} (hy : g.Reaches g.root y)
    (hy' : g'.Reaches g'.root y) (hc : c ∈ g.children y) :
    g'.Reaches g'.root c ∨ resource.properties = some c ∧
      ∀ fields, g.expr? c ≠ some (.object fields) := by
  have hlt := hwf.lt_size hy
  -- Only the finalizer, the object and the list have other slots than before.
  by_cases hfinalizer : y = finalizer
  · subst hfinalizer
    exact (h.mem_children_finalizer hd hresource hc).imp_left hy'.tail
  left
  by_cases hobject : y = object
  · subst hobject
    obtain ⟨-, hexpr⟩ := h.object_old_or_new.resolve_right fun hnew => Nat.not_lt.mpr hnew.1 hlt
    rw [children_of_expr? hexpr] at hc
    obtain ⟨⟨key, c'⟩, hentry, rfl⟩ := List.mem_map.mp hc
    by_cases hkey : key = dependsOnKey
    · have hget := Table.get?_eq_some.mpr hentry
      rw [hkey] at hget
      rcases h.list_old_or_new with ⟨hold, -⟩ | ⟨-, hentries⟩
      · obtain rfl := Option.some.inj (hget.symm.trans hold)
        exact hy'.tail h.list_mem
      · -- A value that is no list has become the first entry of the new one.
        refine (hy'.tail h.list_mem).tail ?_
        rw [children_of_expr? h.list_expr, hentries, hget]
        simp [Expr.children]
    · refine hy'.tail ?_
      rw [children_of_expr? h.object_expr]
      exact List.mem_map.mpr ⟨_, Table.mem_insert_of_ne hentry hkey, rfl⟩
  refine hy'.tail ?_
  by_cases hlist : y = list
  · subst hlist
    obtain ⟨-, hexpr⟩ := h.list_old_or_new.resolve_right fun hnew => Nat.not_lt.mpr hnew.1 hlt
    rw [children_of_expr? hexpr] at hc
    rw [children_of_expr? h.list_expr]
    exact List.mem_append_left _ hc
  · rwa [children_congr (h.kind_eq y hlt hfinalizer hobject hlist)]

/-- What was within reach stays so, but for properties that are no object. -/
theorem Appended.reaches_or (hwf : g.WellFormed) (hroot : g'.root = g.root) {z : NodeId}
    (hz : g.Reaches g.root z) :
    g'.Reaches g'.root z ∨ ∃ p, resource.properties = some p ∧
      (∀ fields, g.expr? p ≠ some (.object fields)) ∧ g.Reaches p z := by
  induction hz with
  | refl => exact .inl (hroot ▸ .refl)
  | tail hy hc ih =>
    rcases ih with hy' | ⟨p, hp, hother, hpy⟩
    · refine (h.reaches_child hd hresource hwf hy hy' hc).imp_right fun ⟨hp, hother⟩ => ?_
      exact ⟨_, hp, hother, .refl⟩
    · exact .inr ⟨p, hp, hother, hpy.tail hc⟩

/-- Properties that are no object go out of reach. -/
theorem Appended.not_reaches (hwf : g.WellFormed) (hx : g.Reaches g.root finalizer)
    (hwf' : g'.WellFormed) {p : NodeId} (hp : resource.properties = some p)
    (hother : ∀ fields, g.expr? p ≠ some (.object fields)) (hys : p ∉ ys) :
    ¬ g'.Reaches g'.root p := by
  intro hreach
  -- The object is a new one, since what the properties were is none.
  obtain ⟨hnew, hnone⟩ := h.object_old_or_new.resolve_left fun ⟨hobject, hexpr⟩ => by
    obtain rfl := Option.some.inj (hp.symm.trans hobject)
    exact hother _ hexpr
  have hchildren := children_resource hd hresource
  have hmem : p ∈ g.children finalizer := by
    rw [hchildren, hp]
    simp
  have hlt := hwf.lt_size (hx.tail hmem)
  -- It still hangs below the finalizer, but is in none of its slots.
  have hparent : g'.parent? p = some finalizer := by
    rw [h.parent_eq p hlt hys, hwf.parent_eq finalizer p hx hmem]
    rw [propertyFields_of_other hnone]
    exact fun hget => nomatch hget
  have hmem' := hwf'.mem_children_of_parent? hreach hparent
  rw [h.children_finalizer hresource] at hmem'
  have hnodup := hwf.nodup hx
  rw [hchildren, hp] at hnodup
  have hne : p ≠ object := Nat.ne_of_lt (Nat.lt_of_lt_of_le hlt hnew)
  grind

/-- A field of the properties is a slot of the object. -/
theorem Appended.object_of_field {key : String} {c : NodeId} (hx : g.Reaches g.root finalizer)
    (hget : (propertyFields g resource).get? key = some c) :
    g.Reaches g.root object ∧ g.expr? object = some (.object (propertyFields g resource)) ∧
      c ∈ g.children object := by
  obtain ⟨id, fields, hid, hreach, hfields, hc⟩ := reaches_of_propertyFields hx hd hresource hget
  obtain ⟨hobject, hexpr⟩ :=
    h.object_old_or_new.resolve_right fun hnew => hnew.2 id fields hid hfields
  obtain rfl := Option.some.inj (hid.symm.trans hobject)
  exact ⟨hreach, hexpr, hc⟩

omit hresource in
/-- What is below the object and not above the list stays. -/
theorem Appended.sameBelow_inside (hwf : g.WellFormed) {c : NodeId}
    {e : Expr} (hobject : g.Reaches g.root object) (hexpr : g.expr? object = some e)
    (hc : Relation.TransGen (fun p c => c ∈ g.children p) object c) (hlist : ¬ g.Reaches c list) :
    SameBelow g g' c := by
  intro z hz
  have hbelow : g.Reaches object z := hc.to_reflTransGen.trans hz
  have hlt := hwf.lt_size (hobject.trans hbelow)
  refine ⟨h.kind_eq z hlt ?_ ?_ ?_, h.span_eq z hlt⟩
  · rintro rfl
    have hsome := hwf.expr_of_reaches hobject (Option.isSome_of_eq_some hexpr) hbelow
    rw [expr?_of_decl? hd] at hsome
    cases hsome
  · rintro rfl
    exact hwf.acyclic hobject (hc.trans_left hz)
  · rintro rfl
    exact hlist hz

/-- What a field besides `DependsOn` holds stays. -/
theorem Appended.sameBelow_field (hwf : g.WellFormed) (hx : g.Reaches g.root finalizer)
    {key : String} {c : NodeId} (hkey : key ≠ dependsOnKey)
    (hget : (propertyFields g resource).get? key = some c) : SameBelow g g' c := by
  obtain ⟨hobject, hexpr, hc⟩ := h.object_of_field hd hresource hx hget
  refine h.sameBelow_inside hd hwf hobject hexpr (.single hc) fun hback => ?_
  rcases h.list_old_or_new with ⟨hold, -⟩ | ⟨hnew, -⟩
  · obtain ⟨-, -, hlist⟩ := h.object_of_field hd hresource hx hold
    refine hwf.not_reaches_sibling hobject hc hlist ?_ hback
    rintro rfl
    -- No two fields hold the same node.
    have hnodup := hwf.nodup hobject
    rw [children_of_expr? hexpr] at hnodup
    have heq := List.inj_on_of_nodup_map hnodup (Table.get?_eq_some.mp hget)
      (Table.get?_eq_some.mp hold) rfl
    exact hkey (congrArg Prod.fst heq)
  · exact Nat.not_lt.mpr hnew (hwf.lt_size ((hobject.tail hc).trans hback))

/-- What is under `DependsOn` stays. -/
theorem Appended.sameBelow_entry (hwf : g.WellFormed) (hx : g.Reaches g.root finalizer)
    {c : NodeId} (hc : c ∈ dependsOnEntries g resource) : SameBelow g g' c := by
  rcases h.list_old_or_new with ⟨hold, hlist⟩ | ⟨hnew, hentries⟩
  · obtain ⟨hobject, hexpr, hmem⟩ := h.object_of_field hd hresource hx hold
    have hc' : c ∈ g.children list := by
      rw [children_of_expr? hlist]
      exact hc
    refine h.sameBelow_inside hd hwf hobject hexpr (.tail (.single hmem) hc') fun hback => ?_
    exact hwf.acyclic (hobject.tail hmem) (.head' hc' hback)
  · rw [hentries] at hc
    obtain ⟨hobject, hexpr, hmem⟩ :=
      h.object_of_field hd hresource hx (Option.mem_toList.mp hc)
    refine h.sameBelow_inside hd hwf hobject hexpr (.single hmem) fun hback => ?_
    exact Nat.not_lt.mpr hnew (hwf.lt_size ((hobject.tail hmem).trans hback))

end Appended

/-! ### Wiring -/

theorem mem_names_of_mayExist {name : String}
    (h : mayExist t directory finalizerName name = true) : name ∈ directory.names := by
  obtain ⟨d, hd, -⟩ := (Option.any_eq_true ..).mp h
  rw [otherResource?] at hd
  split at hd
  · cases hd
  · obtain ⟨hd, -⟩ := Option.filter_eq_some_iff.mp hd
    obtain ⟨id, hid, -⟩ := Option.bind_eq_some_iff.mp hd
    exact List.mem_map.mpr ⟨(name, id), Table.get?_eq_some.mp hid, rfl⟩

/-- There is something to append just if some other resource may exist. -/
theorem Prepared.ne_nil_iff {wired : List (NodeId × Dependency)}
    (h : Prepared directory finalizer d t s wired) (hindexed : t.Indexed directory)
    (hget : directory.get? finalizerName = some finalizer) :
    wired ≠ [] ↔ ∃ name, mayExist t directory finalizerName name = true := by
  have hnames := conditional_names_eq hindexed hget
  have hlength := h.wired.length_eq
  rw [← List.length_map (f := (·.name)), hnames] at hlength
  rw [← List.length_pos_iff, ← hlength, List.length_pos_iff_exists_mem]
  refine exists_congr fun name => ?_
  rw [List.mem_filter]
  exact ⟨And.right, fun hname => ⟨mem_names_of_mayExist hname, hname⟩⟩

/-- The properties are an expression of the tree, and stay what they are while expressions are
made. -/
theorem Prepared.properties {wired : List (NodeId × Dependency)} {d₁ : Decl} {p : NodeId}
    (h : Prepared directory finalizer d₁ t s wired) (hwf : t.WellFormed)
    (hx : t.Reaches t.root finalizer) (hd : t.decl? finalizer = some d)
    (hresource : d.kind = .resource resource) (hp : resource.properties = some p) :
    t.Reaches t.root p ∧ s.expr? p = t.expr? p := by
  have hslot := mem_exprSlots_of_fields hd (mem_fields_of_properties hresource hp)
  exact ⟨hx.tail (mem_children.mpr (.inl hslot)),
    expr?_congr (h.widens.expr p (hwf.expr_slot finalizer p hx hslot))⟩

/-- The fields besides `DependsOn` hold what they held, and so do the entries under `DependsOn`,
which come first. -/
structure RetainsProperties (t after : Tree) (resource resource' : ResourceItem) : Prop where
  field_eq : ∀ key, key ≠ dependsOnKey →
    (propertyFields after resource').get? key = (propertyFields t resource).get? key
  field_same : ∀ key c, key ≠ dependsOnKey → (propertyFields t resource).get? key = some c →
    SameBelow t after c
  entries_eq : ∃ items, dependsOnEntries after resource' = dependsOnEntries t resource ++ items
  entry_same : ∀ c ∈ dependsOnEntries t resource, SameBelow t after c

theorem RetainsProperties.trans {after : Tree} {resource' resource'' : ResourceItem}
    (h : RetainsProperties t s resource resource')
    (h' : RetainsProperties s after resource' resource'') :
    RetainsProperties t after resource resource'' where
  field_eq key hkey := (h'.field_eq key hkey).trans (h.field_eq key hkey)
  field_same key c hkey hc := (h.field_same key c hkey hc).trans
    (h'.field_same key c hkey ((h.field_eq key hkey).trans hc))
  entries_eq := by
    obtain ⟨items, heq⟩ := h.entries_eq
    obtain ⟨items', heq'⟩ := h'.entries_eq
    exact ⟨items ++ items', by rw [heq', heq, List.append_assoc]⟩
  entry_same c hc := by
    obtain ⟨items, heq⟩ := h.entries_eq
    exact (h.entry_same c hc).trans (h'.entry_same c (heq ▸ List.mem_append_left _ hc))

/-- What the properties hold are expressions of the tree. -/
theorem expr_of_entry {c : NodeId} (hwf : t.WellFormed) (hx : t.Reaches t.root finalizer)
    (hd : t.decl? finalizer = some d) (hresource : d.kind = .resource resource)
    (hc : c ∈ dependsOnEntries t resource) : t.Reaches t.root c ∧ (t.expr? c).isSome := by
  unfold dependsOnEntries entriesUnder at hc
  split at hc
  · cases hc
  next id hid =>
  obtain ⟨object, fields, -, hobject, hexpr, hmem⟩ := reaches_of_propertyFields hx hd hresource hid
  have hid' := hwf.expr_of_child hobject (Option.isSome_of_eq_some hexpr) hmem
  split at hc
  · next values hlist =>
    have hc' : c ∈ t.children id := by
      rw [children_of_expr? hlist]
      exact hc
    exact ⟨(hobject.tail hmem).tail hc', hwf.expr_of_child (hobject.tail hmem) hid' hc'⟩
  · rw [List.mem_singleton.mp hc]
    exact ⟨hobject.tail hmem, hid'⟩

theorem Widens.retainsProperties (h : Widens finalizer t s) (hwf : t.WellFormed)
    (hx : t.Reaches t.root finalizer) (hd : t.decl? finalizer = some d)
    (hresource : d.kind = .resource resource) (names : List String) :
    RetainsProperties t s resource { resource with dependsOn := names } := by
  obtain ⟨hfields, hentries⟩ := h.dependsOnEntries_eq hwf hx hd hresource names
  refine ⟨fun key _ => by rw [hfields], fun key c _ hc => ?_, ⟨[], ?_⟩, fun c hc => ?_⟩
  · obtain ⟨object, fields, -, hobject, hexpr, hmem⟩ :=
      reaches_of_propertyFields hx hd hresource hc
    have hc' := hwf.expr_of_child hobject (Option.isSome_of_eq_some hexpr) hmem
    exact h.sameBelow fun _ hz => hwf.expr_of_reaches (hobject.tail hmem) hc' hz
  · rw [hentries, List.append_nil]
  · obtain ⟨hreach, hc'⟩ := expr_of_entry hwf hx hd hresource hc
    exact h.sameBelow fun _ hz => hwf.expr_of_reaches hreach hc' hz

theorem Appended.retainsProperties (h : Appended finalizer d resource ys g g' object list)
    (hwf : g.WellFormed) (hx : g.Reaches g.root finalizer) (hd : g.decl? finalizer = some d)
    (hresource : d.kind = .resource resource) :
    RetainsProperties g g' resource { resource with properties := some object } where
  field_eq key hkey := by
    rw [propertyFields_of_object rfl h.object_expr, Table.get?_insert, if_neg hkey]
  field_same _ _ hkey hc := h.sameBelow_field hd hresource hwf hx hkey hc
  entries_eq := ⟨ys, h.dependsOnEntries_eq⟩
  entry_same _ hc := h.sameBelow_entry hd hresource hwf hx hc

/-- What a tree with a wired finalizer retains of the tree before. -/
structure Retains (t : Tree) (directory : Directory) (finalizerName : String) (after : Tree) :
    Prop where
  /-- What was within reach is so, unless it is below properties that give way. -/
  reaches : ∀ z, t.Reaches t.root z → after.Reaches after.root z ∨
    ∃ p, GivesWay t directory finalizerName p ∧ t.Reaches p z
  /-- Properties that give way go out of reach. -/
  not_reaches : ∀ p, GivesWay t directory finalizerName p → ¬ after.Reaches after.root p
  /-- Other declarations get at most reverse edges, and keep their expressions. -/
  decl : ∀ x d, t.Reaches t.root x → t.decl? x = some d → directory.get? finalizerName ≠ some x →
    (∃ back, after.decl? x = some (d.extend [] back)) ∧ ∀ p ∈ t.exprSlots x, SameBelow t after p
  /-- The finalizer keeps what its properties hold. -/
  properties : ∀ finalizer d resource, directory.get? finalizerName = some finalizer →
    t.decl? finalizer = some d → d.kind = .resource resource →
      ∃ d' resource', after.decl? finalizer = some d' ∧ d'.kind = .resource resource' ∧
        RetainsProperties t after resource resource'

/-- A finalizer that is no resource is not wired. -/
theorem Retains.refl (h : ∀ finalizer d resource, directory.get? finalizerName = some finalizer →
    t.decl? finalizer = some d → d.kind ≠ .resource resource) :
    Retains t directory finalizerName t where
  reaches _ hz := .inl hz
  not_reaches p hp := by
    obtain ⟨finalizer, d, resource, hget, hd, hresource, -⟩ := hp.properties
    exact absurd hresource (h finalizer d resource hget hd)
  decl _ d _ hd _ := ⟨⟨[], by rw [hd, Decl.extend_nil]⟩, fun _ _ => .refl _ _⟩
  properties finalizer d resource hget hd hresource :=
    absurd hresource (h finalizer d resource hget hd)

/-- Wiring a resource as the finalizer. -/
theorem wire_retains {after : Tree} {report : FinalizerDependencies} (hwf : t.WellFormed)
    (hindexed : t.Indexed directory) (hget : directory.get? finalizerName = some finalizer)
    (hd : t.decl? finalizer = some d) (hresource : d.kind = .resource resource)
    (hwire : wire t directory finalizerName finalizer resource.dependsOn = .ok (report, after)) :
    Retains t directory finalizerName after := by
  have hbound := hindexed.bound
  obtain ⟨hx, -⟩ := hbound finalizerName finalizer hget
  obtain ⟨d₁, hd₁, hlabels⟩ :=
    (begun_relabelled t directory finalizerName finalizer resource.dependsOn).decl finalizer hd
  obtain ⟨names, hresource₁⟩ := hlabels.resource resource hresource
  obtain ⟨s, wired, back, after', hanalyze, hprepared, hdecl, hwf', hroot, hcases⟩ :=
    analyze_stages hwf hbound hget hd hresource hd₁ hresource₁
  obtain rfl : after' = after := by
    rw [analyze_eq hget hd hresource, hwire] at hanalyze
    exact (congrArg Prod.snd (Except.ok.inj hanalyze)).symm
  have hwf_s := hprepared.sprouting.wellFormed hwf
  have hx_s := hprepared.reaches hwf hx
  have hspares := (wire_wires hwf hbound hx hd hresource hwire).spares
  -- The properties are the only expression that may go, in case a list is put where none was.
  have hspan : ∀ z, z < t.size → after'.span z = t.span z := by
    intro z hz
    rcases hcases with ⟨-, rfl⟩ | ⟨-, object, list, happended⟩
    · exact hprepared.widens.span_eq z hz
    · rw [happended.span_eq z (Nat.lt_of_lt_of_le hz hprepared.widens.size_le),
        hprepared.widens.span_eq z hz]
  have hretains := hprepared.widens.retainsProperties hwf hx hd hresource names
  refine ⟨fun z hz => ?_, fun p hp => ?_, fun x d' hx' hd' hne => ?_,
    fun finalizer' d' resource' hget' hd' hresource' => ?_⟩
  · rcases hcases with ⟨-, rfl⟩ | ⟨hne, object, list, happended⟩
    · exact .inl (hprepared.reaches hwf hz)
    refine (happended.reaches_or hdecl hresource₁ hwf_s hroot (hprepared.reaches hwf hz)).imp_right
      fun ⟨p, hp, hother, hpz⟩ => ?_
    obtain ⟨hreach, hexpr⟩ := hprepared.properties hwf hx hd hresource hp
    refine ⟨p, ⟨?_, ⟨finalizer, d, resource, hget, hd, hresource, hp⟩, hexpr ▸ hother⟩, ?_⟩
    · exact (hprepared.ne_nil_iff hindexed hget).mp hne
    · exact (hprepared.sprouting.reaches hwf hreach).mp hpz
  · have hproperties := hp.properties_eq hget hd hresource
    obtain ⟨hreach, hexpr⟩ := hprepared.properties hwf hx hd hresource hproperties
    obtain ⟨-, object, list, happended⟩ := hcases.resolve_left fun hnil =>
      (hprepared.ne_nil_iff hindexed hget).mpr hp.possible hnil.1
    refine happended.not_reaches hdecl hresource₁ hwf_s hx_s hwf' hproperties
      (hexpr ▸ hp.not_object) fun hmem => ?_
    exact hprepared.spare.outside p (hprepared.reaches hwf hreach) (hprepared.spare.top p hmem).1
  · -- Other declarations are not touched, nor what is below them.
    have hne' : x ≠ finalizer := fun heq => hne (heq ▸ hget)
    refine ⟨hspares.decl x d' hx' hd' hne', fun p hp z hz => ?_⟩
    refine ⟨hspares.below x d' p z hx' hd' hne' hp hz, hspan z (hwf.lt_size ?_)⟩
    exact (hx'.tail (mem_children.mpr (.inl hp))).trans hz
  · obtain rfl := Option.some.inj (hget.symm.trans hget')
    obtain rfl := Option.some.inj (hd.symm.trans hd')
    obtain rfl := DeclKind.resource.inj (hresource.symm.trans hresource')
    rcases hcases with ⟨-, rfl⟩ | ⟨-, object, list, happended⟩
    · exact ⟨_, _, hdecl, hresource₁, hretains⟩
    · have hset := setProperties_of_resource (d := d₁.extend (wired.map Prod.snd) back) hresource₁
        object
      exact ⟨_, _, happended.decl, by rw [hset],
        hretains.trans (happended.retainsProperties hwf_s hx_s hdecl hresource₁)⟩

/-- Wiring keeps other declarations with their expressions, keeps what the properties of the
finalizer hold, and keeps everything within reach, but for properties that give way to a new
object. -/
theorem analyze_retains (hwf : t.WellFormed) (hindexed : t.Indexed directory)
    (finalizerName : String) :
    ∃ found, analyze t directory finalizerName = .ok found ∧
      Retains t directory finalizerName found.2 := by
  obtain ⟨found, hfound, -⟩ := analyze_spec finalizerName hwf hindexed.bound
  refine ⟨found, hfound, ?_⟩
  rcases analyze_cases hfound with
    ⟨heq, hother⟩ | ⟨finalizer, d, resource, report, hget, hd, hresource, hwire⟩
  · rw [heq]
    exact .refl hother
  · exact wire_retains hwf hindexed hget hd hresource hwire

theorem rollout_retains :
    ∃ b found d' resource' items, rollout.bind = .ok b ∧
      analyze b.tree b.directory "Last" = .ok found ∧
      (∀ z, b.tree.Reaches b.tree.root z → found.2.Reaches found.2.root z) ∧
      found.2.decl? 10 = some d' ∧ d'.kind = .resource resource' ∧
      dependsOnEntries found.2 resource' = [8] ++ items := by
  have hwf := rollout_wellFormed
  have hbind : (rollout.bind.map fun b => decide (
      b.directory.get? "Last" = some 10 ∧
      ((b.tree.decl? 10).any fun d => decide (d.kind = .resource marker)) ∧
      b.tree.expr? 9 = some (.object ⟨[("DependsOn", 8)], by decide⟩) ∧
      dependsOnEntries b.tree marker = [8])).toOption = some true := by
    decide +kernel
  obtain ⟨b, hb, hall⟩ := exists_of_toOption_map hbind
  obtain ⟨hget, hdecl, hobject, hentries⟩ := of_decide_eq_true hall
  obtain ⟨d, hd, hresource⟩ := (Option.any_eq_true ..).mp hdecl
  replace hresource := of_decide_eq_true hresource
  obtain ⟨found, hfound, hretains⟩ := analyze_retains (coherent_of_bind hwf hb).wellFormed
    (bind_indexed hwf hb) "Last"
  obtain ⟨d', resource', hd', hresource', hkept⟩ :=
    hretains.properties 10 d marker hget hd hresource
  obtain ⟨items, heq⟩ := hkept.entries_eq
  refine ⟨b, found, d', resource', items, hb, hfound, fun z hz => ?_, hd', hresource', ?_⟩
  · refine (hretains.reaches z hz).resolve_right fun ⟨p, hp, _⟩ => ?_
    obtain rfl := Option.some.inj (hp.properties_eq hget hd hresource)
    exact hp.not_object _ hobject
  · rw [heq, hentries]

/-- A queue that only production gets, and a resource to be created last, whose properties depend on
the stage. -/
def tiered : Tree where
  nodes := #[
    { kind := .decl { localName := "Stage", kind := .parameter { typeName := "String" } },
      span := default, parent := some 13 },
    { kind := .expr (.ref "Stage"), span := default, parent := some 3 },
    { kind := .expr (.literal (.string "prod")), span := default, parent := some 3 },
    { kind := .expr (.equals 1 2), span := default, parent := some 4 },
    { kind := .decl { localName := "IsProd", kind := .condition 3 }, span := default,
      parent := some 13 },
    { kind := .expr (.conditionRef "IsProd"), span := default, parent := some 6 },
    { kind := .decl
        { localName := "Queue"
          kind := .resource { resourceType := some "Queue", ifCondition := some 5 } }
      span := default
      parent := some 13 },
    { kind := .expr (.conditionRef "IsProd"), span := default, parent := some 11 },
    { kind := .expr (.literal (.string "high")), span := default, parent := some 9 },
    { kind := .expr (.object ⟨[("Level", 8)], by decide⟩), span := default, parent := some 11 },
    { kind := .expr (.object .empty), span := default, parent := some 11 },
    { kind := .expr (.ifElse 7 9 10), span := default, parent := some 12 },
    { kind := .decl
        { localName := "Last"
          kind := .resource { resourceType := some "Marker", properties := some 11 } }
      span := default
      parent := some 13 },
    { kind := .module { name := "tiered", items := [0, 4, 6, 12] }, span := default }]
  root := 13

/-- Properties that depend on a condition go out of reach. -/
theorem tiered_gives_way :
    ∃ b found, tiered.bind = .ok b ∧ b.tree.WellFormed ∧ b.tree.Indexed b.directory ∧
      analyze b.tree b.directory "Last" = .ok found ∧
      b.tree.Reaches b.tree.root 11 ∧ ¬ found.2.Reaches found.2.root 11 := by
  have hwf : tiered.WellFormed := by
    refine .ofAll (m := { name := "tiered", items := [0, 4, 6, 12] }) rfl rfl ?_
    decide +kernel
  have hbind : (tiered.bind.map fun b => decide (
      12 ∈ b.tree.children b.tree.root ∧ 11 ∈ b.tree.children 12 ∧
      ((analyze b.tree b.directory "Last").map fun found => decide (
        found.2.parent? 11 = some 12 ∧ 11 ∉ found.2.children 12)).toOption =
          some true)).toOption = some true := by
    decide +kernel
  obtain ⟨b, hb, hall⟩ := exists_of_toOption_map hbind
  obtain ⟨hlast, hproperties, hanalyze⟩ := of_decide_eq_true hall
  obtain ⟨found, hfound, hall⟩ := exists_of_toOption_map hanalyze
  obtain ⟨hparent, hgone⟩ := of_decide_eq_true hall
  have hwf_b := (coherent_of_bind hwf hb).wellFormed
  have hindexed := bind_indexed hwf hb
  refine ⟨b, found, hb, hwf_b, hindexed, hfound, (Relation.ReflTransGen.single hlast).tail
    hproperties, fun hreach => ?_⟩
  obtain ⟨found', hfound', hwf', -⟩ := analyze_spec "Last" hwf_b hindexed.bound
  obtain rfl := Except.ok.inj (hfound.symm.trans hfound')
  exact hgone (hwf'.mem_children_of_parent? hreach hparent)

end Finalizer

end StackTemplate
