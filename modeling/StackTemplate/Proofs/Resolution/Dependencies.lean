import StackTemplate.Proofs.Resolution.Appending
import StackTemplate.Proofs.Text.Order

/-!
# What the finalizer depends on

Every other resource of the directory falls into one of three classes by its condition: it always
exists (`alwaysExists`), it may exist (`mayExist`), or its condition is the literal `false`. Wiring
the finalizer makes it depend on each resource of the first two classes once, in the order of the
directory (`analyze_dependsOn`). Resources of the first class are added to its names, which are then
ascending, and come with an edge without guards. For each resource of the second class an
`if` expression goes to the end of the `DependsOn` property, and an edge under its condition is
recorded.
-/

namespace StackTemplate.Finalizer

open StackTemplate.Tree

variable {t s : Tree} {directory : Directory} {finalizer : NodeId} {finalizerName : String}
  {d : Decl} {resource : ResourceItem}

/-! ### The other resources -/

/-- The resource that the directory has under a name other than the finalizer's. -/
def otherResource? (t : Tree) (directory : Directory) (finalizerName name : String) :
    Option Decl :=
  if name = finalizerName then none
  else ((directory.get? name).bind t.decl?).filter Decl.isResource

/-- The name of another resource that has no condition, or the literal `true`. -/
def alwaysExists (t : Tree) (directory : Directory) (finalizerName name : String) : Bool :=
  (otherResource? t directory finalizerName name).any fun d =>
    d.ifCondition?.all fun condition => t.bool? condition = some true

/-- The name of another resource that has a condition which is no boolean literal. -/
def mayExist (t : Tree) (directory : Directory) (finalizerName name : String) : Bool :=
  (otherResource? t directory finalizerName name).any fun d =>
    d.ifCondition?.any fun condition => (t.bool? condition).isNone

/-- Names with entries of their own: no other name leads to the finalizer. -/
theorem id_eq_finalizer_iff (hindexed : t.Indexed directory)
    (hget : directory.get? finalizerName = some finalizer) {entry : String × NodeId}
    (hentry : entry ∈ directory.entries) : entry.2 = finalizer ↔ entry.1 = finalizerName := by
  have hget' : directory.get? entry.1 = some entry.2 := Table.get?_eq_some.mpr hentry
  constructor
  · intro heq
    obtain ⟨-, d, hd, hname⟩ := hindexed _ _ hget
    obtain ⟨-, d', hd', hname'⟩ := hindexed _ _ hget'
    rw [heq, hd] at hd'
    obtain rfl := Option.some.inj hd'
    exact Option.some.inj (hname'.symm.trans hname)
  · intro heq
    rw [heq, hget] at hget'
    exact (Option.some.inj hget').symm

/-- What is made of the other resources, entry by entry. -/
theorem filterMap_otherResources {β : Type} (f : String × NodeId × Decl → Option β)
    (hindexed : t.Indexed directory) (hget : directory.get? finalizerName = some finalizer) :
    (otherResources t directory finalizer).filterMap f =
      directory.entries.filterMap fun entry =>
        (otherResource? t directory finalizerName entry.1).bind fun d =>
          f (entry.1, entry.2, d) := by
  -- Both sides go over the entries; one leaves the finalizer out by its id, the other by its name.
  rw [otherResources, List.filterMap_filterMap]
  refine List.filterMap_congr fun entry hentry => ?_
  have hget' : directory.get? entry.1 = some entry.2 := Table.get?_eq_some.mpr hentry
  rw [otherResource?, hget', Option.bind_some]
  by_cases hname : entry.1 = finalizerName
  · simp [(id_eq_finalizer_iff hindexed hget hentry).mpr hname, hname]
  have hid := mt (id_eq_finalizer_iff hindexed hget hentry).mp hname
  cases hd : t.decl? entry.2 with
  | none => simp [hid, hname, hd]
  | some d =>
    cases hresource : d.isResource <;> simp [hid, hname, hd, hresource, Option.filter_some]

theorem filter_names (directory : Directory) (p : String → Bool) :
    directory.names.filter p =
      directory.entries.filterMap fun entry => if p entry.1 then some entry.1 else none := by
  rw [Directory.names, Table.keys, List.filter_map, ← List.filterMap_eq_map,
    ← List.filterMap_eq_filter, List.filterMap_filterMap]
  refine List.filterMap_congr fun entry _ => ?_
  cases hp : p entry.1 <;> simp [Option.guard, hp]

theorem unconditionalNames_eq (hindexed : t.Indexed directory)
    (hget : directory.get? finalizerName = some finalizer) :
    unconditionalNames t (otherResources t directory finalizer) =
      directory.names.filter (alwaysExists t directory finalizerName) := by
  rw [filter_names, unconditionalNames, filterMap_otherResources _ hindexed hget]
  refine List.filterMap_congr fun entry _ => ?_
  rw [alwaysExists]
  cases otherResource? t directory finalizerName entry.1 with
  | none => rfl
  | some d => cases hcondition : d.ifCondition? <;> simp [hcondition]

theorem conditional_names_eq (hindexed : t.Indexed directory)
    (hget : directory.get? finalizerName = some finalizer) :
    (conditionals t directory finalizer).map (·.name) =
      directory.names.filter (mayExist t directory finalizerName) := by
  rw [filter_names, conditionals, conditionalResources, filterMap_otherResources _ hindexed hget,
    List.map_filterMap]
  refine List.filterMap_congr fun entry _ => ?_
  rw [mayExist]
  cases otherResource? t directory finalizerName entry.1 with
  | none => rfl
  | some d =>
    cases hcondition : d.ifCondition? with
    | none => simp [hcondition]
    | some condition => cases hbool : t.bool? condition <;> simp [hcondition, hbool]

/-! ### The finalizer itself -/

theorem setDependsOn_of_resource (hresource : d.kind = .resource resource) (names : List String) :
    (setDependsOn names d).kind = .resource { resource with dependsOn := names } ∧
      (setDependsOn names d).dependencies = d.dependencies := by
  rw [setDependsOn, hresource]
  exact ⟨rfl, rfl⟩

/-- The edges to resources that always exist. -/
def plainEdges (finalizer : NodeId) (names : List String) : List Dependency :=
  names.map fun name => { target := name, guards := [], origin := finalizer }

theorem decl?_begun (hindexed : t.Indexed directory)
    (hget : directory.get? finalizerName = some finalizer) (hd : t.decl? finalizer = some d)
    (dependsOn : List String) :
    ∃ back, (begun t directory finalizerName finalizer dependsOn).decl? finalizer =
      some ((setDependsOn (report t directory finalizer dependsOn).unconditional d).extend
        (plainEdges finalizer (directory.names.filter (alwaysExists t directory finalizerName)))
        back) := by
  have hnames := unconditionalNames_eq hindexed hget
  generalize hplain : directory.names.filter (alwaysExists t directory finalizerName) = names at *
  -- All names are from the directory, so no edge is left out.
  have hall : (plainEdges finalizer names).filter (fun edge => directory.contains edge.target) =
      plainEdges finalizer names := by
    refine List.filter_eq_self.mpr fun edge hedge => ?_
    obtain ⟨name, hname, rfl⟩ := List.mem_map.mp hedge
    rw [← hplain] at hname
    exact List.contains_iff_mem.mpr (List.mem_filter.mp hname).1
  obtain ⟨back, hback⟩ := decl?_recordEdges directory finalizer finalizerName
    (plainEdges finalizer names)
    (t.modifyDecl finalizer (setDependsOn (report t directory finalizer dependsOn).unconditional))
    finalizer
  rw [if_pos rfl, hall, decl?_modifyDecl, if_pos rfl, hd, Option.map_some, Option.map_some]
    at hback
  refine ⟨back, ?_⟩
  rw [begun, recordUnconditional, hnames, ← hback, report, hnames]
  rfl

/-- Labels and new expressions do not change what the properties are. -/
theorem Widens.dependsOnEntries_eq (h : Widens finalizer t s) (hwf : t.WellFormed)
    (hx : t.Reaches t.root finalizer) (hd : t.decl? finalizer = some d)
    (hresource : d.kind = .resource resource) (names : List String) :
    propertyFields s { resource with dependsOn := names } = propertyFields t resource ∧
    dependsOnEntries s { resource with dependsOn := names } = dependsOnEntries t resource := by
  have hexpr : ∀ x, (t.expr? x).isSome → s.expr? x = t.expr? x := fun x hx =>
    expr?_congr (h.expr x hx)
  have hfields : propertyFields s { resource with dependsOn := names } =
      propertyFields t resource := by
    rw [propertyFields, propertyFields]
    cases hid : resource.properties with
    | none => rfl
    | some id =>
      have hslot := mem_exprSlots_of_fields hd (mem_fields_of_properties hresource hid)
      rw [Option.bind_some, Option.bind_some, hexpr id (hwf.expr_slot finalizer id hx hslot)]
  refine ⟨hfields, ?_⟩
  rw [dependsOnEntries, dependsOnEntries, hfields]
  refine entriesUnder_congr fun id hid => hexpr id ?_
  obtain ⟨object, fields, -, hobject, hobject_expr, hchild⟩ :=
    reaches_of_propertyFields hx hd hresource hid
  exact hwf.expr_of_child hobject (Option.isSome_of_eq_some hobject_expr) hchild

/-- The `if` expression and the edge for the resource that the directory has under a name. -/
def IsWiredName (t : Tree) (directory : Directory) (after : Tree) (name : String)
    (made : NodeId × Dependency) : Prop :=
  ∃ r : ConditionalResource, r.name = name ∧ directory.get? name = some r.id ∧
    (t.decl? r.id).bind Decl.ifCondition? = some r.condition ∧ IsWired t after r made

theorem IsWired.congr {after : Tree} {r : ConditionalResource} {made : NodeId × Dependency}
    (h : IsWired t s r made) (hwf : t.WellFormed) (hr : Copyable t r)
    (hsame : SameBelow s after made.1) : IsWired t after r made :=
  ⟨h.1.congr (.refl r.id t) hwf hr hsame, h.2.congr hsame⟩

/-- What was made for the resources with conditions, by their names. -/
theorem Prepared.wiredNames {after : Tree} {wired : List (NodeId × Dependency)}
    (h : Prepared directory finalizer d t s wired) (hwf : t.WellFormed)
    (hbound : Bound t directory) (hsame : ∀ made ∈ wired, SameBelow s after made.1) :
    List.Forall₂ (IsWiredName t directory after)
      ((conditionals t directory finalizer).map (·.name)) wired := by
  rw [List.forall₂_map_left_iff]
  have hmade := ((List.forall₂_and_left ..).mpr ⟨hsame, h.wired.flip⟩).flip
  refine ((List.forall₂_and_left ..).mpr ⟨fun r hr => hr, hmade⟩).imp ?_
  rintro r made ⟨hr, hmade, hwired⟩
  have hcopyable := copyable_of_mem hwf hbound hr
  obtain ⟨hget, -, d', hd', -, hcondition, -⟩ := mem_conditionalResources.mp hr
  refine ⟨r, rfl, hget, ?_, IsWired.congr hwired hwf hcopyable hmade⟩
  rw [hd', Option.bind_some, hcondition]

/-- Wiring makes the finalizer depend on every other resource once. -/
theorem analyze_dependsOn (hwf : t.WellFormed) (hindexed : t.Indexed directory)
    (hget : directory.get? finalizerName = some finalizer) (hd : t.decl? finalizer = some d)
    (hresource : d.kind = .resource resource) :
    let certain := directory.names.filter (alwaysExists t directory finalizerName)
    let possible := directory.names.filter (mayExist t directory finalizerName)
    ∃ dependsOn wired after d' resource',
      analyze t directory finalizerName =
        .ok (some { unconditional := dependsOn, conditional := possible }, after) ∧
      after.decl? finalizer = some d' ∧ d'.kind = .resource resource' ∧
      resource'.dependsOn = dependsOn ∧ Text.Ascending dependsOn ∧
      (∀ name, name ∈ dependsOn ↔ name ∈ resource.dependsOn ∨ name ∈ certain) ∧
      d'.dependencies = d.dependencies ++
        certain.map (fun name => { target := name, guards := [], origin := finalizer }) ++
        wired.map Prod.snd ∧
      (wired = [] → resource'.properties = resource.properties) ∧
      (wired ≠ [] → ∃ list, (propertyFields after resource').get? dependsOnKey = some list ∧
        after.expr? list = some (.list (dependsOnEntries t resource ++ wired.map Prod.fst))) ∧
      dependsOnEntries after resource' = dependsOnEntries t resource ++ wired.map Prod.fst ∧
      List.Forall₂ (IsWiredName t directory after) possible wired := by
  intro certain possible
  have hbound := hindexed.bound
  obtain ⟨hx, -⟩ := hbound finalizerName finalizer hget
  have hreport : report t directory finalizer resource.dependsOn =
      ⟨Text.sortedDistinct (resource.dependsOn ++ certain), possible⟩ := by
    rw [report, unconditionalNames_eq hindexed hget, conditional_names_eq hindexed hget]
  obtain ⟨back₁, hd₁⟩ := decl?_begun hindexed hget hd resource.dependsOn
  rw [hreport] at hd₁
  generalize hnames : Text.sortedDistinct (resource.dependsOn ++ certain) = names at *
  have hmem : ∀ name, name ∈ names ↔ name ∈ resource.dependsOn ∨ name ∈ certain := by
    intro name
    rw [← hnames, Text.mem_sortedDistinct, List.mem_append]
  have hascending : Text.Ascending names := hnames ▸ Text.sortedDistinct_ascending _
  obtain ⟨hkind, hedges⟩ := setDependsOn_of_resource hresource names
  obtain ⟨s, wired, back, after, hanalyze, hprepared, hdecl, -, -, hcases⟩ :=
    analyze_stages hwf hbound hget hd hresource hd₁ hkind
  rw [hreport] at hanalyze
  obtain ⟨-, hentries⟩ := hprepared.widens.dependsOnEntries_eq hwf hx hd hresource names
  have hpossible : (conditionals t directory finalizer).map (·.name) = possible :=
    conditional_names_eq hindexed hget
  -- The finalizer before the expressions are appended.
  generalize hd₂ : Decl.extend (wired.map Prod.snd) back _ = d₂ at hdecl hcases
  have hkind₂ : d₂.kind = .resource { resource with dependsOn := names } := hd₂ ▸ hkind
  have hedges₂ : d₂.dependencies =
      d.dependencies ++ plainEdges finalizer certain ++ wired.map Prod.snd := by
    rw [← hd₂, Decl.dependencies_extend, Decl.dependencies_extend, hedges]
  rcases hcases with ⟨rfl, rfl⟩ | ⟨hne, object, list, happended⟩
  · refine ⟨names, [], after, d₂, _, hanalyze, hdecl, hkind₂, rfl, hascending, hmem, hedges₂,
      fun _ => rfl, fun hne => absurd rfl hne, ?_, ?_⟩
    · rw [hentries, List.map_nil, List.append_nil]
    · rw [← hpossible]
      exact hprepared.wiredNames hwf hbound fun _ _ => .refl _ _
  · have hx' := hprepared.reaches hwf hx
    have hset := setProperties_of_resource hkind₂ object
    refine ⟨names, wired, after, _, { resource with dependsOn := names, properties := some object },
      hanalyze, happended.decl, ?_, rfl, hascending, hmem, ?_, fun hnil => absurd hnil hne,
      fun _ => ⟨list, ?_, ?_⟩, ?_, ?_⟩
    · rw [hset]
    · rw [hset]
      exact hedges₂
    · rw [propertyFields_of_object rfl happended.object_expr, Table.get?_insert, if_pos rfl]
    · rw [happended.list_expr, hentries]
    · rw [happended.dependsOnEntries_eq, hentries]
    · rw [← hpossible]
      refine hprepared.wiredNames hwf hbound fun made hmade => ?_
      exact happended.sameBelow hx' hdecl hkind₂ hprepared.spare (List.mem_map_of_mem hmade)

/-- A resource that lists names already, and has one expression under `DependsOn`. -/
def marker : ResourceItem where
  resourceType := some "Marker"
  properties := some 9
  dependsOn := ["Zone", "Bucket"]

/-- Resources without a condition, with decided ones and with an open one, and a resource that is
created last. -/
def rollout : Tree where
  nodes := #[
    { kind := .decl { localName := "Table", kind := .resource { resourceType := some "Table" } },
      span := default, parent := some 11 },
    { kind := .expr (.literal (.bool true false)), span := default, parent := some 2 },
    { kind := .decl
        { localName := "Bucket"
          kind := .resource { resourceType := some "Bucket", ifCondition := some 1 } }
      span := default
      parent := some 11 },
    { kind := .expr (.literal (.bool false false)), span := default, parent := some 4 },
    { kind := .decl
        { localName := "Cache"
          kind := .resource { resourceType := some "Cache", ifCondition := some 3 } }
      span := default
      parent := some 11 },
    { kind := .expr (.conditionRef "IsProd"), span := default, parent := some 7 },
    { kind := .expr (.getAtt "Queue" "Arn"), span := default, parent := some 7 },
    { kind := .decl
        { localName := "Queue"
          kind := .resource { resourceType := some "Queue", ifCondition := some 5 }
          reference := some 6 }
      span := default
      parent := some 11 },
    { kind := .expr (.ref "Zone"), span := default, parent := some 9 },
    { kind := .expr (.object ⟨[("DependsOn", 8)], by decide⟩), span := default, parent := some 10 },
    { kind := .decl { localName := "Last", kind := .resource marker }, span := default,
      parent := some 11 },
    { kind := .module { name := "rollout", items := [0, 2, 4, 7, 10] }, span := default }]
  root := 11

theorem rollout_wellFormed : rollout.WellFormed := by
  refine .ofAll (m := { name := "rollout", items := [0, 2, 4, 7, 10] }) rfl rfl ?_
  decide +kernel

theorem rollout_dependsOn :
    ∃ b after d' resource' item edge, rollout.bind = .ok b ∧
      analyze b.tree b.directory "Last" = .ok (some
        { unconditional := ["Bucket", "Table", "Zone"], conditional := ["Queue"] }, after) ∧
      after.decl? 10 = some d' ∧ d'.kind = .resource resource' ∧
      d'.dependencies = [{ target := "Table", guards := [], origin := 10 },
        { target := "Bucket", guards := [], origin := 10 }, edge] ∧
      dependsOnEntries after resource' = [8, item] ∧
      IsWiredName b.tree b.directory after "Queue" (item, edge) := by
  have hwf := rollout_wellFormed
  have hbind : (rollout.bind.map fun b => decide (
      b.directory.get? "Last" = some 10 ∧
      b.directory.names.filter (alwaysExists b.tree b.directory "Last") = ["Table", "Bucket"] ∧
      b.directory.names.filter (mayExist b.tree b.directory "Last") = ["Queue"] ∧
      ((b.tree.decl? 10).any fun d =>
        decide (d.dependencies = [] ∧ d.kind = .resource marker)) ∧
      dependsOnEntries b.tree marker = [8] ∧
      ((analyze b.tree b.directory "Last").map fun found =>
        found.1.map FinalizerDependencies.unconditional).toOption =
          some (some ["Bucket", "Table", "Zone"]))).toOption = some true := by
    decide +kernel
  obtain ⟨b, hb, hall⟩ := exists_of_toOption_map hbind
  obtain ⟨hget, hcertain, hpossible, hdecl, hentries, hreport⟩ := of_decide_eq_true hall
  obtain ⟨d, hd, hdecl⟩ := (Option.any_eq_true ..).mp hdecl
  obtain ⟨hout, hresource⟩ := of_decide_eq_true hdecl
  obtain ⟨dependsOn, wired, after, d', resource', hanalyze, hd', hresource', -, -, -, hedges, -, -,
    hentries', hwired⟩ := analyze_dependsOn ((coherent_of_bind hwf hb).wellFormed)
      (bind_indexed hwf hb) hget hd hresource
  rw [hcertain, hout] at hedges
  rw [hpossible] at hanalyze hwired
  rw [hentries] at hentries'
  obtain ⟨made, rfl, hmade⟩ : ∃ made, wired = [made] ∧
      IsWiredName b.tree b.directory after "Queue" made := by
    cases hwired with
    | cons hfirst hrest =>
      cases hrest
      exact ⟨_, rfl, hfirst⟩
  rw [hanalyze] at hreport
  obtain rfl : dependsOn = ["Bucket", "Table", "Zone"] := Option.some.inj (Option.some.inj hreport)
  exact ⟨b, after, d', resource', made.1, made.2, hb, hanalyze, hd', hresource', hedges, hentries',
    hmade⟩

end StackTemplate.Finalizer
