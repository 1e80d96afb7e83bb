import StackTemplate.Proofs.Tree.Access

/-!
# Slots

A slot of a node holds an expression or an item: pragmas, parameters, fields, reference expressions
and operands are expressions, the members of modules and groups are items. Expression slots come
first (`NodeKind.children_eq_append`).

A pass that replaces what slots hold changes nothing else about a node. `mapSlots` is that change
written out for every sort of node, and `NodeKind.refill_map` says that it is what refilling the
slots does.
-/

namespace StackTemplate

/-! ### Tables -/

namespace Table

variable {α : Type}

theorem ext_entries {t t' : Table α} (h : t.entries = t'.entries) : t = t' := by
  cases t
  cases t'
  simp_all

/-- Names are unique, so an entry is what its name leads to. -/
theorem get?_eq_some {t : Table α} {name : String} {a : α} :
    t.get? name = some a ↔ (name, a) ∈ t.entries := by
  obtain ⟨es, nodup⟩ := t
  unfold get?
  simp only
  induction es with
  | nil => simp
  | cons e es ih =>
    obtain ⟨k, v⟩ := e
    obtain ⟨hnot, hes⟩ := List.nodup_cons.mp nodup
    rw [List.lookup_cons, List.mem_cons]
    by_cases hk : name = k
    · subst hk
      have hfresh : (name, a) ∉ es := fun hmem => hnot (List.mem_map.mpr ⟨_, hmem, rfl⟩)
      simp [hfresh, eq_comm]
    · have hk' : (name == k) = false := beq_false_of_ne hk
      rw [hk', ih hes]
      simp [hk]

theorem get?_eq_none {t : Table α} {name : String} : t.get? name = none ↔ name ∉ t.keys := by
  rw [Option.eq_none_iff_forall_ne_some, keys, List.mem_map]
  constructor
  · rintro h ⟨⟨k, a⟩, hmem, rfl⟩
    exact h a (get?_eq_some.mpr hmem)
  · rintro h a ha
    exact h ⟨(name, a), get?_eq_some.mp ha, rfl⟩

theorem contains_eq_false {t : Table α} {name : String} :
    t.contains name = false ↔ t.get? name = none := by
  rw [get?_eq_none, contains, ← Bool.not_eq_true, List.contains_iff_mem]

theorem contains_eq_isSome (t : Table α) (name : String) :
    t.contains name = (t.get? name).isSome := by
  rw [Bool.eq_iff_iff, ← Bool.not_eq_false, contains_eq_false, Option.isSome_iff_ne_none]

theorem get?_filter {t : Table α} {p : String → α → Bool} {name : String} {a : α} :
    (t.filter p).get? name = some a ↔ t.get? name = some a ∧ p name a = true := by
  rw [get?_eq_some, get?_eq_some]
  exact List.mem_filter

theorem keys_filter (t : Table α) (p : String → Bool) :
    (t.filter fun name _ => p name).keys = t.keys.filter p := by
  rw [keys, keys, List.filter_map]
  rfl

theorem mem_insertEntries {name : String} {a : α} {es : List (String × α)} {e : String × α}
    (h : e ∈ insertEntries name a es) : e = (name, a) ∨ e ∈ es := by
  induction es with
  | nil => exact .inl (List.mem_singleton.mp h)
  | cons first es ih =>
    obtain ⟨k, v⟩ := first
    rw [insertEntries] at h
    split at h
    · next hk =>
      rcases List.mem_cons.mp h with heq | hmem
      · exact .inl (by rw [heq, hk])
      · exact .inr (List.mem_cons_of_mem _ hmem)
    · rcases List.mem_cons.mp h with heq | hmem
      · exact .inr (heq ▸ List.mem_cons_self ..)
      · exact (ih hmem).imp_right (List.mem_cons_of_mem _)

theorem mem_insert (t : Table α) (name : String) (a : α) :
    (name, a) ∈ (t.insert name a).entries := by
  show (name, a) ∈ insertEntries name a t.entries
  induction t.entries with
  | nil => exact List.mem_singleton.mpr rfl
  | cons e es ih =>
    obtain ⟨k, v⟩ := e
    rw [insertEntries]
    split
    · next hk =>
      rw [hk]
      exact List.mem_cons_self ..
    · exact List.mem_cons_of_mem _ ih

/-- A new name goes to the end. -/
theorem entries_insert {t : Table α} {name : String} (a : α) (h : name ∉ t.keys) :
    (t.insert name a).entries = t.entries ++ [(name, a)] := by
  have hentries : ∀ es : List (String × α), name ∉ es.map Prod.fst →
      insertEntries name a es = es ++ [(name, a)] := by
    intro es hnot
    induction es with
    | nil => rfl
    | cons e es ih =>
      obtain ⟨hne, htail⟩ := not_or.mp (mt List.mem_cons.mpr hnot)
      rw [insertEntries, if_neg (Ne.symm hne), ih htail, List.cons_append]
  exact hentries t.entries h

/-- The values after storing under a name: the new one, and the old ones but for what it
replaces. -/
theorem mem_values_insert {t : Table α} {name : String} {a b : α} (h : t.values.Nodup)
    (hb : b ∈ (t.insert name a).values) : b = a ∨ b ∈ t.values ∧ t.get? name ≠ some b := by
  obtain ⟨es, nodup⟩ := t
  unfold get?
  unfold values insert at *
  simp only at *
  induction es with
  | nil => exact .inl (List.mem_singleton.mp hb)
  | cons e es ih =>
    obtain ⟨k, v⟩ := e
    obtain ⟨hnot, hes⟩ := List.nodup_cons.mp nodup
    obtain ⟨hv, hvs⟩ := List.nodup_cons.mp h
    rw [insertEntries] at hb
    rw [List.lookup_cons]
    by_cases hk : k = name
    · rw [if_pos hk] at hb
      rcases List.mem_cons.mp hb with rfl | hb
      · exact .inl rfl
      · refine .inr ⟨List.mem_cons_of_mem _ hb, ?_⟩
        rw [hk, beq_self_eq_true]
        rintro ⟨⟩
        exact hv hb
    · rw [if_neg hk] at hb
      have hk' : (name == k) = false := beq_false_of_ne (Ne.symm hk)
      rw [hk']
      rcases List.mem_cons.mp hb with rfl | hb
      · refine .inr ⟨List.mem_cons_self .., fun hget => hv ?_⟩
        exact List.mem_map.mpr ⟨(name, _), get?_eq_some (t := ⟨es, hes⟩) |>.mp hget, rfl⟩
      · exact (ih hes hvs hb).imp_right fun h => ⟨List.mem_cons_of_mem _ h.1, h.2⟩

/-- Other entries stay. -/
theorem mem_insert_of_ne {t : Table α} {name key : String} {a b : α} (hb : (key, b) ∈ t.entries)
    (hne : key ≠ name) : (key, b) ∈ (t.insert name a).entries := by
  show (key, b) ∈ insertEntries name a t.entries
  generalize t.entries = entries at hb
  induction entries with
  | nil => cases hb
  | cons e es ih =>
    obtain ⟨k, v⟩ := e
    rw [insertEntries]
    rcases List.mem_cons.mp hb with heq | hb
    · obtain ⟨rfl, rfl⟩ := Prod.mk.inj heq
      rw [if_neg hne]
      exact List.mem_cons_self ..
    · split
      · exact List.mem_cons_of_mem _ hb
      · exact List.mem_cons_of_mem _ (ih hb)

theorem get?_insert (t : Table α) (name key : String) (a : α) :
    (t.insert name a).get? key = if key = name then some a else t.get? key := by
  split
  · next hkey => rw [hkey, get?_eq_some.mpr (mem_insert t name a)]
  · next hkey =>
    refine Option.ext fun b => ?_
    rw [get?_eq_some, get?_eq_some]
    refine ⟨fun hmem => (mem_insertEntries hmem).resolve_left fun heq => ?_,
      fun hmem => mem_insert_of_ne hmem hkey⟩
    exact hkey (congrArg Prod.fst heq)

/-- Storing what is there already changes nothing. -/
theorem insert_of_get? {t : Table α} {name : String} {a : α} (h : t.get? name = some a) :
    t.insert name a = t := by
  refine ext_entries ?_
  change insertEntries name a t.entries = t.entries
  change t.entries.lookup name = some a at h
  generalize t.entries = es at h
  induction es with
  | nil => cases h
  | cons e es ih =>
    obtain ⟨k, v⟩ := e
    rw [List.lookup_cons] at h
    rw [insertEntries]
    by_cases hk : k = name
    · rw [hk, beq_self_eq_true] at h
      rw [if_pos hk, Option.some.inj h]
    · have hk' : (name == k) = false := beq_false_of_ne (Ne.symm hk)
      rw [hk'] at h
      rw [if_neg hk, ih h]

theorem nodup_values_insert {t : Table α} {name : String} {a : α} (h : t.values.Nodup)
    (ha : a ∉ t.values) : (t.insert name a).values.Nodup := by
  obtain ⟨es, nodup⟩ := t
  unfold values insert at *
  simp only at *
  clear nodup
  induction es with
  | nil => simp [insertEntries]
  | cons e es ih =>
    obtain ⟨k, v⟩ := e
    obtain ⟨hv, hvs⟩ := List.nodup_cons.mp h
    obtain ⟨hne, ha⟩ := not_or.mp (mt List.mem_cons.mpr ha)
    rw [insertEntries]
    split
    · exact List.nodup_cons.mpr ⟨ha, hvs⟩
    · refine List.nodup_cons.mpr ⟨fun hmem => ?_, ih hvs ha⟩
      obtain ⟨entry, hentry, heq⟩ := List.mem_map.mp hmem
      rcases mem_insertEntries hentry with rfl | hentry
      · exact hne heq
      · exact hv (List.mem_map.mpr ⟨entry, hentry, heq⟩)

/-- The table with every value changed. -/
def mapValues (f : α → α) (t : Table α) : Table α where
  entries := t.entries.map fun e => (e.1, f e.2)
  nodup := by
    rw [List.map_map]
    exact t.nodup

@[simp] theorem entries_mapValues (f : α → α) (t : Table α) :
    (t.mapValues f).entries = t.entries.map fun e => (e.1, f e.2) := rfl

@[simp] theorem keys_mapValues (f : α → α) (t : Table α) : (t.mapValues f).keys = t.keys := by
  simp [keys, Function.comp_def]

@[simp] theorem values_mapValues (f : α → α) (t : Table α) :
    (t.mapValues f).values = t.values.map f := by
  simp [values, Function.comp_def]

theorem get?_mapValues (f : α → α) (t : Table α) (name : String) :
    (t.mapValues f).get? name = (t.get? name).map f := by
  refine Option.ext fun b => ?_
  rw [get?_eq_some, Option.map_eq_some_iff, entries_mapValues, List.mem_map]
  constructor
  · rintro ⟨⟨k, a⟩, hmem, heq⟩
    obtain ⟨rfl, rfl⟩ := Prod.mk.inj heq
    exact ⟨a, get?_eq_some.mpr hmem, rfl⟩
  · rintro ⟨a, ha, rfl⟩
    exact ⟨(name, a), get?_eq_some.mp ha, rfl⟩

theorem refillEntries_map (f : α → α) (es : List (String × α)) :
    refillEntries es ((es.map Prod.snd).map f) = es.map fun e => (e.1, f e.2) := by
  induction es with
  | nil => rfl
  | cons e es ih => simp [refillEntries, ← ih]

theorem refill_map (f : α → α) (t : Table α) : t.refill (t.values.map f) = t.mapValues f :=
  ext_entries (refillEntries_map f t.entries)

end Table

/-! ### Expressions -/

/-- The expression with every operand changed. -/
def Expr.mapSlots (f : NodeId → NodeId) : Expr → Expr
  | .join delimiter values => .join delimiter (values.map f)
  | .select index values => .select (f index) (values.map f)
  | .split delimiter source => .split (f delimiter) (f source)
  | .findInMap mapName topKey secondKey => .findInMap mapName (f topKey) (f secondKey)
  | .base64 value => .base64 (f value)
  | .importValue value => .importValue (f value)
  | .sub format parameters => .sub format (parameters.mapValues f)
  | .ifElse condition ifTrue ifFalse => .ifElse (f condition) (f ifTrue) (f ifFalse)
  | .and lhs rhs => .and (f lhs) (f rhs)
  | .or lhs rhs => .or (f lhs) (f rhs)
  | .not value => .not (f value)
  | .equals lhs rhs => .equals (f lhs) (f rhs)
  | .list items => .list (items.map f)
  | .object fields => .object (fields.mapValues f)
  | .literal l => .literal l
  | .ref name => .ref name
  | .getAtt name attributeName => .getAtt name attributeName
  | .conditionRef name => .conditionRef name
  | .isDefined name => .isDefined name

theorem Expr.refill_map (f : NodeId → NodeId) (e : Expr) :
    e.refill (e.children.map f) = e.mapSlots f := by
  cases e <;> simp [refill, children, mapSlots, Table.refill_map]

/-! ### Declarations -/

/-- The kind with every field and held declaration changed. -/
def DeclKind.mapSlots (f : NodeId → NodeId) : DeclKind → DeclKind
  | .parameter p => .parameter { p with defaultValue := p.defaultValue.map f }
  | .var typeName value => .var typeName (f value)
  | .resource r =>
    .resource { r with
      ifCondition := r.ifCondition.map f
      properties := r.properties.map f
      value := r.value.map f }
  | .function r =>
    .function { r with
      ifCondition := r.ifCondition.map f
      properties := r.properties.map f
      environment := r.environment.map f }
  | .condition value => .condition (f value)
  | .mapping value => .mapping (f value)
  | .resourceType handler properties attributeNames =>
    .resourceType (f handler) properties attributeNames
  | .macroItem handler => .macroItem (f handler)
  | .nested n => .nested { n with parameters := n.parameters.map f }
  | .package files => .package files
  | .group items => .group (items.map f)
  | .importItem module typeName => .importItem module typeName

/-- A slot in use takes the changed id. -/
theorem takeSlot_map (f : NodeId → NodeId) (slot : Option NodeId) (ids : List NodeId) :
    takeSlot slot (slot.toList.map f ++ ids) = (slot.map f, ids) := by
  cases slot <;> rfl

theorem DeclKind.refill_map (f : NodeId → NodeId) (kind : DeclKind) :
    (kind.refillFields (kind.fields.map f)).refillItems (kind.items.map f) =
      kind.mapSlots f := by
  cases kind with
  | parameter p => cases p with | mk _ d => cases d <;> rfl
  | nested n => cases n with | mk _ p => cases p <;> rfl
  | resource r => cases r with | mk _ a b c => cases a <;> cases b <;> cases c <;> rfl
  | function r => cases r with | mk a b c => cases a <;> cases b <;> cases c <;> rfl
  | _ => rfl

/-- The declaration with every child changed. -/
def Decl.mapSlots (f : NodeId → NodeId) (d : Decl) : Decl :=
  { d with kind := d.kind.mapSlots f, reference := d.reference.map f }

theorem Decl.refill_map (f : NodeId → NodeId) (d : Decl) :
    d.refill (d.children.map f) = d.mapSlots f := by
  have htake : (d.children.map f).take d.kind.fields.length = d.kind.fields.map f := by
    rw [children, List.append_assoc, List.map_append, List.take_left' (List.length_map ..)]
  have hdrop : (d.children.map f).drop d.kind.fields.length =
      d.reference.toList.map f ++ d.kind.items.map f := by
    rw [children, List.append_assoc, List.map_append, List.drop_left' (List.length_map ..),
      List.map_append]
  simp only [refill, htake, hdrop, takeSlot_map, DeclKind.refill_map, mapSlots]

/-- What a declaration stands for changes along with its slots. -/
theorem Decl.aliasSource?_mapSlots (f : NodeId → NodeId) (d : Decl) :
    (d.mapSlots f).aliasSource? = d.aliasSource?.map f := by
  obtain ⟨localName, fullName, kind, reference, out, back⟩ := d
  cases reference with
  | some e => rfl
  | none => cases kind <;> rfl

/-! ### Modules -/

/-- The module with every child changed. -/
def Module.mapSlots (f : NodeId → NodeId) (m : Module) : Module :=
  { m with
    pragmas := m.pragmas.map f
    usings := m.usings.map fun u => { u with parameters := u.parameters.map f }
    items := m.items.map f }

theorem Module.refillUsings_map (f : NodeId → NodeId) (us : List Using) (ids : List NodeId) :
    refillUsings us ((us.filterMap Using.parameters).map f ++ ids) =
      (us.map fun u => { u with parameters := u.parameters.map f }, ids) := by
  induction us with
  | nil => rfl
  | cons u us ih =>
    obtain ⟨name, parameters⟩ := u
    cases parameters <;> simp [refillUsings, takeSlot, ih]

theorem Module.refill_map (f : NodeId → NodeId) (m : Module) :
    m.refill (m.children.map f) = m.mapSlots f := by
  have htake : (m.children.map f).take m.pragmas.length = m.pragmas.map f := by
    rw [children, List.append_assoc, List.map_append, List.take_left' (List.length_map ..)]
  have hdrop : (m.children.map f).drop m.pragmas.length =
      (m.usings.filterMap Using.parameters).map f ++ m.items.map f := by
    rw [children, List.append_assoc, List.map_append, List.drop_left' (List.length_map ..),
      List.map_append]
  simp only [refill, htake, hdrop, refillUsings_map, mapSlots]

/-! ### Nodes -/

namespace NodeKind

/-- The node with every child changed. -/
def mapSlots (f : NodeId → NodeId) : NodeKind → NodeKind
  | .module m => .module (m.mapSlots f)
  | .decl d => .decl (d.mapSlots f)
  | .expr e => .expr (e.mapSlots f)

/-- Refilling all slots by a function changes the slots and nothing else. -/
theorem refill_map (f : NodeId → NodeId) (kind : NodeKind) :
    kind.refill (kind.children.map f) = kind.mapSlots f := by
  cases kind with
  | module m => exact congrArg _ (Module.refill_map f m)
  | decl d => exact congrArg _ (Decl.refill_map f d)
  | expr e => exact congrArg _ (Expr.refill_map f e)

@[simp] theorem children_mapSlots (f : NodeId → NodeId) (kind : NodeKind) :
    (kind.mapSlots f).children = kind.children.map f := by
  rw [← refill_map]
  exact children_refill (List.length_map f)

@[simp] theorem expr?_mapSlots (f : NodeId → NodeId) (kind : NodeKind) :
    (kind.mapSlots f).expr? = kind.expr?.map (Expr.mapSlots f) := by
  cases kind <;> rfl

@[simp] theorem decl?_mapSlots (f : NodeId → NodeId) (kind : NodeKind) :
    (kind.mapSlots f).decl? = kind.decl?.map (Decl.mapSlots f) := by
  cases kind <;> rfl

theorem mapSlots_congr {f g : NodeId → NodeId} {kind : NodeKind}
    (h : ∀ c ∈ kind.children, f c = g c) : kind.mapSlots f = kind.mapSlots g := by
  rw [← refill_map, ← refill_map, List.map_congr_left h]

/-- Changing all slots twice is changing them once. -/
theorem mapSlots_mapSlots (f g : NodeId → NodeId) (kind : NodeKind) :
    (kind.mapSlots f).mapSlots g = kind.mapSlots (g ∘ f) := by
  cases kind with
  | module m => simp [mapSlots, Module.mapSlots, Function.comp_def]
  | decl d =>
    obtain ⟨localName, fullName, kind, reference, out, back⟩ := d
    cases kind <;> simp [mapSlots, Decl.mapSlots, DeclKind.mapSlots, Function.comp_def]
  | expr e => cases e <;> simp [mapSlots, Expr.mapSlots, Function.comp_def, Table.mapValues]

/-- Refilling changed slots with what they hold leaves them changed. -/
theorem refill_mapSlots (f : NodeId → NodeId) (kind : NodeKind) :
    (kind.mapSlots f).refill (kind.children.map f) = kind.mapSlots f := by
  have h := refill_children (kind.mapSlots f)
  rwa [children_mapSlots] at h

/-! ### Slots for expressions and for items -/

/-- The children that must be expressions. -/
def exprSlots : NodeKind → List NodeId
  | .module m => m.pragmas ++ m.usings.filterMap Using.parameters
  | .decl d => d.kind.fields ++ d.reference.toList
  | .expr e => e.children

/-- The children that must be declarations. -/
def itemSlots : NodeKind → List NodeId
  | .module m => m.items
  | .decl d => d.kind.items
  | .expr _ => []

theorem children_eq_append (kind : NodeKind) : kind.children = kind.exprSlots ++ kind.itemSlots := by
  cases kind with
  | module m => rfl
  | decl d => rfl
  | expr e => exact (List.append_nil _).symm

@[simp] theorem itemSlots_mapSlots (f : NodeId → NodeId) (kind : NodeKind) :
    (kind.mapSlots f).itemSlots = kind.itemSlots.map f := by
  cases kind with
  | module m => rfl
  | decl d =>
    obtain ⟨localName, fullName, kind, reference, out, back⟩ := d
    cases kind <;> rfl
  | expr e => rfl

@[simp] theorem exprSlots_mapSlots (f : NodeId → NodeId) (kind : NodeKind) :
    (kind.mapSlots f).exprSlots = kind.exprSlots.map f := by
  have h := children_mapSlots f kind
  rw [children_eq_append, children_eq_append, itemSlots_mapSlots, List.map_append] at h
  exact List.append_cancel_right h

end NodeKind

theorem Expr.children_mapSlots (f : NodeId → NodeId) (e : Expr) :
    (e.mapSlots f).children = e.children.map f :=
  NodeKind.children_mapSlots f (.expr e)

end StackTemplate
