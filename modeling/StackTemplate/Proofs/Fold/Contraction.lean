import StackTemplate.Proofs.Fold.Realising
import StackTemplate.Proofs.Fold.Term

/-!
# Folding terms

A pass over a tree is a pass over terms: `Term.pass` folds every expression of a term at once. Each
decision is taken on the operands as they were before the pass, and what is kept of them is taken as
it is after the pass, so `contract?` gets every operand in both forms.

`contract?_term` says that this is what `reduct?` decides on the tree.
-/

namespace StackTemplate

/-! ### Scopes -/

/-- What names mean in a module. -/
structure Scope where
  /-- The expression that an item is an alias of. -/
  alias? : String → Option Term
  condition? : String → Option Term
  mapping? : String → Option Term
  declares : String → Bool

namespace Scope

/-- The expression that a reference to a name is replaced by: an alias, but not one of itself. -/
def source? (scope : Scope) (name : String) : Option Term :=
  (scope.alias? name).filter fun e => !e.isRefTo name

/-- Whether an item or pseudo parameter of that name exists. -/
def defines (scope : Scope) (name : String) : Bool := scope.declares name || isPseudoParameter name

/-- The scope with all expressions changed. -/
def map (f : Term → Term) (scope : Scope) : Scope where
  alias? name := (scope.alias? name).map f
  condition? name := (scope.condition? name).map f
  mapping? name := (scope.mapping? name).map f
  declares := scope.declares

end Scope

/-- What names mean in a tree with its directory. -/
def Tree.scope (t : Tree) (directory : Directory) : Scope where
  alias? name := (Fold.declared? t directory Decl.aliasSource? name).map t.term
  condition? name := (Fold.declared? t directory Decl.conditionValue? name).map t.term
  mapping? name := (Fold.declared? t directory Decl.mappingValue? name).map t.term
  declares := directory.contains

namespace Term

open Fold (runs flatten_runs mem_runs singles_sublist length_lt_flatten)

/-! ### Folding one expression -/

/-- An operand before and after a pass. -/
abbrev Operand := Term × Term

/-- Conjunction and disjunction with a known operand. -/
def logic? (dominant : Bool) (lhs rhs : Operand) : Option Term :=
  match lhs.1.bool?, rhs.1.bool? with
  | some l, _ => if l = dominant then some lhs.2 else some rhs.2
  | none, some r => if r = dominant then some rhs.2 else some lhs.2
  | none, none => none

/-- The texts of the literals among some operands with a delimiter between them. -/
def joinText (delimiter : String) (os : List Operand) : String :=
  delimiter.intercalate (os.filterMap fun o => o.1.literal?.map (·.value.toText))

/-- A part of a join: a new literal, or a value that stays. -/
abbrev Part := Literal ⊕ Operand

/-- The term that a part of a join is. -/
def Part.term : Part → Term := Sum.elim .literal Prod.snd

/-- The part that a group of values of a join becomes. -/
def joinPart (delimiter : String) : List Operand → Part
  | [o] => .inr o
  | os => .inl (.string (joinText delimiter os))

/-- Joins with at most one value, or with neighbouring literals. -/
def join? (delimiter : String) (os : List Operand) : Option Term :=
  match os with
  | [] => some (.literal (.string ""))
  | [single] => some single.2
  | _ =>
    if os.all fun o => o.1.literal?.isSome then
      some (.literal (.string (joinText delimiter os)))
    else
      let groups := runs (fun o : Operand => o.1.literal?.isSome) os
      if groups.any fun run => 1 < run.length then
        some (.node (.join delimiter) ((groups.map (joinPart delimiter)).map Part.term))
      else none

theorem join?_of_two {os : List Operand} (delimiter : String) (h : 2 ≤ os.length) :
    join? delimiter os =
      if os.all fun o => o.1.literal?.isSome then
        some (.literal (.string (joinText delimiter os)))
      else if (runs (fun o : Operand => o.1.literal?.isSome) os).any fun run => 1 < run.length then
        some (.node (.join delimiter)
          (((runs (fun o : Operand => o.1.literal?.isSome) os).map (joinPart delimiter)).map
            Part.term))
      else none := by
  match os, h with
  | _ :: _ :: _, _ => rfl

/-- A table with the given names, for questions that depend on the names only. -/
def namesTable (names : List String) : Table NodeId := .ofList (names.map (·, 0))

theorem keys_foldl_insert (names : List String) (table : Table NodeId) (hnodup : names.Nodup)
    (hnew : ∀ name ∈ names, name ∉ table.keys) :
    ((names.map (·, 0)).foldl (fun table e => table.insert e.1 e.2) table).keys =
      table.keys ++ names := by
  induction names generalizing table with
  | nil => simp
  | cons name names ih =>
    obtain ⟨hname, hnodup⟩ := List.nodup_cons.mp hnodup
    have hkeys : (table.insert name 0).keys = table.keys ++ [name] := by
      have hno : name ∉ table.entries.map Prod.fst := hnew name (List.mem_cons_self ..)
      have hinsert := Table.keys_insertEntries name 0 table.entries
      rwa [if_neg hno] at hinsert
    rw [List.map_cons, List.foldl_cons, ih _ hnodup, hkeys, List.append_assoc]
    · rfl
    · intro other hother
      rw [hkeys, List.mem_append, List.mem_singleton]
      rintro (hmem | rfl)
      · exact hnew other (List.mem_cons_of_mem name hother) hmem
      · exact hname hother

theorem keys_namesTable {names : List String} (h : names.Nodup) : (namesTable names).keys = names :=
  keys_foldl_insert names .empty h (by simp [Table.keys, Table.empty])

/-- Interpolated strings with literal parameters, or with nothing to fill in. -/
def sub? (format : String) (names : List String) (os : List Operand) : Option Term :=
  if Format.hasLocalAttribute format (namesTable names) then none
  else
    let inlined := (names.zip os).filterMap fun e =>
      e.2.1.literal?.map fun l => (e.1, Format.escape l.value.toText)
    let remaining := (names.zip os).filter fun e => e.2.1.literal?.isNone
    let inlinedFormat :=
      if inlined.isEmpty then .ok format else Format.replacePlaceholders (inlined.lookup ·) format
    match inlinedFormat with
    | .error _ => none
    | .ok newFormat =>
      let shortened :=
        if inlined.isEmpty then none
        else some (.node (.sub newFormat (remaining.map (·.1))) (remaining.map (·.2.2)))
      if remaining.isEmpty then
        match Format.placeholders newFormat, Format.unescape newFormat with
        | .ok [], .ok text => some (.literal (.string text))
        | .ok _, _ => shortened
        | .error _, _ => none
      else shortened

/-- What an expression is folded into. References to the names in `cyclic` stay. -/
def contract? (scope : Scope) (cyclic : List String) (h : Head) (os : List Operand) :
    Option Term :=
  match h, os with
  | .ref name, _ => if cyclic.contains name then none else scope.source? name
  | .conditionRef name, _ =>
    (scope.condition? name).bind fun value => value.literal?.bind fun l =>
      l.asBool?.map fun _ => .literal l
  | .isDefined name, _ => some (.literal (.bool (scope.defines name) true))
  | .not, [value] =>
    value.1.literal?.bind fun l => l.asBool?.map fun b =>
      .literal (.bool (!b) l.fromExistenceCheck)
  | .equals, [lhs, rhs] =>
    lhs.1.literal?.bind fun l => rhs.1.literal?.map fun r =>
      .literal (.bool (l.value.same r.value) (l.fromExistenceCheck || r.fromExistenceCheck))
  | .and, [lhs, rhs] => logic? false lhs rhs
  | .or, [lhs, rhs] => logic? true lhs rhs
  | .ifElse, [condition, ifTrue, ifFalse] =>
    condition.1.bool?.map fun b => if b then ifTrue.2 else ifFalse.2
  | .join delimiter, os => join? delimiter os
  | .select, index :: values =>
    index.1.literal?.bind fun l => l.value.asIndex?.bind fun i => values[i]?.map (·.2)
  | .split, [delimiter, source] =>
    (delimiter.1.literal?.bind (·.value.asString?)).bind fun d =>
      (source.1.literal?.bind (·.value.asString?)).bind fun s =>
        (Text.splitOn? d s).map fun parts =>
          .node .list (parts.map fun part => .literal (.string part))
  | .findInMap mapName, [topKey, secondKey] =>
    topKey.1.literal?.bind fun top => secondKey.1.literal?.bind fun second =>
      (scope.mapping? mapName).bind fun value =>
        (value.field? top.value.toText).bind fun level =>
          (level.field? second.value.toText).filter isConstant
  | .sub format names, os => sub? format names os
  | _, _ => none

/-- Folds all expressions of a term at once. -/
def pass (scope : Scope) (cyclic : List String) : Term → Term :=
  fold fun h os => (contract? scope cyclic h os).getD (.node h (os.map (·.2)))

theorem pass_node (scope : Scope) (cyclic : List String) (h : Head) (es : List Term) :
    pass scope cyclic (.node h es) =
      (contract? scope cyclic h (es.map fun e => (e, pass scope cyclic e))).getD
        (.node h (es.map (pass scope cyclic))) := by
  rw [pass, fold_node, List.map_map]
  rfl

/-! ### What folding can give -/

/-- The forms that a folded expression can take. -/
inductive Contracts (scope : Scope) (cyclic : List String) (os : List Operand) :
    Head → Term → Prop where
  /-- An operand. -/
  | operand {h : Head} {o : Operand} (active : h.isActive) (mem : o ∈ os) :
    Contracts scope cyclic os h o.2
  /-- The source of a reference. -/
  | source {name : String} {e : Term} (free : name ∉ cyclic)
    (source : scope.source? name = some e) : Contracts scope cyclic os (.ref name) e
  /-- A constant. -/
  | constant {h : Head} {e : Term} (active : h.isActive) (constant : e.isConstant) :
    Contracts scope cyclic os h e
  /-- A shorter join. -/
  | join {delimiter : String} (parts : List Part)
    (kept : (parts.filterMap Sum.getRight?).Sublist os) (shorter : parts.length < os.length) :
    Contracts scope cyclic os (.join delimiter) (.node (.join delimiter) (parts.map Part.term))
  /-- An interpolated string with fewer parameters. -/
  | sub {format format' : String} {names names' : List String} (kept : List Operand)
    (sublist : kept.Sublist os) (shorter : kept.length < os.length) :
    Contracts scope cyclic os (.sub format names) (.node (.sub format' names') (kept.map Prod.snd))

theorem joinPart_one (delimiter : String) (o : Operand) :
    Sum.getRight? (joinPart delimiter [o]) = some o := rfl

theorem joinPart_many (delimiter : String) (run : List Operand) (h : run.length ≠ 1) :
    Sum.getRight? (joinPart delimiter run) = none := by
  match run, h with
  | [], _ => rfl
  | [_], h => exact absurd rfl h
  | _ :: _ :: _, _ => rfl

theorem logic?_operand {dominant : Bool} {lhs rhs : Operand} {e' : Term}
    (h : logic? dominant lhs rhs = some e') : ∃ o ∈ [lhs, rhs], o.2 = e' := by
  unfold logic? at h
  split at h
  · split at h <;> simp_all
  · split at h <;> simp_all
  · cases h

theorem map_snd_zip_sublist {α β : Type} (as : List α) (bs : List β) :
    ((as.zip bs).map Prod.snd).Sublist bs := by
  induction as generalizing bs with
  | nil => exact List.nil_sublist bs
  | cons a as ih =>
    cases bs with
    | nil => exact .slnil
    | cons b bs => exact (ih bs).cons_cons b

theorem sub?_contracts {scope : Scope} {cyclic : List String} {format : String}
    {names : List String} {os : List Operand} {e' : Term} (h : sub? format names os = some e') :
    Contracts scope cyclic os (.sub format names) e' := by
  have hshort : ∀ newFormat, ¬ ((names.zip os).filterMap fun e => e.2.1.literal?.map fun l =>
      (e.1, Format.escape l.value.toText)).isEmpty →
      Contracts scope cyclic os (.sub format names)
        (.node (.sub newFormat (((names.zip os).filter fun e => e.2.1.literal?.isNone).map (·.1)))
          (((names.zip os).filter fun e => e.2.1.literal?.isNone).map (·.2.2))) := by
    intro newFormat hinlined
    -- One parameter at least is a literal, and that one goes.
    have hliteral : ∃ e ∈ names.zip os, ¬ e.2.1.literal?.isNone := by
      rw [List.isEmpty_iff, List.filterMap_eq_nil_iff] at hinlined
      push Not at hinlined
      obtain ⟨e, he, hsome⟩ := hinlined
      refine ⟨e, he, fun hnone => hsome ?_⟩
      rw [Option.isNone_iff_eq_none.mp hnone]
      rfl
    have hsublist := (List.filter_sublist (p := fun e : String × Operand => e.2.1.literal?.isNone)
      (l := names.zip os)).map Prod.snd
    have hshorter := List.length_filter_lt_length_iff_exists.mpr hliteral
    have hlength : (names.zip os).length ≤ os.length := by
      rw [List.length_zip]
      exact Nat.min_le_right _ _
    have hterms : ((names.zip os).filter fun e => e.2.1.literal?.isNone).map (·.2.2) =
        (((names.zip os).filter fun e => e.2.1.literal?.isNone).map Prod.snd).map Prod.snd := by
      rw [List.map_map]
      rfl
    rw [hterms]
    refine .sub _ (hsublist.trans (map_snd_zip_sublist names os)) ?_
    rw [List.length_map]
    exact Nat.lt_of_lt_of_le hshorter hlength
  unfold sub? at h
  simp only at h
  split at h
  · cases h
  split at h
  · cases h
  split at h
  · split at h
    · obtain rfl := Option.some.inj h
      exact .constant rfl (isConstant_literal _)
    · split at h
      · cases h
      · next hinlined =>
        obtain rfl := Option.some.inj h
        exact hshort _ hinlined
    · cases h
  · split at h
    · cases h
    · next hinlined =>
      obtain rfl := Option.some.inj h
      exact hshort _ hinlined

theorem join?_contracts {scope : Scope} {cyclic : List String} {delimiter : String}
    {os : List Operand} {e' : Term} (h : join? delimiter os = some e') :
    Contracts scope cyclic os (.join delimiter) e' := by
  by_cases hlength : 2 ≤ os.length
  · rw [join?_of_two delimiter hlength] at h
    split at h
    · obtain rfl := Option.some.inj h
      exact .constant rfl (isConstant_literal _)
    split at h
    · next hany =>
      obtain rfl := Option.some.inj h
      have hflatten := flatten_runs (fun o : Operand => o.1.literal?.isSome) os
      refine .join _ ?_ ?_
      · have hkept := singles_sublist (joinPart_one delimiter) (joinPart_many delimiter)
          (runs (fun o : Operand => o.1.literal?.isSome) os)
        rwa [hflatten] at hkept
      · have hshorter := length_lt_flatten (fun run hrun => (mem_runs hrun).1)
          (by simpa [List.any_eq_true] using hany)
        rwa [hflatten, ← List.length_map (f := joinPart delimiter)] at hshorter
    · cases h
  · match os, hlength with
    | [], _ =>
      obtain rfl := Option.some.inj h
      exact .constant rfl (isConstant_literal _)
    | [o], _ =>
      obtain rfl := Option.some.inj h
      exact .operand rfl (List.mem_cons_self ..)
    | _ :: _ :: _, hlength => exact absurd (Nat.le_add_left 2 _) hlength

theorem contracts_of_contract? {scope : Scope} {cyclic : List String} {h : Head}
    {os : List Operand} {e' : Term} (hc : contract? scope cyclic h os = some e') :
    Contracts scope cyclic os h e' := by
  -- One case for each equation of folding, in its order.
  unfold contract? at hc
  split at hc
  · split at hc
    · cases hc
    · next hfree => exact .source (by simpa using hfree) hc
  · simp only [Option.bind_eq_some_iff, Option.map_eq_some_iff] at hc
    obtain ⟨value, -, l, -, b, -, rfl⟩ := hc
    exact .constant rfl (isConstant_literal l)
  · obtain rfl := Option.some.inj hc
    exact .constant rfl (isConstant_literal _)
  · simp only [Option.bind_eq_some_iff, Option.map_eq_some_iff] at hc
    obtain ⟨l, -, b, -, rfl⟩ := hc
    exact .constant rfl (isConstant_literal _)
  · simp only [Option.bind_eq_some_iff, Option.map_eq_some_iff] at hc
    obtain ⟨l, -, r, -, rfl⟩ := hc
    exact .constant rfl (isConstant_literal _)
  · obtain ⟨o, ho, rfl⟩ := logic?_operand hc
    exact .operand rfl ho
  · obtain ⟨o, ho, rfl⟩ := logic?_operand hc
    exact .operand rfl ho
  · next condition ifTrue ifFalse =>
    obtain ⟨b, -, rfl⟩ := Option.map_eq_some_iff.mp hc
    cases b with
    | true => exact .operand (o := ifTrue) rfl (by simp)
    | false => exact .operand (o := ifFalse) rfl (by simp)
  · exact join?_contracts hc
  · simp only [Option.bind_eq_some_iff, Option.map_eq_some_iff] at hc
    obtain ⟨l, -, i, -, o, ho, rfl⟩ := hc
    exact .operand rfl (List.mem_cons_of_mem _ (List.mem_of_getElem? ho))
  · simp only [Option.bind_eq_some_iff, Option.map_eq_some_iff] at hc
    obtain ⟨d, -, s, -, parts, -, rfl⟩ := hc
    refine .constant rfl (isConstant_node.mpr ⟨rfl, fun e he => ?_⟩)
    obtain ⟨part, -, rfl⟩ := List.mem_map.mp he
    exact isConstant_literal _
  · simp only [Option.bind_eq_some_iff] at hc
    obtain ⟨top, -, second, -, value, -, level, -, hfound⟩ := hc
    exact .constant rfl (Option.filter_eq_some_iff.mp hfound).2
  · exact sub?_contracts hc
  · cases hc

end Term

namespace Scope

/-- A name without a source does not get one. -/
theorem source?_pass_of_none {scope : Scope} {cyclic : List String} {name : String}
    (h : scope.source? name = none) :
    (scope.map (Term.pass scope cyclic)).source? name = none := by
  unfold source? at h ⊢
  show ((scope.alias? name).map (Term.pass scope cyclic)).filter _ = none
  cases halias : scope.alias? name with
  | none => rfl
  | some e =>
    rw [halias, Option.filter_some] at h
    split at h
    · cases h
    · next hself =>
      rw [Bool.not_eq_true, Bool.not_eq_false'] at hself
      obtain ⟨es, rfl⟩ := Term.eq_of_isRefTo hself
      have hsource : scope.source? name = none := by
        rw [source?, halias, Option.filter_some, hself]
        rfl
      have hcontract : ∀ os, Term.contract? scope cyclic (.ref name) os = none := by
        intro os
        rw [Term.contract?, hsource]
        split <;> rfl
      rw [Option.map_some, Option.filter_some, Term.pass_node, hcontract, Option.getD_none,
        Term.isRefTo]
      simp

/-- Sources are folded with everything else. -/
theorem source?_pass {scope : Scope} {cyclic : List String} {name : String} {e' : Term}
    (h : (scope.map (Term.pass scope cyclic)).source? name = some e') :
    ∃ e, scope.source? name = some e ∧ e' = e.pass scope cyclic := by
  obtain ⟨e, he, rfl⟩ := Option.map_eq_some_iff.mp (Option.filter_eq_some_iff.mp h).1
  cases hsource : scope.source? name with
  | none =>
    rw [source?_pass_of_none hsource] at h
    cases h
  | some e₀ =>
    have halias := (Option.filter_eq_some_iff.mp hsource).1
    rw [he] at halias
    exact ⟨e, halias.symm, rfl⟩

end Scope

namespace Fold

open StackTemplate.Tree

variable {t : Tree} {directory : Directory} {cyclic : List String} {x : NodeId} {e : Expr}

/-! ### The same decisions on trees and terms -/

/-- Only the names of the parameters decide whether a placeholder asks for an attribute of one. -/
theorem hasLocalAttribute_congr (format : String) {parameters parameters' : Table NodeId}
    (h : parameters.keys = parameters'.keys) :
    Format.hasLocalAttribute format parameters = Format.hasLocalAttribute format parameters' := by
  have howner : Format.localOwner? parameters = Format.localOwner? parameters' := by
    funext name
    unfold Format.localOwner? Table.contains
    rw [h]
  rw [Format.hasLocalAttribute, Format.hasLocalAttribute, howner]

theorem join?_of_two (t : Tree) {values : List NodeId} (delimiter : String)
    (h : 2 ≤ values.length) :
    join? t delimiter values =
      if values.all fun id => (t.literal? id).isSome then
        some (.constant (.string (joinText t delimiter values)))
      else if (literalRuns t values).any fun run => 1 < run.length then
        some (.joined delimiter ((literalRuns t values).map (JoinPart.ofRun t delimiter)))
      else none := by
  match values, h with
  | _ :: _ :: _, _ => rfl

theorem isLiteralWithin_eq {depth : Nat} (hx : Within t.children t.size depth x)
    (hexpr : ∀ z, t.Reaches x z → (t.expr? z).isSome) :
    isLiteralWithin t depth x = (t.termWithin depth x).isConstant := by
  induction depth generalizing x with
  | zero => exact hx.elim
  | succ depth ih =>
    obtain ⟨e, he⟩ := Option.isSome_iff_exists.mp (hexpr x .refl)
    have hchild : ∀ c ∈ e.children,
        isLiteralWithin t depth c = (t.termWithin depth c).isConstant := by
      intro c hc
      rw [← children_of_expr? he] at hc
      exact ih (hx.2 c hc) fun z hz => hexpr z ((Reaches.refl.tail hc).trans hz)
    have hall : e.children.all (isLiteralWithin t depth) =
        (e.children.map (t.termWithin depth)).all Term.isConstant := by
      rw [List.all_map, Bool.eq_iff_iff, List.all_eq_true, List.all_eq_true]
      exact forall₂_congr fun c hc => by rw [hchild c hc, Function.comp]
    rw [isLiteralWithin, termWithin, he, Term.isConstant, Term.fold_node, ← Term.isConstant]
    cases e with
    | list items => simpa [Expr.head, Expr.children, Head.isData, Function.comp_def] using hall
    | object fields => simpa [Expr.head, Expr.children, Head.isData, Function.comp_def] using hall
    | _ => rfl

theorem field?_term (hx : t.Grounded x) (key : String) :
    (t.term x).field? key = (objectField? t x key).map t.term := by
  rw [objectField?]
  cases he : t.expr? x with
  | none =>
    rw [Tree.term]
    cases t.size with
    | zero => rfl
    | succ n =>
      rw [termWithin, he]
      rfl
  | some e =>
    rw [term_eq hx he]
    cases e with
    | object fields =>
      have hentries : fields.keys.zip fields.values = fields.entries := by
        rw [Table.keys, Table.values, List.zip_map']
        exact List.map_id _
      show (fields.keys.zip (fields.values.map t.term)).lookup key = _
      rw [Term.lookup_zip_map, hentries]
      rfl
    | _ => rfl

/-- What a reference is replaced by, on trees and on terms. -/
theorem source?_scope (t : Tree) (directory : Directory) (name : String) :
    (t.scope directory).source? name = (substitutionSource? t directory name).map t.term := by
  rw [substitutionSource?_eq]
  show ((declared? t directory Decl.aliasSource? name).map t.term).filter _ = _
  cases hd : declared? t directory Decl.aliasSource? name with
  | none => rfl
  | some source =>
    simp only [Option.map_some, Option.bind_some, Option.filter_some, isRefTo_term]
    by_cases hself : t.expr? source = some (.ref name) <;> simp [hself]

/-- What a part of a join is after a pass. -/
def JoinPart.term (new : NodeId → Term) : JoinPart → Term
  | .kept id => new id
  | .merged text _ => .literal (.string text)

/-- What takes the place of an expression, as a term. Nodes that stay are read by `new`. -/
def Reduct.term (t : Tree) (new : NodeId → Term) : Reduct → Term
  | .existing id => new id
  | .copied id => t.term id
  | .constant l => .literal l
  | .strings parts => .node .list (parts.map fun part => .literal (.string part))
  | .joined delimiter parts => .node (.join delimiter) (parts.map (JoinPart.term new))
  | .interpolated format parameters =>
    .node (.sub format parameters.keys) (parameters.values.map new)

section Operands

variable (t) (new : NodeId → Term)

theorem joinText_term (delimiter : String) (ids : List NodeId) :
    Term.joinText delimiter (ids.map fun id => (t.term id, new id)) = joinText t delimiter ids := by
  simp only [Term.joinText, joinText, List.filterMap_map, Function.comp_def, literal?_term]

theorem joinPart_term (delimiter : String) (run : List NodeId) :
    (Term.joinPart delimiter (run.map fun id => (t.term id, new id))).term =
      (JoinPart.ofRun t delimiter run).term new := by
  match run with
  | [] => rfl
  | [id] => rfl
  | id :: next :: rest =>
    have := joinText_term t new delimiter (id :: next :: rest)
    simp only [List.map_cons] at this
    simp only [List.map_cons, Term.joinPart, JoinPart.ofRun, JoinPart.term, this]
    rfl

theorem join?_term (delimiter : String) (values : List NodeId) :
    Term.join? delimiter (values.map fun id => (t.term id, new id)) =
      (join? t delimiter values).map (Reduct.term t new) := by
  by_cases hlength : 2 ≤ values.length
  · have htext := joinText_term t new delimiter values
    have hall : (values.map fun id => (t.term id, new id)).all (fun o => o.1.literal?.isSome) =
        values.all fun id => (t.literal? id).isSome := by
      simp only [List.all_map, Function.comp_def, literal?_term]
    have hruns : runs (fun o : Term.Operand => o.1.literal?.isSome)
        (values.map fun id => (t.term id, new id)) =
        (literalRuns t values).map (List.map fun id => (t.term id, new id)) := by
      simp only [runs_map, literal?_term, literalRuns_eq]
    have hparts : (((literalRuns t values).map (List.map fun id => (t.term id, new id))).map
        (Term.joinPart delimiter)).map Term.Part.term =
        ((literalRuns t values).map (JoinPart.ofRun t delimiter)).map (JoinPart.term new) := by
      simp only [List.map_map]
      exact List.map_congr_left fun run _ => joinPart_term t new delimiter run
    have hany : ((literalRuns t values).map (List.map fun id => (t.term id, new id))).any
        (fun run => 1 < run.length) = (literalRuns t values).any fun run => 1 < run.length := by
      simp only [List.any_map, Function.comp_def, List.length_map]
    rw [Term.join?_of_two delimiter (by rwa [List.length_map]), join?_of_two t delimiter hlength,
      hall, htext, hruns, hany, hparts]
    split
    · rfl
    · split <;> rfl
  · match values, hlength with
    | [], _ => rfl
    | [single], _ => rfl
    | _ :: _ :: _, hlength => exact absurd (Nat.le_add_left 2 _) hlength

theorem zip_operands (parameters : Table NodeId) :
    parameters.keys.zip (parameters.values.map fun id => (t.term id, new id)) =
      parameters.entries.map fun e => (e.1, t.term e.2, new e.2) := by
  rw [Table.keys, Table.values, List.map_map, List.zip_map']
  rfl

theorem sub?_term (format : String) (parameters : Table NodeId) :
    Term.sub? format parameters.keys (parameters.values.map fun id => (t.term id, new id)) =
      (sub? t format parameters).map (Reduct.term t new) := by
  have hlocal : Format.hasLocalAttribute format (Term.namesTable parameters.keys) =
      Format.hasLocalAttribute format parameters :=
    hasLocalAttribute_congr format (Term.keys_namesTable parameters.nodup)
  -- Both sides split the parameters in the same way: the literal ones into texts, the others are
  -- left.
  have hinlined : (parameters.keys.zip
      (parameters.values.map fun id => (t.term id, new id))).filterMap (fun e =>
        e.2.1.literal?.map fun l => (e.1, Format.escape l.value.toText)) =
      literalTexts t parameters := by
    rw [zip_operands, List.filterMap_map, literalTexts]
    simp only [Function.comp_def, literal?_term]
  have hremaining : (parameters.keys.zip
      (parameters.values.map fun id => (t.term id, new id))).filter
        (fun e => e.2.1.literal?.isNone) =
      (parameters.filter fun _ id => (t.literal? id).isNone).entries.map
        fun e => (e.1, t.term e.2, new e.2) := by
    rw [zip_operands, List.filter_map]
    simp only [Function.comp_def, literal?_term]
    rfl
  have hshort : ∀ newFormat, Term.node (.sub newFormat
      (((parameters.filter fun _ id => (t.literal? id).isNone).entries.map
        fun e => (e.1, t.term e.2, new e.2)).map fun e => e.1))
      (((parameters.filter fun _ id => (t.literal? id).isNone).entries.map
        fun e => (e.1, t.term e.2, new e.2)).map fun e => e.2.2) =
      Reduct.term t new (.interpolated newFormat
        (parameters.filter fun _ id => (t.literal? id).isNone)) := by
    intro newFormat
    simp only [List.map_map, Function.comp_def, Reduct.term, Table.keys, Table.values]
  rw [Term.sub?, sub?, hlocal]
  simp only [hinlined, hremaining, List.isEmpty_map, hshort]
  by_cases hattribute : Format.hasLocalAttribute format parameters
  · rw [if_pos hattribute, if_pos hattribute]
    rfl
  rw [if_neg hattribute, if_neg hattribute]
  cases (if (literalTexts t parameters).isEmpty = true then Except.ok format
    else Format.replacePlaceholders (fun x => (literalTexts t parameters).lookup x) format) with
  | error malformed => rfl
  | ok newFormat =>
    -- Without parameters left the answer may be a plain text, if the format can be unescaped.
    show (if (parameters.filter fun _ id => (t.literal? id).isNone).isEmpty then _ else _) = _
    by_cases hempty : (parameters.filter fun _ id => (t.literal? id).isNone).isEmpty
    · simp only [if_pos hempty]
      by_cases hnone : (literalTexts t parameters).isEmpty
      · simp only [if_pos hnone]
        rcases Format.placeholders newFormat with malformed | _ | ⟨name, names⟩ <;>
          cases Format.unescape newFormat <;> rfl
      · simp only [if_neg hnone]
        rcases Format.placeholders newFormat with malformed | _ | ⟨name, names⟩ <;>
          cases Format.unescape newFormat <;> rfl
    · simp only [if_neg hempty]
      split <;> rfl

end Operands

theorem logic?_term (new : NodeId → Term) (dominant : Bool) (lhs rhs : NodeId) :
    Term.logic? dominant (t.term lhs, new lhs) (t.term rhs, new rhs) =
      (logic? t dominant lhs rhs).map new := by
  simp only [Term.logic?, logic?, bool?_term]
  cases t.bool? lhs with
  | none =>
    cases t.bool? rhs with
    | none => rfl
    | some r => simp only; split <;> rfl
  | some l => simp only; split <;> rfl

/-- The look-up in a mapping, on trees and on terms. -/
theorem findInMap?_term (hwf : t.WellFormed) (hbound : Bound t directory) (mapName : String)
    (topKey secondKey : NodeId) :
    ((t.literal? topKey).bind fun top => (t.literal? secondKey).bind fun second =>
      ((t.scope directory).mapping? mapName).bind fun value =>
        (value.field? top.value.toText).bind fun level =>
          (level.field? second.value.toText).filter Term.isConstant) =
      (findInMap? t directory mapName topKey secondKey).map t.term := by
  rw [findInMap?_eq]
  cases t.literal? topKey with
  | none => rfl
  | some top =>
    cases t.literal? secondKey with
    | none => rfl
    | some second =>
      show ((declared? t directory Decl.mappingValue? mapName).map t.term).bind _ = _
      cases hvalue : declared? t directory Decl.mappingValue? mapName with
      | none => rfl
      | some value =>
        obtain ⟨hreach, hexpr⟩ := expr_of_declared? hwf hbound isField_mappingValue? hvalue
        have hgrounded := hwf.grounded_of_reaches hreach
        simp only [Option.map_some, Option.bind_some, field?_term hgrounded]
        cases hlevel : objectField? t value top.value.toText with
        | none => rfl
        | some level =>
          have hlevel' := hgrounded.child (objectField?_mem hlevel)
          simp only [Option.map_some, Option.bind_some, field?_term hlevel']
          cases hfound : objectField? t level second.value.toText with
          | none => rfl
          | some found =>
            have hbelow : t.Reaches value found :=
              (Reaches.refl.tail (objectField?_mem hlevel)).tail (objectField?_mem hfound)
            -- What is found is below a declared mapping, so it ends and holds expressions only.
            have hconstant : isLiteralTree t found = (t.term found).isConstant :=
              isLiteralWithin_eq (within_of_grounded (hgrounded.descend hbelow)) fun z hz =>
                hwf.expr_of_reaches hreach hexpr (hbelow.trans hz)
            simp only [Option.map_some, Option.bind_some, Option.filter_some, hconstant]
            split <;> rfl

/-- Folding decides the same on trees and on terms. -/
theorem contract?_term (hwf : t.WellFormed) (hbound : Bound t directory) (cyclic : List String)
    (new : NodeId → Term) (e : Expr) :
    Term.contract? (t.scope directory) cyclic e.head
        (e.children.map fun id => (t.term id, new id)) =
      (reduct? t directory cyclic e).map (Reduct.term t new) := by
  cases e with
  | literal l | getAtt name attributeName | base64 value | importValue value | list items
  | object fields => rfl
  | ref name =>
    simp only [Expr.head, Term.contract?, reduct?, source?_scope]
    split
    · rfl
    · rw [Option.map_map]
      rfl
  | conditionRef name =>
    rw [reduct?_conditionRef]
    show ((declared? t directory Decl.conditionValue? name).map t.term).bind _ = _
    -- The value is no operand: its own term is that of the constant that the tree has there.
    cases hvalue : declared? t directory Decl.conditionValue? name with
    | none => rfl
    | some value =>
      simp only [Option.map_some, literal?_term, Option.bind_some, Tree.bool?]
      cases hl : t.literal? value with
      | none => rfl
      | some l =>
        have hreach := (expr_of_declared? hwf hbound isField_conditionValue? hvalue).1
        have hterm := term_of_literal? (hwf.grounded_of_reaches hreach) hl
        rw [Option.bind_some, Option.bind_some]
        cases l.asBool? with
        | none => rfl
        | some b =>
          rw [Option.map_some, Option.map_some, Option.map_some, Reduct.term, hterm]
  | isDefined name => rfl
  | not value =>
    simp only [Expr.head, Expr.children, List.map_cons, List.map_nil, Term.contract?, reduct?,
      literal?_term]
    cases t.literal? value with
    | none => rfl
    | some l =>
      show (l.asBool?.map _) = (l.asBool?.bind _).map _
      cases l.asBool? <;> rfl
  | equals lhs rhs =>
    simp only [Expr.head, Expr.children, List.map_cons, List.map_nil, Term.contract?, reduct?,
      literal?_term]
    cases t.literal? lhs with
    | none => rfl
    | some l => cases t.literal? rhs <;> rfl
  | and lhs rhs | or lhs rhs =>
    simp only [Expr.head, Expr.children, List.map_cons, List.map_nil, Term.contract?, reduct?,
      logic?_term, Option.map_map]
    rfl
  | ifElse condition ifTrue ifFalse =>
    simp only [Expr.head, Expr.children, List.map_cons, List.map_nil, Term.contract?, reduct?,
      bool?_term]
    rcases t.bool? condition with _ | _ | _ <;> rfl
  | join delimiter values => exact join?_term t new delimiter values
  | select index values =>
    simp only [Expr.head, Expr.children, List.map_cons, Term.contract?, reduct?, literal?_term,
      List.getElem?_map]
    cases t.literal? index with
    | none => rfl
    | some l =>
      show l.value.asIndex?.bind _ = (l.value.asIndex?.bind _).map _
      cases l.value.asIndex? with
      | none => rfl
      | some i =>
        show (values[i]?.map _).map _ = (values[i]?.map _).map _
        cases values[i]? <;> rfl
  | split delimiter source =>
    simp only [Expr.head, Expr.children, List.map_cons, List.map_nil, Term.contract?, reduct?,
      literal?_term]
    cases (t.literal? delimiter).bind (·.value.asString?) with
    | none => rfl
    | some d =>
      cases (t.literal? source).bind (·.value.asString?) with
      | none => rfl
      | some s =>
        show (Text.splitOn? d s).map _ = ((Text.splitOn? d s).map _).map _
        cases Text.splitOn? d s <;> rfl
  | findInMap mapName topKey secondKey =>
    simp only [Expr.head, Expr.children, List.map_cons, List.map_nil, Term.contract?, reduct?,
      literal?_term, findInMap?_term hwf hbound, Option.map_map]
    rfl
  | sub format parameters => exact sub?_term t new format parameters

end Fold

end StackTemplate
