import StackTemplate.Proofs.Fold.Contraction

/-!
# What expressions mean

`Evaluates ρ scope e path v` says that the expression `e` has, at the field path `path` of its
value, the value `v`; with the empty path, that `v` is its value. Look-ups in mappings go down such
a path and do not ask for the rest of the mapping, and neither does a choice between operands ask
for those that are not chosen.

What a template cannot know is left to an interpretation `ρ`: references without a substitution
source, attributes, conditions that are not declared, encoding and imports. Interpolated strings
have no rule here.

`Evaluates.keep` is the main result: folding a term, in the folded scope, keeps its value.
-/

namespace StackTemplate

/-- What an expression can evaluate to. -/
inductive Datum where
  | scalar (v : Value)
  | list (items : List Datum)
  | object (fields : List (String × Datum))

/-- The part of a value at a path of field names. -/
def Datum.at? : List String → Datum → Option Datum
  | [], d => some d
  | key :: path, .object fields => (fields.lookup key).bind (at? path)
  | _ :: _, _ => none

/-- A truth value. -/
abbrev Datum.bool (b : Bool) : Datum := .scalar (.bool b)

/-- A string. -/
abbrev Datum.string (s : String) : Datum := .scalar (.string s)

/-- What is not known to a template. -/
structure Interpretation where
  ref : String → Option Datum
  getAtt : String → String → Option Datum
  condition : String → Option Datum
  base64 : Datum → Option Datum
  importValue : Datum → Option Datum

/-- The truth value that decides a conjunction or disjunction on its own. -/
def Head.dominant? : Head → Option Bool
  | .and => some false
  | .or => some true
  | _ => none

/-- The value of an expression at a path. -/
inductive Evaluates (ρ : Interpretation) (scope : Scope) :
    Term → List String → Datum → Prop where
  | literal {l : Literal} {es : List Term} :
    Evaluates ρ scope (.node (.literal l) es) [] (.scalar l.value)
  /-- A reference with a substitution source evaluates as that source. -/
  | source {name : String} {es : List Term} {e : Term} {path : List String} {v : Datum}
    (source : scope.source? name = some e) (value : Evaluates ρ scope e path v) :
    Evaluates ρ scope (.node (.ref name) es) path v
  | ref {name : String} {es : List Term} {d v : Datum} {path : List String}
    (none : scope.source? name = none) (known : ρ.ref name = some d)
    (part : d.at? path = some v) : Evaluates ρ scope (.node (.ref name) es) path v
  | getAtt {name attributeName : String} {es : List Term} {d v : Datum} {path : List String}
    (known : ρ.getAtt name attributeName = some d) (part : d.at? path = some v) :
    Evaluates ρ scope (.node (.getAtt name attributeName) es) path v
  /-- A declared condition has its declared value. -/
  | condition {name : String} {es : List Term} {e : Term} {path : List String} {v : Datum}
    (declared : scope.condition? name = some e) (value : Evaluates ρ scope e path v) :
    Evaluates ρ scope (.node (.conditionRef name) es) path v
  | undeclared {name : String} {es : List Term} {d v : Datum} {path : List String}
    (none : scope.condition? name = none) (known : ρ.condition name = some d)
    (part : d.at? path = some v) : Evaluates ρ scope (.node (.conditionRef name) es) path v
  | isDefined {name : String} {es : List Term} :
    Evaluates ρ scope (.node (.isDefined name) es) [] (.bool (scope.defines name))
  /-- Only the branch that the condition selects is evaluated. -/
  | ifElse {condition ifTrue ifFalse : Term} {b : Bool} {path : List String} {v : Datum}
    (decides : Evaluates ρ scope condition [] (.bool b))
    (value : Evaluates ρ scope (if b then ifTrue else ifFalse) path v) :
    Evaluates ρ scope (.node .ifElse [condition, ifTrue, ifFalse]) path v
  /-- Either operand of a conjunction or disjunction can decide it. -/
  | left {h : Head} {lhs rhs : Term} {b : Bool} (dominant : h.dominant? = some b)
    (decides : Evaluates ρ scope lhs [] (.bool b)) :
    Evaluates ρ scope (.node h [lhs, rhs]) [] (.bool b)
  | right {h : Head} {lhs rhs : Term} {b : Bool} (dominant : h.dominant? = some b)
    (decides : Evaluates ρ scope rhs [] (.bool b)) :
    Evaluates ρ scope (.node h [lhs, rhs]) [] (.bool b)
  | neutral {h : Head} {lhs rhs : Term} {b : Bool} (dominant : h.dominant? = some b)
    (left : Evaluates ρ scope lhs [] (.bool (!b)))
    (right : Evaluates ρ scope rhs [] (.bool (!b))) :
    Evaluates ρ scope (.node h [lhs, rhs]) [] (.bool (!b))
  | not {value : Term} {b : Bool} (decides : Evaluates ρ scope value [] (.bool b)) :
    Evaluates ρ scope (.node .not [value]) [] (.bool (!b))
  /-- A comparison is typed, and of scalars. -/
  | equals {lhs rhs : Term} {a b : Value} (left : Evaluates ρ scope lhs [] (.scalar a))
    (right : Evaluates ρ scope rhs [] (.scalar b)) :
    Evaluates ρ scope (.node .equals [lhs, rhs]) [] (.bool (a.same b))
  | joinNone {delimiter : String} :
    Evaluates ρ scope (.node (.join delimiter) []) [] (.string "")
  | joinOne {delimiter : String} {e : Term} {path : List String} {v : Datum}
    (value : Evaluates ρ scope e path v) :
    Evaluates ρ scope (.node (.join delimiter) [e]) path v
  | join {delimiter : String} {es : List Term} {vs : List Value} (several : 2 ≤ es.length)
    (length : vs.length = es.length)
    (values : ∀ pair ∈ es.zip vs, Evaluates ρ scope pair.1 [] (.scalar pair.2)) :
    Evaluates ρ scope (.node (.join delimiter) es) []
      (.string (delimiter.intercalate (vs.map Value.toText)))
  /-- Only the selected value is evaluated. -/
  | select {index e : Term} {es : List Term} {i : Value} {n : Nat} {path : List String}
    {v : Datum} (decides : Evaluates ρ scope index [] (.scalar i)) (number : i.asIndex? = some n)
    (selected : es[n]? = some e) (value : Evaluates ρ scope e path v) :
    Evaluates ρ scope (.node .select (index :: es)) path v
  | split {delimiter source : Term} {d s : String} {parts : List String}
    (left : Evaluates ρ scope delimiter [] (.string d))
    (right : Evaluates ρ scope source [] (.string s))
    (pieces : Text.splitOn? d s = some parts) :
    Evaluates ρ scope (.node .split [delimiter, source]) [] (.list (parts.map .string))
  /-- A mapping is read at the texts of two keys. -/
  | findInMap {mapName : String} {topKey secondKey e : Term} {a b : Value} {path : List String}
    {v : Datum} (top : Evaluates ρ scope topKey [] (.scalar a))
    (second : Evaluates ρ scope secondKey [] (.scalar b))
    (declared : scope.mapping? mapName = some e)
    (value : Evaluates ρ scope e (a.toText :: b.toText :: path) v) :
    Evaluates ρ scope (.node (.findInMap mapName) [topKey, secondKey]) path v
  | base64 {e : Term} {d d' v : Datum} {path : List String} (value : Evaluates ρ scope e [] d)
    (known : ρ.base64 d = some d') (part : d'.at? path = some v) :
    Evaluates ρ scope (.node .base64 [e]) path v
  | importValue {e : Term} {d d' v : Datum} {path : List String}
    (value : Evaluates ρ scope e [] d) (known : ρ.importValue d = some d')
    (part : d'.at? path = some v) : Evaluates ρ scope (.node .importValue [e]) path v
  | list {es : List Term} {vs : List Datum} (length : vs.length = es.length)
    (values : ∀ pair ∈ es.zip vs, Evaluates ρ scope pair.1 [] pair.2) :
    Evaluates ρ scope (.node .list es) [] (.list vs)
  | object {names : List String} {es : List Term} {vs : List Datum}
    (length : vs.length = es.length)
    (values : ∀ pair ∈ es.zip vs, Evaluates ρ scope pair.1 [] pair.2) :
    Evaluates ρ scope (.node (.object names) es) [] (.object (names.zip vs))
  | field {names : List String} {es : List Term} {key : String} {e : Term} {path : List String}
    {v : Datum} (found : (names.zip es).lookup key = some e)
    (value : Evaluates ρ scope e path v) :
    Evaluates ρ scope (.node (.object names) es) (key :: path) v

namespace Evaluates

variable {ρ : Interpretation} {scope : Scope} {e : Term} {path : List String} {v : Datum}

/-! ### What evaluation says about constants and fields -/

/-- A literal evaluates to itself. -/
theorem literal_inv {l : Literal} (h : Evaluates ρ scope e path v) (hl : e.literal? = some l) :
    path = [] ∧ v = .scalar l.value := by
  obtain ⟨es, rfl⟩ := Term.eq_of_literal? hl
  cases h with
  | literal => exact ⟨rfl, rfl⟩
  | left dominant | right dominant | neutral dominant => cases dominant

/-- A known truth value is the one that a literal evaluates to. -/
theorem bool_inv {b b' : Bool} (h : Evaluates ρ scope e [] (.bool b)) (hb : e.bool? = some b') :
    b' = b := by
  obtain ⟨l, hl, hl'⟩ := Option.bind_eq_some_iff.mp hb
  have hvalue := Datum.scalar.inj (h.literal_inv hl).2
  rw [Literal.asBool?, ← hvalue] at hl'
  exact (Option.some.inj hl').symm

theorem string_inv {s s' : String} (h : Evaluates ρ scope e [] (.string s))
    (hs : e.literal?.bind (·.value.asString?) = some s') : s' = s := by
  obtain ⟨l, hl, hl'⟩ := Option.bind_eq_some_iff.mp hs
  have hvalue := Datum.scalar.inj (h.literal_inv hl).2
  rw [← hvalue] at hl'
  exact (Option.some.inj hl').symm

/-- What an object has at a path is what its field has. -/
theorem field_inv {key : String} {e' : Term} (h : Evaluates ρ scope e (key :: path) v)
    (hfield : e.field? key = some e') : Evaluates ρ scope e' path v := by
  obtain ⟨head, es⟩ := e
  cases head with
  | object names =>
    cases h with
    | field found value =>
      have heq : some _ = some e' := found.symm.trans hfield
      rwa [← Option.some.inj heq]
  | _ => cases hfield

/-! ### Folding a scope -/

section Pass

variable {cyclic : List String}

theorem pass_literal {l : Literal} (hl : e.literal? = some l) :
    (e.pass scope cyclic).literal? = some l := by
  obtain ⟨es, rfl⟩ := Term.eq_of_literal? hl
  rw [Term.pass_node]
  rfl

theorem evaluates_bool {b : Bool} (hb : e.bool? = some b) : Evaluates ρ scope e [] (.bool b) := by
  obtain ⟨l, hl, hl'⟩ := Option.bind_eq_some_iff.mp hb
  obtain ⟨es, rfl⟩ := Term.eq_of_literal? hl
  have hvalue : l.value = .bool b := by
    unfold Literal.asBool? Value.asBool? at hl'
    split at hl'
    · next b' heq => rw [heq, Option.some.inj hl']
    · cases hl'
  have h : Evaluates ρ scope (.node (.literal l) es) [] (.scalar l.value) := .literal
  rwa [hvalue] at h

/-! ### Joins -/

theorem intercalate_flatten (delimiter : String) {groups : List (List String)}
    (h : ∀ group ∈ groups, group ≠ []) :
    delimiter.intercalate (groups.map delimiter.intercalate) =
      delimiter.intercalate groups.flatten := by
  induction groups with
  | nil => rfl
  | cons group groups ih =>
    have hrest := ih fun other hother => h other (List.mem_cons_of_mem group hother)
    cases groups with
    | nil => simp
    | cons next groups =>
      have hgroup := h group (List.mem_cons_self ..)
      have hflatten : (next :: groups).flatten ≠ [] := by
        rw [List.flatten_cons]
        exact List.append_ne_nil_of_left_ne_nil
          (h next (List.mem_cons_of_mem group (List.mem_cons_self ..))) _
      rw [List.map_cons, List.flatten_cons, String.intercalate_append_of_ne_nil hgroup hflatten,
        String.intercalate_cons_of_ne_nil (by simp), hrest]

/-- The texts of literal operands are the texts of their values. -/
theorem joinText_eq (delimiter : String) (new : Term → Term) {zs : List (Term × Value)}
    (hvalues : ∀ z ∈ zs, Evaluates ρ scope z.1 [] (.scalar z.2))
    (hliterals : ∀ z ∈ zs, z.1.literal?.isSome) :
    Term.joinText delimiter (zs.map fun z => (z.1, new z.1)) =
      delimiter.intercalate (zs.map fun z => z.2.toText) := by
  rw [Term.joinText, List.filterMap_map]
  congr 1
  induction zs with
  | nil => rfl
  | cons z zs ih =>
    obtain ⟨l, hl⟩ := Option.isSome_iff_exists.mp (hliterals z (List.mem_cons_self ..))
    have hvalue := Datum.scalar.inj ((hvalues z (List.mem_cons_self ..)).literal_inv hl).2
    rw [List.filterMap_cons_some (b := z.2.toText), List.map_cons,
      ih (fun w hw => hvalues w (List.mem_cons_of_mem z hw))
        fun w hw => hliterals w (List.mem_cons_of_mem z hw)]
    simp only [Function.comp, hl, Option.map_some, hvalue]

/-- The value of a group of values of a join. -/
def groupValue (delimiter : String) : List (Term × Value) → Value
  | [z] => z.2
  | zs => .string (delimiter.intercalate (zs.map fun z => z.2.toText))

theorem toText_groupValue (delimiter : String) (zs : List (Term × Value)) :
    (groupValue delimiter zs).toText = delimiter.intercalate (zs.map fun z => z.2.toText) := by
  match zs with
  | [] => rfl
  | [z] => exact String.intercalate_singleton.symm
  | _ :: _ :: _ => rfl

/-- Merging neighbouring literals keeps the value of a join. -/
theorem join_contract {scope' : Scope} {delimiter : String} {zs : List (Term × Value)}
    {new : Term → Term} {e' : Term} (hseveral : 2 ≤ zs.length)
    (hold : ∀ z ∈ zs, Evaluates ρ scope z.1 [] (.scalar z.2))
    (hnew : ∀ z ∈ zs, Evaluates ρ scope' (new z.1) [] (.scalar z.2))
    (h : Term.join? delimiter (zs.map fun z => (z.1, new z.1)) = some e') :
    Evaluates ρ scope' e' [] (.string (delimiter.intercalate (zs.map fun z => z.2.toText))) := by
  rw [Term.join?_of_two delimiter (by rwa [List.length_map])] at h
  split at h
  · next hall =>
    obtain rfl := Option.some.inj h
    have hliterals : ∀ z ∈ zs, z.1.literal?.isSome := by
      simpa [List.all_eq_true] using hall
    rw [joinText_eq delimiter new hold hliterals]
    exact .literal
  next hall =>
  split at h
  · obtain rfl := Option.some.inj h
    have hruns : Fold.runs (fun o : Term.Operand => o.1.literal?.isSome)
        (zs.map fun z => (z.1, new z.1)) =
        (Fold.runs (fun z : Term × Value => z.1.literal?.isSome) zs).map
          (List.map fun z => (z.1, new z.1)) := Fold.runs_map _ _ _
    have hflatten := Fold.flatten_runs (fun z : Term × Value => z.1.literal?.isSome) zs
    have hgroup : ∀ run ∈ Fold.runs (fun z : Term × Value => z.1.literal?.isSome) zs,
        run ≠ [] ∧ (2 ≤ run.length → ∀ z ∈ run, z.1.literal?.isSome) :=
      fun run hrun => Fold.mem_runs hrun
    generalize Fold.runs (fun z : Term × Value => z.1.literal?.isSome) zs = groups
      at hruns hflatten hgroup
    rw [hruns, List.map_map, List.map_map]
    -- With one group only, all values would be literals.
    have hlength : 2 ≤ groups.length := by
      match groups, hflatten, hgroup with
      | [], hflatten, _ =>
        rw [← hflatten] at hseveral
        cases hseveral
      | [run], hflatten, hgroup =>
        rw [List.flatten_cons, List.flatten_nil, List.append_nil] at hflatten
        have := (hgroup run (List.mem_cons_self ..)).2 (hflatten ▸ hseveral)
        rw [hflatten] at this
        exact absurd (by simpa [List.all_eq_true] using this) hall
      | _ :: _ :: _, _, _ => exact Nat.le_add_left 2 _
    have hmem : ∀ run ∈ groups, ∀ z ∈ run, z ∈ zs := fun run hrun z hz =>
      hflatten ▸ List.mem_flatten.mpr ⟨run, hrun, hz⟩
    have htext : delimiter.intercalate
        ((groups.map (groupValue delimiter)).map Value.toText) =
        delimiter.intercalate (zs.map fun z => z.2.toText) := by
      rw [← hflatten, List.map_flatten, ← intercalate_flatten, List.map_map, List.map_map]
      · congr 1
        exact List.map_congr_left fun run _ => toText_groupValue delimiter run
      · intro texts htexts
        obtain ⟨run, hrun, rfl⟩ := List.mem_map.mp htexts
        simpa using (hgroup run hrun).1
    rw [← htext]
    refine .join (by simpa using hlength) (by simp) fun pair hpair => ?_
    rw [List.zip_map'] at hpair
    obtain ⟨run, hrun, rfl⟩ := List.mem_map.mp hpair
    match run, hgroup run hrun, hmem run hrun with
    | [z], _, hz => exact hnew z (hz z (List.mem_cons_self ..))
    | [], hne, _ => exact absurd rfl hne.1
    | z :: w :: run, hliterals, hz =>
      have hjoin := joinText_eq delimiter new (fun z' hz' => hold z' (hz z' hz'))
        (hliterals.2 (Nat.le_add_left 2 _))
      show Evaluates ρ scope' (.literal (.string _)) [] (.string _)
      rw [← hjoin]
      exact .literal
  · cases h

/-! ### Folding keeps values -/

theorem forall_zip_map {α β γ : Type} {f : α → β} {as : List α} {cs : List γ}
    {P : β × γ → Prop} (h : ∀ pair ∈ as.zip cs, P (f pair.1, pair.2)) :
    ∀ pair ∈ (as.map f).zip cs, P pair := by
  intro pair hpair
  rw [List.zip_map_left] at hpair
  obtain ⟨pair', hpair', rfl⟩ := List.mem_map.mp hpair
  exact h pair' hpair'

/-- The three ways to decide a conjunction or disjunction: by one operand that is the dominant
truth value, or by both if none of them is. -/
def Decides (ρ : Interpretation) (scope : Scope) (dominant b : Bool) (lhs rhs : Term) : Prop :=
  b = dominant ∧ (Evaluates ρ scope lhs [] (.bool b) ∨ Evaluates ρ scope rhs [] (.bool b)) ∨
    b = !dominant ∧ Evaluates ρ scope lhs [] (.bool b) ∧ Evaluates ρ scope rhs [] (.bool b)

theorem Decides.evaluates {h : Head} {dominant b : Bool} {lhs rhs : Term}
    (hd : Decides ρ scope dominant b lhs rhs) (hh : h.dominant? = some dominant) :
    Evaluates ρ scope (.node h [lhs, rhs]) [] (.bool b) := by
  rcases hd with ⟨rfl, hl | hr⟩ | ⟨rfl, hl, hr⟩
  · exact .left hh hl
  · exact .right hh hr
  · exact .neutral hh hl hr

/-- A known operand leaves what is decided. -/
theorem Decides.contract {dominant b : Bool} {lhs rhs l' r' e' : Term}
    (hd : Decides ρ scope dominant b l' r')
    (hl : ∀ known, lhs.bool? = some known → l'.bool? = some known)
    (hr : ∀ known, rhs.bool? = some known → r'.bool? = some known)
    (h : Term.logic? dominant (lhs, l') (rhs, r') = some e') :
    Evaluates ρ scope e' [] (.bool b) := by
  -- What is known of an operand is its value, so it agrees with what decides.
  have hagree : ∀ {e : Term} {known : Bool}, e.bool? = some known →
      Evaluates ρ scope e [] (.bool b) → known = b := fun hknown he => he.bool_inv hknown
  unfold Term.logic? at h
  cases hlhs : lhs.bool? with
  | some known =>
    have hl' := hl known hlhs
    simp only [hlhs] at h
    split at h
    · next heq =>
      obtain rfl := Option.some.inj h
      rcases hd with ⟨rfl, -⟩ | ⟨-, hleft, -⟩
      · exact heq ▸ evaluates_bool hl'
      · exact hleft
    · next hne =>
      obtain rfl := Option.some.inj h
      rcases hd with ⟨rfl, hleft | hright⟩ | ⟨-, -, hright⟩
      · exact absurd (hagree hl' hleft) hne
      · exact hright
      · exact hright
  | none =>
    cases hrhs : rhs.bool? with
    | none => simp [hlhs, hrhs] at h
    | some known =>
      have hr' := hr known hrhs
      simp only [hlhs, hrhs] at h
      split at h
      · next heq =>
        obtain rfl := Option.some.inj h
        rcases hd with ⟨rfl, -⟩ | ⟨-, -, hright⟩
        · exact heq ▸ evaluates_bool hr'
        · exact hright
      · next hne =>
        obtain rfl := Option.some.inj h
        rcases hd with ⟨rfl, hleft | hright⟩ | ⟨-, hleft, -⟩
        · exact hleft
        · exact absurd (hagree hr' hright) hne
        · exact hleft

theorem pass_bool {b : Bool} (hb : e.bool? = some b) : (e.pass scope cyclic).bool? = some b := by
  obtain ⟨l, hl, hl'⟩ := Option.bind_eq_some_iff.mp hb
  rw [Term.bool?, pass_literal hl]
  exact hl'

/-- A folded conjunction or disjunction has the value that its folded operands decide. -/
theorem Decides.pass {scope' : Scope} {h : Head} {dominant b : Bool} {lhs rhs : Term}
    (hd : Decides ρ scope' dominant b (lhs.pass scope cyclic) (rhs.pass scope cyclic))
    (hh : h.dominant? = some dominant) :
    Evaluates ρ scope' ((Term.node h [lhs, rhs]).pass scope cyclic) [] (.bool b) := by
  have hlogic : Term.contract? scope cyclic h
      [(lhs, lhs.pass scope cyclic), (rhs, rhs.pass scope cyclic)] =
      Term.logic? dominant (lhs, lhs.pass scope cyclic) (rhs, rhs.pass scope cyclic) := by
    cases h with
    | and | or =>
      obtain rfl := Option.some.inj hh
      rfl
    | _ => cases hh
  rw [Term.pass_node, List.map_cons, List.map_cons, List.map_nil, hlogic]
  cases hc : Term.logic? dominant (lhs, lhs.pass scope cyclic) (rhs, rhs.pass scope cyclic) with
  | none => exact hd.evaluates hh
  | some e' => exact hd.contract (fun _ => pass_bool) (fun _ => pass_bool) hc

/-- A reference keeps its value when the scope is folded. If folding has left a reference of the
name to itself, that reference has the value by `hfolded`, and so has every other one. -/
theorem source_keep {name : String} (hsource : scope.source? name = some e)
    (hfolded : Evaluates ρ (scope.map (Term.pass scope cyclic)) (e.pass scope cyclic) path v)
    (es : List Term) :
    Evaluates ρ (scope.map (Term.pass scope cyclic)) (.node (.ref name) es) path v := by
  have halias : scope.alias? name = some e := (Option.filter_eq_some_iff.mp hsource).1
  have hsource' : (scope.map (Term.pass scope cyclic)).source? name =
      (some (e.pass scope cyclic)).filter fun e => !e.isRefTo name := by
    show ((scope.alias? name).map _).filter _ = _
    rw [halias]
    rfl
  by_cases hself : (e.pass scope cyclic).isRefTo name
  · have hnone : (scope.map (Term.pass scope cyclic)).source? name = none := by
      rw [hsource', Option.filter_some, hself]
      rfl
    obtain ⟨es', heq⟩ := Term.eq_of_isRefTo hself
    rw [heq] at hfolded
    cases hfolded with
    | source hsome value =>
      rw [hnone] at hsome
      cases hsome
    | ref none known part => exact .ref hnone known part
    | left dominant | right dominant | neutral dominant => cases dominant
  · refine .source ?_ hfolded
    rw [hsource', Option.filter_some, if_pos]
    simpa using hself

/-- A folded join has the value of the join. -/
theorem join_pass {scope' : Scope} {delimiter : String} {es : List Term} {vs : List Value}
    (several : 2 ≤ es.length) (length : vs.length = es.length)
    (hold : ∀ pair ∈ es.zip vs, Evaluates ρ scope pair.1 [] (.scalar pair.2))
    (hnew : ∀ pair ∈ es.zip vs, Evaluates ρ scope' (pair.1.pass scope cyclic) [] (.scalar pair.2)) :
    Evaluates ρ scope' ((Term.node (.join delimiter) es).pass scope cyclic) []
      (.string (delimiter.intercalate (vs.map Value.toText))) := by
  have hes : (es.zip vs).map Prod.fst = es := List.map_fst_zip (Nat.le_of_eq length.symm)
  have hvs : (es.zip vs).map Prod.snd = vs := List.map_snd_zip (Nat.le_of_eq length)
  rw [Term.pass_node]
  cases hc : Term.contract? scope cyclic (.join delimiter)
      (es.map fun e => (e, e.pass scope cyclic)) with
  | none => exact .join (by simpa using several) (by simpa using length) (forall_zip_map hnew)
  | some e' =>
    have hjoin : Term.join? delimiter
        ((es.zip vs).map fun z => (z.1, z.1.pass scope cyclic)) = some e' := by
      rw [← hc, Term.contract?]
      conv_rhs => rw [← hes, List.map_map]
      rfl
    have hseveral : 2 ≤ (es.zip vs).length := by
      rwa [List.length_zip, length, Nat.min_self]
    have hvalue := join_contract hseveral hold hnew hjoin
    rw [← hvs, List.map_map]
    exact hvalue

/-- A folded look-up in a mapping has the value of the look-up. -/
theorem findInMap_pass {scope' : Scope} {mapName : String} {topKey secondKey : Term} {a b : Value}
    (top : Evaluates ρ scope topKey [] (.scalar a))
    (second : Evaluates ρ scope secondKey [] (.scalar b))
    (declared : scope.mapping? mapName = some e)
    (hfound : Evaluates ρ scope' e (a.toText :: b.toText :: path) v)
    (hself : Evaluates ρ scope' (.node (.findInMap mapName)
      [topKey.pass scope cyclic, secondKey.pass scope cyclic]) path v) :
    Evaluates ρ scope' ((Term.node (.findInMap mapName) [topKey, secondKey]).pass scope cyclic)
      path v := by
  rw [Term.pass_node]
  simp only [List.map_cons, List.map_nil, Term.contract?]
  cases ht : topKey.literal? with
  | none => exact hself
  | some l =>
    cases hs : secondKey.literal? with
    | none => exact hself
    | some r =>
      rw [Option.bind_some, Option.bind_some, declared, Option.bind_some,
        ← Datum.scalar.inj (top.literal_inv ht).2, ← Datum.scalar.inj (second.literal_inv hs).2]
      cases hlevel : e.field? a.toText with
      | none => exact hself
      | some level =>
        rw [Option.bind_some]
        cases hinner : level.field? b.toText with
        | none => exact hself
        | some found =>
          rw [Option.filter_some]
          split
          · exact (hfound.field_inv hlevel).field_inv hinner
          · exact hself

/-- A declared condition keeps its value when the scope is folded. -/
theorem condition_keep {name : String} (declared : scope.condition? name = some e)
    (hfolded : Evaluates ρ (scope.map (Term.pass scope cyclic)) (e.pass scope cyclic) path v)
    (es : List Term) :
    Evaluates ρ (scope.map (Term.pass scope cyclic)) (.node (.conditionRef name) es) path v := by
  refine .condition (e := e.pass scope cyclic) ?_ hfolded
  show (scope.condition? name).map _ = _
  rw [declared]
  rfl

/-- A folded condition has the value of the condition; a literal truth value takes its place. -/
theorem condition_pass {scope' : Scope} {name : String} {es : List Term}
    (declared : scope.condition? name = some e) (value : Evaluates ρ scope e path v)
    (hself : ∀ es, Evaluates ρ scope' (.node (.conditionRef name) es) path v) :
    Evaluates ρ scope' ((Term.node (.conditionRef name) es).pass scope cyclic) path v := by
  rw [Term.pass_node, Term.contract?, declared, Option.bind_some]
  cases hl : e.literal? with
  | none => exact hself _
  | some l =>
    rw [Option.bind_some]
    cases l.asBool? with
    | none => exact hself _
    | some b =>
      obtain ⟨rfl, rfl⟩ := value.literal_inv hl
      exact .literal

/-- A folded choice has the value of the choice; a known condition leaves the branch alone. -/
theorem ifElse_pass {scope' : Scope} {condition ifTrue ifFalse : Term} {b : Bool}
    (decides : Evaluates ρ scope condition [] (.bool b))
    (hcondition : Evaluates ρ scope' (condition.pass scope cyclic) [] (.bool b))
    (hbranch : Evaluates ρ scope' ((if b then ifTrue else ifFalse).pass scope cyclic) path v) :
    Evaluates ρ scope' ((Term.node .ifElse [condition, ifTrue, ifFalse]).pass scope cyclic)
      path v := by
  rw [Term.pass_node]
  cases hb : condition.bool? with
  | none =>
    simp only [List.map_cons, List.map_nil, Term.contract?, hb]
    refine .ifElse hcondition ?_
    cases b <;> exact hbranch
  | some b' =>
    obtain rfl := decides.bool_inv hb
    simp only [List.map_cons, List.map_nil, Term.contract?, hb]
    cases b' <;> exact hbranch

theorem not_pass {scope' : Scope} {value : Term} {b : Bool}
    (decides : Evaluates ρ scope value [] (.bool b))
    (hvalue : Evaluates ρ scope' (value.pass scope cyclic) [] (.bool b)) :
    Evaluates ρ scope' ((Term.node .not [value]).pass scope cyclic) [] (.bool (!b)) := by
  rw [Term.pass_node]
  simp only [List.map_cons, List.map_nil, Term.contract?]
  cases hl : value.literal? with
  | none => exact .not hvalue
  | some l =>
    have hbool : l.asBool? = some b := by
      rw [Literal.asBool?, ← Datum.scalar.inj (decides.literal_inv hl).2]
      rfl
    rw [Option.bind_some, hbool]
    exact .literal

theorem equals_pass {scope' : Scope} {lhs rhs : Term} {a b : Value}
    (left : Evaluates ρ scope lhs [] (.scalar a)) (right : Evaluates ρ scope rhs [] (.scalar b))
    (hleft : Evaluates ρ scope' (lhs.pass scope cyclic) [] (.scalar a))
    (hright : Evaluates ρ scope' (rhs.pass scope cyclic) [] (.scalar b)) :
    Evaluates ρ scope' ((Term.node .equals [lhs, rhs]).pass scope cyclic) []
      (.bool (a.same b)) := by
  rw [Term.pass_node]
  simp only [List.map_cons, List.map_nil, Term.contract?]
  cases hl : lhs.literal? with
  | none => exact .equals hleft hright
  | some l =>
    cases hr : rhs.literal? with
    | none => exact .equals hleft hright
    | some r =>
      rw [Datum.scalar.inj (left.literal_inv hl).2, Datum.scalar.inj (right.literal_inv hr).2]
      exact .literal

theorem select_pass {scope' : Scope} {index : Term} {es : List Term} {i : Value} {n : Nat}
    (decides : Evaluates ρ scope index [] (.scalar i)) (number : i.asIndex? = some n)
    (selected : es[n]? = some e)
    (hindex : Evaluates ρ scope' (index.pass scope cyclic) [] (.scalar i))
    (hvalue : Evaluates ρ scope' (e.pass scope cyclic) path v) :
    Evaluates ρ scope' ((Term.node .select (index :: es)).pass scope cyclic) path v := by
  have hselected : (es.map (Term.pass scope cyclic))[n]? = some (e.pass scope cyclic) := by
    rw [List.getElem?_map, selected]
    rfl
  rw [Term.pass_node]
  simp only [List.map_cons, Term.contract?]
  cases hl : index.literal? with
  | none => exact .select hindex number hselected hvalue
  | some l =>
    rw [Option.bind_some, ← Datum.scalar.inj (decides.literal_inv hl).2, number, Option.bind_some,
      List.getElem?_map, selected]
    exact hvalue

theorem split_pass {scope' : Scope} {delimiter source : Term} {d s : String} {parts : List String}
    (left : Evaluates ρ scope delimiter [] (.string d))
    (right : Evaluates ρ scope source [] (.string s)) (pieces : Text.splitOn? d s = some parts)
    (hleft : Evaluates ρ scope' (delimiter.pass scope cyclic) [] (.string d))
    (hright : Evaluates ρ scope' (source.pass scope cyclic) [] (.string s)) :
    Evaluates ρ scope' ((Term.node .split [delimiter, source]).pass scope cyclic) []
      (.list (parts.map .string)) := by
  rw [Term.pass_node]
  simp only [List.map_cons, List.map_nil, Term.contract?]
  cases hd : delimiter.literal?.bind (·.value.asString?) with
  | none => exact .split hleft hright pieces
  | some d' =>
    cases hs : source.literal?.bind (·.value.asString?) with
    | none => exact .split hleft hright pieces
    | some s' =>
      obtain rfl := left.string_inv hd
      obtain rfl := right.string_inv hs
      rw [Option.bind_some, Option.bind_some, pieces]
      refine .list (by simp) fun pair hpair => ?_
      rw [List.zip_map'] at hpair
      obtain ⟨part, -, rfl⟩ := List.mem_map.mp hpair
      exact .literal

/-- A value is kept when the scope is folded, and when the expression is folded too. -/
theorem keep (h : Evaluates ρ scope e path v) (cyclic : List String) :
    Evaluates ρ (scope.map (Term.pass scope cyclic)) e path v ∧
      Evaluates ρ (scope.map (Term.pass scope cyclic)) (e.pass scope cyclic) path v := by
  -- One case for each rule: the rule again for the first half, what folding makes for the second.
  induction h with
  | @literal l es =>
    refine ⟨.literal, ?_⟩
    rw [Term.pass_node]
    exact .literal
  | @source name es e path v hsource value ih =>
    have hself := source_keep hsource ih.2
    refine ⟨hself es, ?_⟩
    rw [Term.pass_node, Term.contract?]
    split
    · exact hself _
    · rw [hsource]
      exact ih.1
  | @ref name es d v path none known part =>
    have hnone : (scope.map (Term.pass scope cyclic)).source? name = .none :=
      Scope.source?_pass_of_none none
    refine ⟨.ref hnone known part, ?_⟩
    rw [Term.pass_node, Term.contract?, none, ite_self]
    exact .ref hnone known part
  | @getAtt name attributeName es d v path known part =>
    refine ⟨.getAtt known part, ?_⟩
    rw [Term.pass_node]
    exact .getAtt known part
  | @condition name es e path v declared value ih =>
    have hself := condition_keep declared ih.2
    exact ⟨hself es, condition_pass declared value hself⟩
  | @undeclared name es d v path none known part =>
    have hnone : (scope.map (Term.pass scope cyclic)).condition? name = .none := by
      show (scope.condition? name).map _ = _
      rw [none]
      rfl
    refine ⟨.undeclared hnone known part, ?_⟩
    rw [Term.pass_node, Term.contract?, none]
    exact .undeclared hnone known part
  | @isDefined name es =>
    refine ⟨.isDefined, ?_⟩
    rw [Term.pass_node]
    exact .literal
  | @ifElse condition ifTrue ifFalse b path v decides value ihc ih =>
    exact ⟨.ifElse ihc.1 ih.1, ifElse_pass decides ihc.2 ih.2⟩
  | @left h lhs rhs b dominant decides ih =>
    exact ⟨.left dominant ih.1, Decides.pass (.inl ⟨rfl, .inl ih.2⟩) dominant⟩
  | @right h lhs rhs b dominant decides ih =>
    exact ⟨.right dominant ih.1, Decides.pass (.inl ⟨rfl, .inr ih.2⟩) dominant⟩
  | @neutral h lhs rhs b dominant left right ihl ihr =>
    exact ⟨.neutral dominant ihl.1 ihr.1, Decides.pass (.inr ⟨rfl, ihl.2, ihr.2⟩) dominant⟩
  | @not value b decides ih =>
    exact ⟨.not ih.1, not_pass decides ih.2⟩
  | @equals lhs rhs a b left right ihl ihr =>
    exact ⟨.equals ihl.1 ihr.1, equals_pass left right ihl.2 ihr.2⟩
  | @joinNone delimiter =>
    refine ⟨.joinNone, ?_⟩
    rw [Term.pass_node]
    exact .literal
  | @joinOne delimiter e path v value ih =>
    refine ⟨.joinOne ih.1, ?_⟩
    rw [Term.pass_node]
    exact ih.2
  | @join delimiter es vs several length values ih =>
    exact ⟨.join several length fun pair hpair => (ih pair hpair).1,
      join_pass several length values fun pair hpair => (ih pair hpair).2⟩
  | @select index e es i n path v decides number selected value ihi ih =>
    exact ⟨.select ihi.1 number selected ih.1, select_pass decides number selected ihi.2 ih.2⟩
  | @split delimiter source d s parts left right pieces ihl ihr =>
    exact ⟨.split ihl.1 ihr.1 pieces, split_pass left right pieces ihl.2 ihr.2⟩
  | @findInMap mapName topKey secondKey e a b path v top second declared value iht ihs ih =>
    have hdeclared : (scope.map (Term.pass scope cyclic)).mapping? mapName =
        some (e.pass scope cyclic) := by
      show (scope.mapping? mapName).map _ = _
      rw [declared]
      rfl
    exact ⟨.findInMap iht.1 ihs.1 hdeclared ih.2, findInMap_pass top second declared ih.1
      (.findInMap iht.2 ihs.2 hdeclared ih.2)⟩
  | @base64 e d d' v path value known part ih =>
    refine ⟨.base64 ih.1 known part, ?_⟩
    rw [Term.pass_node]
    exact .base64 ih.2 known part
  | @importValue e d d' v path value known part ih =>
    refine ⟨.importValue ih.1 known part, ?_⟩
    rw [Term.pass_node]
    exact .importValue ih.2 known part
  | @list es vs length values ih =>
    refine ⟨.list length fun pair hpair => (ih pair hpair).1, ?_⟩
    rw [Term.pass_node]
    exact .list (by simpa using length) (forall_zip_map fun pair hpair => (ih pair hpair).2)
  | @object names es vs length values ih =>
    refine ⟨.object length fun pair hpair => (ih pair hpair).1, ?_⟩
    rw [Term.pass_node]
    exact .object (by simpa using length) (forall_zip_map fun pair hpair => (ih pair hpair).2)
  | @field names es key e path v found value ih =>
    refine ⟨.field found ih.1, ?_⟩
    rw [Term.pass_node]
    refine .field (e := e.pass scope cyclic) ?_ ih.2
    rw [Term.lookup_zip_map, found]
    rfl

end Pass

end Evaluates

end StackTemplate
