import StackTemplate.Fold.Evaluation
import StackTemplate.Proofs.Fold.Meaning
import StackTemplate.Proofs.Fold.Passing
import StackTemplate.Proofs.Fold.Reinlining

/-!
# Folding keeps what a module means

Every pass keeps the value of the expression in every slot of the module and its declarations, so
all passes do. A module without interpolated strings does not get any, so there are none whose
parameters go back into the format at the end. Hence `evaluate` keeps all values.
-/

namespace StackTemplate

/-! ### Interpolated strings do not come in -/

/-- Whether the head is that of an interpolated string. -/
def Head.isSub : Head → Bool
  | .sub .. => true
  | _ => false

/-- Whether no interpolated string is in the term. -/
def Term.subFree : Term → Bool := fold fun h os => !h.isSub && os.all (·.2)

/-- No interpolated string is within reach. -/
def Tree.SubFree (t : Tree) : Prop :=
  ∀ x, t.Reaches t.root x → ∀ format parameters, t.expr? x ≠ some (.sub format parameters)

/-- No interpolated string is in the meaning of a name. -/
structure Scope.SubFree (scope : Scope) : Prop where
  alias? : ∀ name e, scope.alias? name = some e → e.subFree
  condition? : ∀ name e, scope.condition? name = some e → e.subFree
  mapping? : ∀ name e, scope.mapping? name = some e → e.subFree

namespace Term

theorem subFree_node {h : Head} {es : List Term} :
    (node h es).subFree = true ↔ h.isSub = false ∧ ∀ e ∈ es, e.subFree := by
  rw [subFree, fold_node]
  simp

theorem subFree_of_isConstant : ∀ e : Term, e.isConstant → e.subFree := by
  refine Term.induct fun h es ih he => ?_
  obtain ⟨hdata, hes⟩ := isConstant_node.mp he
  refine subFree_node.mpr ⟨?_, fun e hmem => ih e hmem (hes e hmem)⟩
  cases h with
  | sub format names => cases hdata
  | _ => rfl

/-- Folding brings no interpolated string in. -/
theorem subFree_pass {scope : Scope} (cyclic : List String) (hscope : scope.SubFree) :
    ∀ e : Term, e.subFree → (e.pass scope cyclic).subFree := by
  refine Term.induct fun h es ih he => ?_
  obtain ⟨hhead, hes⟩ := subFree_node.mp he
  have hnew : ∀ o ∈ es.map fun e => (e, e.pass scope cyclic), o.2.subFree := by
    intro o ho
    obtain ⟨e, hmem, rfl⟩ := List.mem_map.mp ho
    exact ih e hmem (hes e hmem)
  rw [pass_node]
  cases hc : contract? scope cyclic h (es.map fun e => (e, e.pass scope cyclic)) with
  | none =>
    refine subFree_node.mpr ⟨hhead, fun e' hmem' => ?_⟩
    obtain ⟨e, hmem, rfl⟩ := List.mem_map.mp hmem'
    exact ih e hmem (hes e hmem)
  | some e' =>
    rw [Option.getD_some]
    cases contracts_of_contract? hc with
    | operand active mem => exact hnew _ mem
    | source free source => exact hscope.alias? _ _ (Option.filter_eq_some_iff.mp source).1
    | constant active constant => exact subFree_of_isConstant _ constant
    | join parts kept shorter =>
      refine subFree_node.mpr ⟨rfl, fun e hmem => ?_⟩
      obtain ⟨part, hpart, rfl⟩ := List.mem_map.mp hmem
      cases part with
      | inl l => exact subFree_of_isConstant _ (isConstant_literal l)
      | inr o => exact hnew o (kept.mem (List.mem_filterMap.mpr ⟨.inr o, hpart, rfl⟩))
    | sub kept sublist shorter => cases hhead

end Term

theorem Scope.SubFree.map {scope : Scope} (cyclic : List String) (h : scope.SubFree) :
    (scope.map (Term.pass scope cyclic)).SubFree where
  alias? name e' he' := by
    obtain ⟨e, he, rfl⟩ := Option.map_eq_some_iff.mp he'
    exact Term.subFree_pass cyclic h e (h.alias? name e he)
  condition? name e' he' := by
    obtain ⟨e, he, rfl⟩ := Option.map_eq_some_iff.mp he'
    exact Term.subFree_pass cyclic h e (h.condition? name e he)
  mapping? name e' he' := by
    obtain ⟨e, he, rfl⟩ := Option.map_eq_some_iff.mp he'
    exact Term.subFree_pass cyclic h e (h.mapping? name e he)

namespace Fold

open StackTemplate.Tree

variable {t : Tree} {directory : Directory} {x c : NodeId}

theorem subFree_term (hx : t.Grounded x) (hexpr : ∀ z, t.Reaches x z → (t.expr? z).isSome) :
    (t.term x).subFree = true ↔
      ∀ z, t.Reaches x z → ∀ format parameters, t.expr? z ≠ some (.sub format parameters) := by
  induction hx with
  | @intro x lt below ih =>
    obtain ⟨e, he⟩ := Option.isSome_iff_exists.mp (hexpr x .refl)
    have hchild : ∀ c ∈ e.children, (t.term c).subFree = true ↔
        ∀ z, t.Reaches c z → ∀ format parameters, t.expr? z ≠ some (.sub format parameters) := by
      intro c hc
      rw [← children_of_expr? he] at hc
      exact ih c hc fun z hz => hexpr z ((Reaches.refl.tail hc).trans hz)
    rw [term_eq (.intro lt below) he, Term.subFree_node, List.forall_mem_map]
    constructor
    · rintro ⟨hhead, hchildren⟩ z hz format parameters hsub
      rcases Relation.ReflTransGen.cases_head hz with rfl | ⟨c, hc, hcz⟩
      · rw [he] at hsub
        rw [Option.some.inj hsub] at hhead
        cases hhead
      · rw [children_of_expr? he] at hc
        exact (hchild c hc).mp (hchildren c hc) z hcz format parameters hsub
    · intro h
      refine ⟨?_, fun c hc => (hchild c hc).mpr fun z hz => h z (.head ?_ hz)⟩
      · cases e with
        | sub format parameters => exact absurd he (h x .refl format parameters)
        | _ => rfl
      · rwa [children_of_expr? he]

theorem subFree_slot (hwf : t.WellFormed) (h : t.SubFree) (hx : t.Reaches t.root x)
    (hc : c ∈ t.exprSlots x) : (t.term c).subFree := by
  have hreach := hx.tail (mem_children.mpr (.inl hc))
  have hexpr := hwf.expr_slot x c hx hc
  refine (subFree_term (hwf.grounded_of_reaches hreach) fun z hz => ?_).mpr fun z hz => ?_
  · exact hwf.expr_of_reaches hreach hexpr hz
  · exact h z (hreach.trans hz)

theorem subFree_of_slots (hwf : t.WellFormed)
    (h : ∀ x c, t.Reaches t.root x → t.expr? x = none → c ∈ t.exprSlots x → (t.term c).subFree) :
    t.SubFree := by
  intro z hz format parameters hsub
  obtain ⟨x, c, hx, he, hc, hcz⟩ := hwf.exists_slot hz (by rw [hsub]; rfl)
  have hreach := hx.tail (mem_children.mpr (.inl hc))
  have hterm := (subFree_term (hwf.grounded_of_reaches hreach)
    fun y hy => hwf.expr_of_reaches hreach (hwf.expr_slot x c hx hc) hy).mp (h x c hx he hc)
  exact hterm z hcz format parameters hsub

theorem subFree_scope (hwf : t.WellFormed) (hbound : Bound t directory) (h : t.SubFree) :
    (t.scope directory).SubFree := by
  have hfield : ∀ field, IsField field → ∀ name e,
      (declared? t directory field name).map t.term = some e → e.subFree := by
    intro field hfield name e he
    obtain ⟨id, hid, rfl⟩ := Option.map_eq_some_iff.mp he
    obtain ⟨d, hd, hmem⟩ := Option.bind_eq_some_iff.mp hid
    obtain ⟨x, hx, hdecl⟩ := Option.bind_eq_some_iff.mp hd
    refine subFree_slot hwf h (hbound name x hx).1 ?_
    rw [exprSlots, decl?_eq_some.mp hdecl]
    exact hfield.mem d id hmem
  exact ⟨hfield _ isField_aliasSource?, hfield _ isField_conditionValue?,
    hfield _ isField_mappingValue?⟩

/-! ### Every slot keeps its value -/

/-- The second tree has no interpolated string and, in every slot of the module and its
declarations, a term with at least the values that the first has there. -/
structure Refines (t t' : Tree) (directory : Directory) (f : NodeId → NodeId) : Prop
    extends Rewired t t' f where
  subFree : t'.SubFree
  value : ∀ x c, t.Reaches t.root x → t.expr? x = none → c ∈ t.exprSlots x →
    ∀ ρ path v, Evaluates ρ (t.scope directory) (t.term c) path v →
      Evaluates ρ (t'.scope directory) (t'.term (f c)) path v

theorem Refines.refl (hwf : t.WellFormed) (h : t.SubFree) : Refines t t directory id where
  toRewired := .refl hwf
  subFree := h
  value _ _ _ _ _ _ _ _ hv := hv

theorem Refines.trans {t' t'' : Tree} {f f' : NodeId → NodeId} (hwf : t.WellFormed)
    (h : Refines t t' directory f) (h' : Refines t' t'' directory f') :
    Refines t t'' directory (f' ∘ f) where
  toRewired := h.toRewired.trans h'.toRewired
  subFree := h'.subFree
  value x c hx he hc ρ path v hv := by
    have hc' : f c ∈ t'.exprSlots x := by
      rw [(h.slots hwf hx he).1]
      exact List.mem_map_of_mem hc
    exact h'.value x (f c) (h.host x hx he).1 (h.expr_host hx he) hc' ρ path v
      (h.value x c hx he hc ρ path v hv)

/-- One pass keeps all values. -/
theorem pass_refines {s : Folding} (hwf : s.tree.WellFormed) (hbound : Bound s.tree directory)
    (hsub : s.tree.SubFree) : ∃ f, Refines s.tree (s.pass directory).2.tree directory f := by
  obtain ⟨f, hfolded, -⟩ := pass_folded hwf hbound
  have hscope := hfolded.scope_eq hbound
  refine ⟨f, hfolded.toRewired, subFree_of_slots hfolded.wellFormed ?_, ?_⟩
  · intro x c' hx' he' hc'
    obtain ⟨hx, he⟩ := hfolded.old_host x hx' he'
    rw [(hfolded.slots hwf hx he).1] at hc'
    obtain ⟨c, hc, rfl⟩ := List.mem_map.mp hc'
    rw [hfolded.term_eq x c hx he hc]
    exact Term.subFree_pass _ (subFree_scope hwf hbound hsub) _ (subFree_slot hwf hsub hx hc)
  · intro x c hx he hc ρ path v hv
    rw [hscope, hfolded.term_eq x c hx he hc]
    exact (hv.keep _).2

/-- Any number of passes keeps all values. -/
theorem after_refines {s : Folding} (hwf : s.tree.WellFormed) (hbound : Bound s.tree directory)
    (hsub : s.tree.SubFree) (n : Nat) :
    ∃ f, Refines s.tree (s.after directory n).tree directory f := by
  induction n with
  | zero => exact ⟨id, .refl hwf hsub⟩
  | succ n ih =>
    obtain ⟨f, hf⟩ := ih
    obtain ⟨f', hf'⟩ := pass_refines hf.wellFormed (bound_rewired hbound hf.toRewired) hf.subFree
    rw [Folding.after_succ]
    exact ⟨f' ∘ f, hf.trans hwf hf'⟩

/-- The second tree has, in every slot of the module and its declarations, a term with all values
that the first has there. -/
def KeepsValues (t t' : Tree) (directory : Directory) : Prop :=
  ∀ x, t.Reaches t.root x → t.expr? x = none → t'.Reaches t'.root x ∧
    List.Forall₂
      (fun c c' => ∀ ρ path v, Evaluates ρ (t.scope directory) (t.term c) path v →
        Evaluates ρ (t'.scope directory) (t'.term c') path v)
      (t.exprSlots x) (t'.exprSlots x)

theorem Refines.keepsValues {t' : Tree} {f : NodeId → NodeId} (hwf : t.WellFormed)
    (h : Refines t t' directory f) : KeepsValues t t' directory := by
  intro x hx he
  refine ⟨(h.host x hx he).1, ?_⟩
  rw [(h.slots hwf hx he).1, List.forall₂_map_right_iff, List.forall₂_same]
  exact fun c hc => h.value x c hx he hc

/-- Folding a module without interpolated strings succeeds, whatever the fuel, and keeps the value
of the expression in every slot of the module and its declarations. (It can give a value to an
expression without one: a conjunction of `true` and a string is folded into the string.) -/
theorem evaluate_preserves_values (hwf : t.WellFormed) (hbound : Bound t directory)
    (hsub : t.SubFree) (fuel : Nat) :
    ∃ after, evaluate t directory fuel = .ok after ∧ KeepsValues t after.tree directory := by
  obtain ⟨n, -, hrun⟩ := Folding.exists_run_eq directory fuel { tree := t }
  obtain ⟨f, hf⟩ := after_refines (s := { tree := t }) hwf hbound hsub n
  rw [← hrun] at hf
  have hreinline := reinline_of_no_sub fun x hx => hf.subFree x (hf.wellFormed.mem_exprs.mp hx).1
  rw [evaluate]
  split
  next s heq =>
    rw [heq] at hf
    exact ⟨_, rfl, hf.keepsValues hwf⟩
  next s heq =>
    rw [heq] at hf hreinline
    rw [hreinline]
    exact ⟨_, rfl, hf.keepsValues hwf⟩

/-- A module with a condition on a variable, and a variable that depends on the condition. -/
def sizing : Tree where
  nodes := #[
    { kind := .expr (.literal (.string "dev")), span := default, parent := some 1 },
    { kind := .decl { localName := "Stage", kind := .var none 0 }, span := default,
      parent := some 11 },
    { kind := .expr (.ref "Stage"), span := default, parent := some 4 },
    { kind := .expr (.literal (.string "prod")), span := default, parent := some 4 },
    { kind := .expr (.equals 2 3), span := default, parent := some 5 },
    { kind := .decl { localName := "IsProd", kind := .condition 4 }, span := default,
      parent := some 11 },
    { kind := .expr (.conditionRef "IsProd"), span := default, parent := some 9 },
    { kind := .expr (.literal (.string "big")), span := default, parent := some 9 },
    { kind := .expr (.literal (.string "small")), span := default, parent := some 9 },
    { kind := .expr (.ifElse 6 7 8), span := default, parent := some 10 },
    { kind := .decl { localName := "Size", kind := .var none 9 }, span := default,
      parent := some 11 },
    { kind := .module { name := "sizing", items := [1, 5, 10] }, span := default }]
  root := 11

/-- The directory of that module. -/
def sizingDirectory : Directory where
  items := ⟨[("Stage", 1), ("IsProd", 5), ("Size", 10)], by decide⟩

theorem sizing_preserves_values :
    ∃ after, evaluate sizing sizingDirectory 100 = .ok after ∧
      ∀ c ∈ after.tree.exprSlots 10, ∀ ρ,
        Evaluates ρ (after.tree.scope sizingDirectory) (after.tree.term c) [] (.string "small") := by
  have hitem : ∀ c ∈ sizing.children sizing.root, sizing.Reaches sizing.root c :=
    fun c hc => Reaches.refl.tail hc
  have hwf : sizing.WellFormed := by
    refine .ofAll (m := { name := "sizing", items := [1, 5, 10] }) rfl rfl ?_
    decide +kernel
  have hbound : Bound sizing sizingDirectory := by
    refine .ofEntries fun entry hentry => ⟨hitem _ ?_, ?_⟩ <;> revert entry <;> decide +kernel
  have hsub : sizing.SubFree := by
    intro x hx format parameters hsub
    have hnone : ∀ y < sizing.size, ∀ e ∈ sizing.expr? y, e.head.isSub = false := by
      decide +kernel
    exact Bool.noConfusion (hnone x (hwf.lt_size hx) _ hsub)
  obtain ⟨after, hafter, hkeeps⟩ := evaluate_preserves_values hwf hbound hsub 100
  refine ⟨after, hafter, fun c hc ρ => ?_⟩
  have hslots := (hkeeps 10 (hitem 10 (by decide +kernel)) rfl).2
  rw [show sizing.exprSlots 10 = [9] from rfl, List.forall₂_cons_left_iff] at hslots
  obtain ⟨c', rest, hvalue, hrest, heq⟩ := hslots
  rw [heq, List.forall₂_nil_left_iff.mp hrest, List.mem_singleton] at hc
  rw [hc]
  have hequals : Evaluates ρ (sizing.scope sizingDirectory) (sizing.term 4) [] (.bool false) :=
    .equals (.source (e := sizing.term 0) rfl .literal) .literal
  exact hvalue ρ [] _ (.ifElse (b := false) (.condition rfl hequals) .literal)

end Fold

end StackTemplate
