import StackTemplate.Proofs.Fold.Declared
import StackTemplate.Proofs.Tree.Copying

/-!
# Expressions as terms

The subtree at an expression, read as a term: without node ids, places in the source and parent
links. A term is a head over a list of operands, so that what holds for all sorts of expressions
needs one case. Functions on terms go bottom-up and are written with `Term.fold`.
-/

namespace StackTemplate

/-- An expression without its operands. -/
inductive Head where
  | literal (l : Literal)
  | ref (name : String)
  | getAtt (name : String) (attributeName : String)
  | conditionRef (name : String)
  | isDefined (name : String)
  | join (delimiter : String)
  | select
  | split
  | findInMap (mapName : String)
  | base64
  | importValue
  /-- The format and the names of the local parameters. -/
  | sub (format : String) (names : List String)
  | ifElse
  | and
  | or
  | not
  | equals
  | list
  /-- The names of the fields. -/
  | object (names : List String)

/-- Whether an expression with this head stands for itself. -/
def Head.isData : Head → Bool
  | .literal _ | .list | .object _ => true
  | _ => false

/-- Whether an expression with this head, other than a reference, can be folded. -/
def Head.isActive : Head → Bool
  | .literal _ | .ref _ | .getAtt .. | .base64 | .importValue | .list | .object _ => false
  | _ => true

/-- What is left of an expression when its operands are taken away. -/
def Expr.head : Expr → Head
  | .literal l => .literal l
  | .ref name => .ref name
  | .getAtt name attributeName => .getAtt name attributeName
  | .conditionRef name => .conditionRef name
  | .isDefined name => .isDefined name
  | .join delimiter _ => .join delimiter
  | .select .. => .select
  | .split .. => .split
  | .findInMap mapName .. => .findInMap mapName
  | .base64 _ => .base64
  | .importValue _ => .importValue
  | .sub format parameters => .sub format parameters.keys
  | .ifElse .. => .ifElse
  | .and .. => .and
  | .or .. => .or
  | .not _ => .not
  | .equals .. => .equals
  | .list _ => .list
  | .object fields => .object fields.keys

theorem Expr.head_refill (e : Expr) (ids : List NodeId) : (e.refill ids).head = e.head := by
  unfold refill
  split <;> simp [head]

/-- An expression with everything below it. -/
inductive Term where
  | node (head : Head) (operands : List Term)

namespace Term

/-- A constant. -/
@[match_pattern]
abbrev literal (l : Literal) : Term := .node (.literal l) []

instance : Inhabited Term := ⟨.node .list []⟩

/-- A property of all terms, from the operands to the term. -/
theorem induct {P : Term → Prop} (node : ∀ h es, (∀ e ∈ es, P e) → P (.node h es)) :
    ∀ e, P e
  | .node h es => node h es fun e _ => induct node e

/-- A value computed bottom-up, from the head and the operands with their values. -/
def fold {β : Type} (f : Head → List (Term × β) → β) : Term → β
  | .node h es => f h (es.map fun e => (e, fold f e))

theorem fold_node {β : Type} (f : Head → List (Term × β) → β) (h : Head) (es : List Term) :
    fold f (.node h es) = f h (es.map fun e => (e, fold f e)) := by
  rw [fold]

/-- The constant, if the term is one. -/
def literal? : Term → Option Literal
  | .node (.literal l) _ => some l
  | _ => none

theorem eq_of_literal? {e : Term} {l : Literal} (h : e.literal? = some l) :
    ∃ es, e = .node (.literal l) es := by
  unfold literal? at h
  split at h
  · exact ⟨_, by rw [Option.some.inj h]⟩
  · cases h

/-- The truth value, if the term is one. -/
def bool? (e : Term) : Option Bool := e.literal?.bind Literal.asBool?

/-- Whether the term is a reference to a name. -/
def isRefTo (name : String) : Term → Bool
  | .node (.ref target) _ => decide (target = name)
  | _ => false

theorem eq_of_isRefTo {e : Term} {name : String} (h : e.isRefTo name) :
    ∃ es, e = .node (.ref name) es := by
  unfold isRefTo at h
  split at h
  · exact ⟨_, by rw [of_decide_eq_true h]⟩
  · cases h

/-- A field of an object. -/
def field? (key : String) : Term → Option Term
  | .node (.object names) es => (names.zip es).lookup key
  | _ => none

theorem lookup_zip_map {α β : Type} (f : α → β) (names : List String) (as : List α)
    (key : String) : (names.zip (as.map f)).lookup key = ((names.zip as).lookup key).map f := by
  induction names generalizing as with
  | nil => rfl
  | cons name names ih =>
    cases as with
    | nil => rfl
    | cons a as =>
      simp only [List.map_cons, List.zip_cons_cons, List.lookup_cons, ih]
      split <;> rfl

/-- Whether the term is made of literals, lists and objects. -/
def isConstant : Term → Bool := fold fun h es => h.isData && es.all (·.2)

theorem isConstant_node {h : Head} {es : List Term} :
    (node h es).isConstant = true ↔ h.isData = true ∧ ∀ e ∈ es, e.isConstant := by
  rw [isConstant, fold_node]
  simp

theorem isConstant_literal (l : Literal) : (literal l).isConstant := by
  simp [isConstant_node, Head.isData]

/-- The names that the term refers to. -/
def refs : Term → List String :=
  fold fun h es =>
    match h with
    | .ref name => [name]
    | _ => es.flatMap (·.2)

end Term

namespace Tree

variable {t s : Tree} {x y : NodeId} {e : Expr}

/-! ### Reading a term from a tree -/

/-- The term at an id, as far as `depth` levels. -/
def termWithin (t : Tree) : (depth : Nat) → NodeId → Term
  | 0, _ => default
  | depth + 1, id =>
    match t.expr? id with
    | some e => .node e.head (e.children.map (t.termWithin depth))
    | none => default

/-- The term at an id. -/
def term (t : Tree) (id : NodeId) : Term := t.termWithin t.size id

theorem termWithin_congr {n m : Nat} (hn : Within t.children t.size n x)
    (hm : Within t.children t.size m x) : t.termWithin n x = t.termWithin m x := by
  induction n generalizing m x with
  | zero => exact hn.elim
  | succ n ih =>
    cases m with
    | zero => exact hm.elim
    | succ m =>
      rw [termWithin, termWithin]
      cases he : t.expr? x with
      | none => rfl
      | some e =>
        have hchildren := children_of_expr? he
        simp only [Term.node.injEq, true_and]
        refine List.map_congr_left fun c hc => ?_
        rw [← hchildren] at hc
        exact ih (hn.2 c hc) (hm.2 c hc)

/-- A term is its head over the terms of the operands. -/
theorem term_eq (hx : t.Grounded x) (he : t.expr? x = some e) :
    t.term x = .node e.head (e.children.map t.term) := by
  have hwithin := (within_of_grounded hx).mono (Nat.le_succ t.size)
  rw [term, termWithin_congr (within_of_grounded hx) hwithin, termWithin, he]
  simp only [Term.node.injEq, true_and]
  refine List.map_congr_left fun c hc => ?_
  rw [← children_of_expr? he] at hc
  exact termWithin_congr (hwithin.2 c hc) (within_of_grounded (hx.child hc))

theorem head_term (x : NodeId) :
    ∃ es, t.term x = .node (((t.expr? x).map Expr.head).getD .list) es := by
  rw [term]
  cases he : t.expr? x with
  | none =>
    cases t.size with
    | zero => exact ⟨[], rfl⟩
    | succ n =>
      rw [termWithin, he]
      exact ⟨[], rfl⟩
  | some e =>
    obtain ⟨n, hn⟩ := Nat.exists_eq_succ_of_ne_zero
      (Nat.ne_of_gt (Nat.lt_of_le_of_lt (Nat.zero_le x) (lt_size_of_expr? he)))
    rw [hn, termWithin, he]
    exact ⟨_, rfl⟩

@[simp] theorem literal?_term (x : NodeId) : (t.term x).literal? = t.literal? x := by
  obtain ⟨es, hes⟩ := head_term (t := t) x
  rw [hes, Tree.literal?]
  cases t.expr? x with
  | none => rfl
  | some e => cases e <;> rfl

theorem term_of_literal? {l : Literal} (hx : t.Grounded x) (h : t.literal? x = some l) :
    t.term x = .literal l := by
  obtain ⟨e, he, hl⟩ := Option.bind_eq_some_iff.mp h
  rw [term_eq hx he]
  cases e with
  | literal l' =>
    obtain rfl := Option.some.inj hl
    rfl
  | _ => cases hl

@[simp] theorem bool?_term (x : NodeId) : (t.term x).bool? = t.bool? x := by
  rw [Term.bool?, literal?_term, Tree.bool?]

@[simp] theorem isRefTo_term (x : NodeId) (name : String) :
    (t.term x).isRefTo name = decide (t.expr? x = some (.ref name)) := by
  obtain ⟨es, hes⟩ := head_term (t := t) x
  rw [hes]
  cases t.expr? x with
  | none => rfl
  | some e => cases e <;> simp [Expr.head, Term.isRefTo]

/-- A copy of an expression is the same term. -/
theorem term_of_mirrors (h : Mirrors t s x y) (hx : t.Grounded x)
    (hexpr : ∀ z, t.Reaches x z → (t.expr? z).isSome) (hy : s.Grounded y) :
    s.term y = t.term x := by
  induction h with
  | @intro x y kind ys hnew hkind hlength hkind' hspan below ih =>
    obtain ⟨e, he⟩ := Option.isSome_iff_exists.mp (hexpr x .refl)
    obtain rfl : kind = .expr e := by
      rw [expr?_eq_some.mp he] at hkind
      exact (Option.some.inj hkind).symm
    have he' : s.expr? y = some (e.refill ys) := expr?_eq_some.mpr hkind'
    have hchildren : (e.refill ys).children = ys := Expr.children_refill hlength
    rw [term_eq hx he, term_eq hy he', Expr.head_refill, hchildren]
    congr 1
    refine map_eq_map_of_zip hlength fun pair hpair => ?_
    have hc : pair.1 ∈ t.children x := by
      rw [children_of_expr? he]
      exact (List.of_mem_zip hpair).1
    have hd : pair.2 ∈ s.children y := by
      rw [children_of_expr? he', hchildren]
      exact (List.of_mem_zip hpair).2
    exact ih pair hpair (hx.child hc) (fun z hz => hexpr z ((Reaches.refl.tail hc).trans hz))
      (hy.child hd)

end Tree

end StackTemplate
