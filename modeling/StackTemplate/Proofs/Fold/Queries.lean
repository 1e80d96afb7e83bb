import StackTemplate.Proofs.Fold.Contraction

/-!
# Queries

A query combines truth values and existence checks by negation, conjunction, disjunction and
comparison. A pass over its term is one step of the query (`Query.pass_term`). Each step brings the
query closer to a constant, so its end can be read off before the first step (`Query.step_spec`,
`Query.constant?_iterate`): the truth value (`Query.truth`), the number of steps (`Query.rounds`),
and whether the constant is marked as the answer of an existence check (`Query.mark`).

Conjunction and disjunction hand on one operand as it is, and the mark of the other is lost with it.
Which one that is depends on which operand is known first, and on the order of the two if both are
known at once.
-/

namespace StackTemplate.Fold

/-- Truth values and existence checks under logic. -/
inductive Query where
  /-- A truth literal, with its flags. -/
  | constant (b isFinal marked : Bool)
  | isDefined (name : String)
  | not (q : Query)
  /-- A disjunction if `true` is dominant, else a conjunction. -/
  | logic (dominant : Bool) (lhs rhs : Query)
  | equals (lhs rhs : Query)

namespace Query

variable {defines : String → Bool} {q l r : Query}

/-- The expression that a query is. -/
def term : Query → Term
  | .constant b isFinal marked =>
    .literal { value := .bool b, isFinal, fromExistenceCheck := marked }
  | .isDefined name => .node (.isDefined name) []
  | .not q => .node .not [q.term]
  | .logic dominant l r => .node (if dominant then .or else .and) [l.term, r.term]
  | .equals l r => .node .equals [l.term, r.term]

/-- Whether it has an existence check. -/
def asks : Query → Bool
  | .constant .. => false
  | .isDefined _ => true
  | .not q => q.asks
  | .logic _ l r | .equals l r => l.asks || r.asks

/-- Whether both operands of each conjunction and disjunction have an existence check. -/
def asksThroughout : Query → Bool
  | .constant .. | .isDefined _ => true
  | .not q => q.asksThroughout
  | .logic _ l r => l.asks && r.asks && l.asksThroughout && r.asksThroughout
  | .equals l r => l.asksThroughout && r.asksThroughout

/-! ### One step -/

/-- The truth value and the mark of a constant. -/
def constant? : Query → Option (Bool × Bool)
  | .constant b _ marked => some (b, marked)
  | _ => none

/-- What a pass makes of a query. -/
def step (defines : String → Bool) : Query → Query
  | .constant b isFinal marked => .constant b isFinal marked
  | .isDefined name => .constant (defines name) false true
  | .not q =>
    match q.constant? with
    | some (b, marked) => .constant (!b) false marked
    | none => .not (q.step defines)
  | .logic dominant l r =>
    match l.constant?, r.constant? with
    | some (b, _), _ => if b = dominant then l.step defines else r.step defines
    | none, some (b, _) => if b = dominant then r.step defines else l.step defines
    | none, none => .logic dominant (l.step defines) (r.step defines)
  | .equals l r =>
    match l.constant?, r.constant? with
    | some (b, marked), some (b', marked') => .constant (b == b') false (marked || marked')
    | _, _ => .equals (l.step defines) (r.step defines)

@[simp] theorem constant?_constant (b isFinal marked : Bool) :
    (constant b isFinal marked).constant? = some (b, marked) := rfl

@[simp] theorem literal?_constant (b isFinal marked : Bool) :
    (constant b isFinal marked).term.literal? =
      some { value := .bool b, isFinal, fromExistenceCheck := marked } := rfl

theorem constant?_cases (q : Query) : (∃ b isFinal marked, q = .constant b isFinal marked) ∨
    q.constant? = none ∧ q.term.literal? = none := by
  cases q with
  | constant b isFinal marked => exact .inl ⟨b, isFinal, marked, rfl⟩
  | logic dominant l r => cases dominant <;> exact .inr ⟨rfl, rfl⟩
  | _ => exact .inr ⟨rfl, rfl⟩

theorem bool?_eq (q : Query) : q.term.bool? = q.constant?.map Prod.fst := by
  obtain ⟨b, isFinal, marked, rfl⟩ | ⟨hnone, hliteral⟩ := q.constant?_cases
  · rfl
  · rw [Term.bool?, hliteral, hnone]
    rfl

/-- A pass over logic looks at the operands as a step does. -/
theorem logic?_term (dominant : Bool) (l r : Query) (l' r' : Term) :
    Term.logic? dominant (l.term, l') (r.term, r') =
      match l.constant?, r.constant? with
      | some (b, _), _ => if b = dominant then some l' else some r'
      | none, some (b, _) => if b = dominant then some r' else some l'
      | none, none => none := by
  unfold Term.logic?
  rw [l.bool?_eq, r.bool?_eq]
  cases l.constant? <;> cases r.constant? <;> rfl

/-- A pass takes one step. -/
theorem pass_term (scope : Scope) (cyclic : List String) (q : Query) :
    q.term.pass scope cyclic = (q.step scope.defines).term := by
  induction q with
  | constant b isFinal marked =>
    rw [term, Term.pass_node]
    rfl
  | isDefined name =>
    rw [term, Term.pass_node]
    rfl
  | not q ih =>
    rw [term, Term.pass_node]
    obtain ⟨b, isFinal, marked, rfl⟩ | ⟨hnone, hliteral⟩ := q.constant?_cases
    · rfl
    · simp [Term.contract?, step, term, hnone, hliteral, ih]
  | logic dominant l r ihl ihr =>
    -- Both operators are one operation, up to the truth value that decides it.
    have hcontract : Term.contract? scope cyclic (if dominant then .or else .and)
        [(l.term, l.term.pass scope cyclic), (r.term, r.term.pass scope cyclic)] =
          Term.logic? dominant (l.term, l.term.pass scope cyclic)
            (r.term, r.term.pass scope cyclic) := by
      cases dominant <;> rfl
    rw [term, Term.pass_node, List.map_cons, List.map_cons, List.map_nil, hcontract, logic?_term,
      step, ihl, ihr]
    cases l.constant? with
    | some known =>
      simp only
      split_ifs <;> rfl
    | none =>
      cases r.constant? with
      | some known =>
        simp only
        split_ifs <;> rfl
      | none => simp [term, ihl, ihr]
  | equals l r ihl ihr =>
    simp only [term, Term.pass_node, List.map_cons, List.map_nil, ihl, ihr]
    obtain ⟨b, isFinal, marked, rfl⟩ | ⟨hl, hlterm⟩ := l.constant?_cases
    · obtain ⟨b', isFinal', marked', rfl⟩ | ⟨hr, hrterm⟩ := r.constant?_cases
      · rfl
      · simp [Term.contract?, step, term, hr, hrterm]
    · simp [Term.contract?, step, term, hl, hlterm]

/-! ### Where the steps end -/

/-- The truth value. -/
def truth (defines : String → Bool) : Query → Bool
  | .constant b _ _ => b
  | .isDefined name => defines name
  | .not q => !q.truth defines
  | .logic dominant l r =>
    if dominant then l.truth defines || r.truth defines else l.truth defines && r.truth defines
  | .equals l r => l.truth defines == r.truth defines

/-- The number of steps to a constant. Logic waits for its first operand, and for the other one
only if the first leaves the answer open. -/
def rounds (defines : String → Bool) : Query → Nat
  | .constant .. => 0
  | .isDefined _ => 1
  | .not q => q.rounds defines + 1
  | .logic dominant l r =>
    if l.rounds defines ≤ r.rounds defines then
      if l.truth defines = dominant then l.rounds defines + 1
      else max (r.rounds defines) (l.rounds defines + 1)
    else
      if r.truth defines = dominant then r.rounds defines + 1
      else max (l.rounds defines) (r.rounds defines + 1)
  | .equals l r => max (l.rounds defines) (r.rounds defines) + 1

/-- Whether the constant is marked. Logic has the mark of the operand that is known first if that
one decides, and else the mark of the other one. -/
def mark (defines : String → Bool) : Query → Bool
  | .constant _ _ marked => marked
  | .isDefined _ => true
  | .not q => q.mark defines
  | .logic dominant l r =>
    if l.rounds defines ≤ r.rounds defines then
      if l.truth defines = dominant then l.mark defines else r.mark defines
    else
      if r.truth defines = dominant then r.mark defines else l.mark defines
  | .equals l r => l.mark defines || r.mark defines

theorem constant?_eq (defines : String → Bool) (q : Query) : q.constant? =
    if q.rounds defines = 0 then some (q.truth defines, q.mark defines) else none := by
  cases q with
  | logic dominant l r =>
    have hpos : (Query.logic dominant l r).rounds defines ≠ 0 := by
      rw [rounds]
      split_ifs <;> omega
    rw [if_neg hpos]
    rfl
  | _ => simp [constant?, rounds, truth, mark]

/-- A step keeps the truth value and the mark, and brings the constant one step closer. -/
theorem step_spec (defines : String → Bool) (q : Query) :
    (q.step defines).truth defines = q.truth defines ∧
    (q.step defines).mark defines = q.mark defines ∧
    (q.step defines).rounds defines = q.rounds defines - 1 := by
  induction q with
  | constant b isFinal marked => exact ⟨rfl, rfl, rfl⟩
  | isDefined name => exact ⟨rfl, rfl, rfl⟩
  | not q ih =>
    rw [step, constant?_eq defines]
    split_ifs with hzero
    · simp [truth, mark, rounds, hzero]
    · simp only [truth, mark, rounds, ih.1, ih.2.1, ih.2.2, true_and]
      omega
  | logic dominant l r ihl ihr =>
    rw [step, constant?_eq defines l, constant?_eq defines r]
    obtain ⟨hltruth, hlmark, hlrounds⟩ := ihl
    obtain ⟨hrtruth, hrmark, hrrounds⟩ := ihr
    by_cases hl : l.rounds defines = 0
    · -- the left operand is known, and the right one counts if it leaves the answer open
      by_cases hdecides : l.truth defines = dominant
      · cases dominant <;> simp_all [truth, mark, rounds]
      · cases dominant <;> simp_all [truth, mark, rounds] <;> omega
    · by_cases hr : r.rounds defines = 0
      · by_cases hdecides : r.truth defines = dominant
        · cases dominant <;> simp_all [truth, mark, rounds]
        · cases dominant <;> simp_all [truth, mark, rounds] <;> omega
      · -- neither is known, and the one that is known first stays the first
        have hfirst : l.rounds defines - 1 ≤ r.rounds defines - 1 ↔
            l.rounds defines ≤ r.rounds defines := by
          omega
        simp only [hl, hr, if_false, truth, mark, rounds, hltruth, hrtruth, hlmark, hrmark,
          hlrounds, hrrounds, hfirst, true_and]
        split_ifs <;> omega
  | equals l r ihl ihr =>
    rw [step, constant?_eq defines l, constant?_eq defines r]
    split_ifs with hl hr hr
    · simp [truth, mark, rounds, hl, hr]
    all_goals
      simp only [truth, mark, rounds, ihl.1, ihl.2.1, ihl.2.2, ihr.1, ihr.2.1, ihr.2.2, true_and]
      omega

theorem iterate_step_spec (defines : String → Bool) (q : Query) (n : Nat) :
    ((step defines)^[n] q).truth defines = q.truth defines ∧
    ((step defines)^[n] q).mark defines = q.mark defines ∧
    ((step defines)^[n] q).rounds defines = q.rounds defines - n := by
  induction n with
  | zero => exact ⟨rfl, rfl, rfl⟩
  | succ n ih =>
    obtain ⟨htruth, hmark, hrounds⟩ := step_spec defines ((step defines)^[n] q)
    rw [Function.iterate_succ_apply']
    refine ⟨htruth.trans ih.1, hmark.trans ih.2.1, ?_⟩
    rw [hrounds, ih.2.2]
    omega

/-- After enough steps the query is a constant, and not before. -/
theorem constant?_iterate (defines : String → Bool) (q : Query) (n : Nat) :
    ((step defines)^[n] q).constant? =
      if q.rounds defines ≤ n then some (q.truth defines, q.mark defines) else none := by
  obtain ⟨htruth, hmark, hrounds⟩ := iterate_step_spec defines q n
  rw [constant?_eq defines, htruth, hmark, hrounds]
  exact if_congr (by omega) rfl rfl

/-- Negation and comparison keep the mark of every existence check, and whichever operand logic
hands on, there is one in it. -/
theorem mark_of_asks (hthroughout : q.asksThroughout) (hasks : q.asks) :
    q.mark defines = true := by
  induction q with
  | constant b isFinal marked => cases hasks
  | isDefined name => rfl
  | not q ih => exact ih hthroughout hasks
  | logic dominant l r ihl ihr =>
    simp only [asksThroughout, Bool.and_eq_true] at hthroughout
    obtain ⟨⟨⟨hl, hr⟩, hlthroughout⟩, hrthroughout⟩ := hthroughout
    rw [mark, ihl hlthroughout hl, ihr hrthroughout hr]
    split_ifs <;> rfl
  | equals l r ihl ihr =>
    simp only [asksThroughout, asks, Bool.and_eq_true, Bool.or_eq_true] at hthroughout hasks
    rw [mark, Bool.or_eq_true]
    exact hasks.imp (ihl hthroughout.1) (ihr hthroughout.2)

end Query

end StackTemplate.Fold
