import StackTemplate.Proofs.Order.Staging

/-!
# Passes over reordered trees

In parallel trees with directories that list the same items names mean the same
(`Parallel.scope_eq`), so the three passes keep the trees parallel and count the same changes: the
extraction of placeholders, folding with any fuel, and turning parameters back
(`Parallel.normalize`, `Parallel.evaluate`).
-/

namespace StackTemplate.Order

open StackTemplate.Tree Fold

variable {base base' t t' : Tree} {f f' : NodeId → NodeId} {directory directory' : Directory}

/-- The names of two directories stand for the same items, in whatever order. -/
def SameItems (directory directory' : Directory) : Prop :=
  ∀ name, directory'.get? name = directory.get? name

theorem SameItems.contains_eq (h : SameItems directory directory') (name : String) :
    directory'.contains name = directory.contains name := by
  have hget := congrArg Option.isSome (h name)
  rwa [Directory.get?, Directory.get?, ← Table.contains_eq_isSome, ← Table.contains_eq_isSome]
    at hget

theorem SameItems.bound (h : SameItems directory directory') (hbase : Reordered base base')
    (hbound : Bound base directory) : Bound base' directory' := by
  intro name id hid
  rw [h] at hid
  rw [hbase.root_eq, hbase.reaches, hbase.decl?_eq]
  exact hbound name id hid

section Parallel

variable (hbase : Reordered base base') (hwf : base.WellFormed) (hbound : Bound base directory)
  (hitems : SameItems directory directory')

include hbase hbound hitems

/-- Names mean the same in both trees. -/
theorem Parallel.scope_eq (h : Parallel base base' t t' f f') :
    t'.scope directory' = t.scope directory := by
  have hfield : ∀ field, IsField field → ∀ name,
      (declared? t' directory' field name).map t'.term =
        (declared? t directory field name).map t.term := by
    intro field hfield name
    rw [declared?_rewired hbound hfield h.left,
      declared?_rewired (hitems.bound hbase hbound) hfield h.right]
    have hsame : declared? base' directory' field name = declared? base directory field name := by
      rw [declared?, declared?, hitems, funext hbase.decl?_eq]
    rw [hsame]
    cases hid : declared? base directory field name with
    | none => rfl
    | some id =>
      obtain ⟨d, hd, hmem⟩ := Option.bind_eq_some_iff.mp hid
      obtain ⟨x, hx, hdecl⟩ := Option.bind_eq_some_iff.mp hd
      have hslot : id ∈ base.exprSlots x := by
        rw [exprSlots, decl?_eq_some.mp hdecl]
        exact hfield.mem d id hmem
      simp only [Option.map_some, h.term_eq x id (hbound name x hx).1 (expr?_of_decl? hdecl) hslot]
  rw [Tree.scope, Tree.scope, funext (hfield _ isField_aliasSource?),
    funext (hfield _ isField_conditionValue?), funext (hfield _ isField_mappingValue?),
    show directory'.contains = directory.contains from funext hitems.contains_eq]

theorem Parallel.cyclicAliases_eq (h : Parallel base base' t t' f f') (name : String) :
    (cyclicAliases t' directory').contains name = (cyclicAliases t directory).contains name := by
  have hbound₁ := bound_rewired hbound h.left
  have hbound₂ := bound_rewired (hitems.bound hbase hbound) h.right
  rw [Bool.eq_iff_iff, List.contains_iff_mem, List.contains_iff_mem,
    mem_cyclicAliases h.left.wellFormed hbound₁, mem_cyclicAliases h.right.wellFormed hbound₂,
    h.scope_eq hbase hbound hitems]

include hwf

omit hbound in
/-- Extracting placeholders keeps trees parallel and replaces as many strings. -/
theorem Parallel.normalize (h : Parallel base base' t t' f f') :
    (∃ f f', Parallel base base' (Format.normalize t directory).tree
        (Format.normalize t' directory').tree f f') ∧
      (Format.normalize t' directory').count = (Format.normalize t directory).count := by
  obtain ⟨owner, hs, hextracted, hextractable⟩ :=
    Format.extractions_staged h.left.wellFormed directory
  obtain ⟨owner', hs', hextracted', hextractable'⟩ :=
    Format.extractions_staged h.right.wellFormed directory'
  obtain ⟨hparallel, hcount⟩ := h.apply hbase hwf hs hs' (extractions_agree h.left.wellFormed
    h.right.wellFormed hitems.contains_eq hextracted hextractable hextracted' hextractable')
  exact ⟨⟨_, _, hparallel⟩, hcount⟩

/-- The states of two foldings that run side by side. -/
structure InStep (base base' : Tree) (s s' : Folding) : Prop where
  parallel : ∃ f f', Parallel base base' s.tree s'.tree f f'
  passes_eq : s'.passes = s.passes
  substitutions_eq : s'.substitutions = s.substitutions

/-- A pass changes as many slots on both sides. -/
theorem InStep.pass {s s' : Folding} (h : InStep base base' s s') :
    (s'.pass directory').1 = (s.pass directory).1 ∧
      InStep base base' (s.pass directory).2 (s'.pass directory').2 := by
  obtain ⟨f, f', hparallel⟩ := h.parallel
  have hbound₁ := bound_rewired hbound hparallel.left
  have hbound₂ := bound_rewired (hitems.bound hbase hbound) hparallel.right
  -- What is staged is read off the tree before the pass, so no order can show in it.
  obtain ⟨owner, hs, hanswers⟩ := stageAll_spec hparallel.left.wellFormed hbound₁
    (cyclicAliases s.tree directory)
  obtain ⟨owner', hs', hanswers'⟩ := stageAll_spec hparallel.right.wellFormed hbound₂
    (cyclicAliases s'.tree directory')
  obtain ⟨hafter, hcount⟩ := hparallel.apply hbase hwf hs hs' (stageAll_agree
    hparallel.left.wellFormed hparallel.right.wellFormed hbound₁ hbound₂
    (hparallel.scope_eq hbase hbound hitems) (hparallel.cyclicAliases_eq hbase hbound hitems)
    hanswers hanswers')
  refine ⟨hcount, ⟨_, _, hafter⟩, congrArg (· + 1) h.passes_eq, ?_⟩
  exact congrArg₂ (· + ·) h.substitutions_eq hcount

/-- Two foldings with the same fuel end alike. -/
theorem InStep.run {s s' : Folding} (h : InStep base base' s s') (fuel : Nat) :
    (s'.run directory' fuel).1 = (s.run directory fuel).1 ∧
      InStep base base' (s.run directory fuel).2 (s'.run directory' fuel).2 := by
  induction fuel generalizing s s' with
  | zero => exact ⟨rfl, h⟩
  | succ fuel ih =>
    obtain ⟨hcount, hpass⟩ := h.pass hbase hwf hbound hitems
    simp only [Folding.run, hcount]
    split
    · exact ⟨rfl, hpass⟩
    · exact ih hpass

end Parallel

/-- Turning parameters back succeeds and changes as many strings on both sides. -/
theorem Parallel.reinline (h : Parallel base base' t t' f f') (hbase : Reordered base base')
    (hwf : base.WellFormed) :
    ∃ after after', Fold.reinline t = .ok after ∧ Fold.reinline t' = .ok after' ∧
      after'.1 = after.1 ∧ ∃ f f', Parallel base base' after.2 after'.2 f f' := by
  obtain ⟨sofar, owner, hrun, hs, hanswers⟩ := stageReinline_staged h.left.wellFormed
  obtain ⟨sofar', owner', hrun', hs', hanswers'⟩ := stageReinline_staged h.right.wellFormed
  obtain ⟨hparallel, hcount⟩ := h.apply hbase hwf hs hs'
    (reinline_agree h.left.wellFormed h.right.wellFormed hanswers hanswers')
  refine ⟨sofar.2.apply sofar.1, sofar'.2.apply sofar'.1, ?_, ?_, hcount, _, _, hparallel⟩
  · rw [Fold.reinline, hrun]
    rfl
  · rw [Fold.reinline, hrun']
    rfl

/-- Folding with the same fuel ends with the same outcome, and with parallel trees. -/
theorem Parallel.evaluate (h : Parallel base base' t t' f f') (hbase : Reordered base base')
    (hwf : base.WellFormed) (hbound : Bound base directory)
    (hitems : SameItems directory directory') (fuel : Nat) :
    ∃ e e', Fold.evaluate t directory fuel = .ok e ∧ Fold.evaluate t' directory' fuel = .ok e' ∧
      e'.outcome = e.outcome ∧ ∃ f f', Parallel base base' e.tree e'.tree f f' := by
  have hstart : InStep base base' { tree := t } { tree := t' } := ⟨⟨f, f', h⟩, rfl, rfl⟩
  obtain ⟨hend, hstep⟩ := hstart.run hbase hwf hbound hitems fuel
  obtain ⟨f, f', hparallel⟩ := hstep.parallel
  unfold Fold.evaluate
  cases hrun : ({ tree := t } : Folding).run directory fuel with
  | mk done s =>
    cases hrun' : ({ tree := t' } : Folding).run directory' fuel with
    | mk done' s' =>
      rw [hrun, hrun'] at hend hstep hparallel
      obtain rfl : done' = done := hend
      cases done' with
      | false =>
        exact ⟨_, _, rfl, rfl, congrArg Outcome.exhausted hstep.passes_eq, f, f', hparallel⟩
      | true =>
        obtain ⟨after, after', hafter, hafter', hcount, hafterwards⟩ :=
          hparallel.reinline hbase hwf
        have hpasses : s'.passes = s.passes := hstep.passes_eq
        have hsubstitutions : s'.substitutions = s.substitutions := hstep.substitutions_eq
        simp only [hafter, hafter']
        refine ⟨_, _, rfl, rfl, ?_, hafterwards⟩
        simp only [hpasses, hsubstitutions, hcount]

end StackTemplate.Order
