import StackTemplate.Check.Formats
import StackTemplate.Check.Handlers
import StackTemplate.Fold.Evaluation
import StackTemplate.Proofs.Check.Cycles
import StackTemplate.Proofs.Fold.Passing
import StackTemplate.Proofs.Format.Normalizing
import StackTemplate.Proofs.Naming
import StackTemplate.Proofs.Resolution.Recording

/-!
# What each stage reports

Every stage reports diagnostics of kinds of its own, so the kind of a diagnostic tells the stage
that it comes from.
-/

namespace StackTemplate

variable {t : Tree} {directory : Directory} {kinds : List DiagnosticKind}

/-- All the diagnostics are of some kinds. -/
def OfKinds (kinds : List DiagnosticKind) (ds : List Diagnostic) : Prop :=
  ∀ d ∈ ds, d.kind ∈ kinds

theorem OfKinds.append {ds ds' : List Diagnostic} (h : OfKinds kinds ds) (h' : OfKinds kinds ds') :
    OfKinds kinds (ds ++ ds') :=
  List.forall_mem_append.mpr ⟨h, h'⟩

/-- What the steps of a loop report, the loop reports. -/
theorem OfKinds.foldl {σ α : Type} {step : σ → α → σ} (reports : σ → List Diagnostic)
    (hstep : ∀ s a, OfKinds kinds (reports s) → OfKinds kinds (reports (step s a))) (as : List α)
    {s : σ} (h : OfKinds kinds (reports s)) : OfKinds kinds (reports (as.foldl step s)) := by
  induction as generalizing s with
  | nil => exact h
  | cons a as ih => exact ih (hstep s a h)

/-! ### Names and strings -/

namespace Fold

end Fold

/-! ### Dependencies and checks -/

namespace Check

theorem handlers_ofKinds (t : Tree) (directory : Directory) :
    OfKinds [.handlerNotFunction] (handlers t directory) := by
  intro d hd
  obtain ⟨id, -, hid⟩ := List.mem_filterMap.mp hd
  simp only [handlerReport?, Option.bind_eq_bind, Option.bind_eq_some_iff] at hid
  obtain ⟨handler, -, found, -, heq⟩ := hid
  rw [← Option.some.inj heq]
  exact List.mem_singleton.mpr rfl

end Check

end StackTemplate
