import StackTemplate.Fold.Pass
import StackTemplate.Fold.Reinline

/-!
# Constant folding

Expressions are folded until nothing is left to fold, and then plain parameters of interpolated
strings go back into their formats. Fuel bounds the number of passes; when it runs out, the tree
stays as the passes left it.
-/

namespace StackTemplate.Fold

/-- What folding did. -/
structure Stats where
  /-- The passes, the one that changed nothing included. -/
  passes : Nat
  /-- The slots that passes changed. -/
  substitutions : Nat
  /-- The interpolated strings whose parameters went back into the format. -/
  reinlined : Nat
deriving DecidableEq, Inhabited

/-- How folding ended. -/
inductive Outcome where
  /-- Nothing is left to fold. -/
  | finished (stats : Stats)
  /-- The fuel ran out after so many passes. -/
  | exhausted (passes : Nat)
deriving DecidableEq, Inhabited

/-- The folded tree, what was reported on the way, and how folding ended. -/
structure Evaluation where
  tree : Tree
  diagnostics : List Diagnostic
  outcome : Outcome
deriving Inhabited

/-- Folds all expressions within reach, with at most `fuel` passes. -/
def evaluate (t : Tree) (directory : Directory) (fuel : Nat) :
    Except Interruption Evaluation :=
  match ({ tree := t } : Folding).run directory fuel with
  | (false, s) =>
    pure { tree := s.tree, diagnostics := s.diagnostics, outcome := .exhausted s.passes }
  | (true, s) => do
    let (reinlined, tree) ← Interruption.after s.diagnostics (reinline s.tree)
    let stats := { passes := s.passes, substitutions := s.substitutions, reinlined }
    pure { tree, diagnostics := s.diagnostics, outcome := .finished stats }

end StackTemplate.Fold
