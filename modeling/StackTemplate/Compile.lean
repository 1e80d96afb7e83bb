import StackTemplate.Binding
import StackTemplate.Check.Cycles
import StackTemplate.Check.Formats
import StackTemplate.Check.Handlers
import StackTemplate.Diagnostic.Annotated
import StackTemplate.Fold.Evaluation
import StackTemplate.Format.Extraction
import StackTemplate.Resolution.Finalizer

/-!
# Compiling a module

Names are bound, interpolated strings normalized, expressions folded, dependencies resolved, and
the result is checked. Mistakes in the module are collected as diagnostics; only running out of
fuel stops a compilation.
-/

namespace StackTemplate

/-- The settings of a compilation. -/
structure Config where
  /-- The greatest number of folding passes. -/
  fuel : Nat := 1024
  /-- The full name of the finalizer invocation. -/
  finalizer : String := "Finalizer.Invocation"
deriving DecidableEq, Inhabited

/-- Why there is no compiled module. -/
inductive CompileError where
  /-- The tree breaks an agreement. -/
  | fault (f : Fault)
  /-- The fuel ran out after so many passes. -/
  | fuelExhausted (passes : Nat)
  /-- The module has so many errors. -/
  | failed (errors : Nat)
deriving DecidableEq

/-- The wording of a compile error. -/
def CompileError.message : CompileError → String
  | .fault f => f.message
  | .fuelExhausted passes => s!"evaluation limit exceeded after {passes} passes"
  | .failed errors => s!"module compilation failed with {errors} errors"

/-- The outcome of a pass as a step of a compilation. -/
def CompileError.ofPass {α : Type} : Except Interruption α → Except CompileError α
  | .ok a => .ok a
  | .error i => .error (.fault i.fault)

/-- A module with bound names. -/
structure BoundModule where
  tree : Tree
  sources : SourceMap
  config : Config
  directory : Directory
  /-- Everything reported so far. -/
  diagnostics : List Diagnostic
deriving Inhabited

/-- A folded module. -/
structure FoldedModule extends BoundModule where
  /-- The number of normalized strings. -/
  normalized : Nat
  stats : Fold.Stats
deriving Inhabited

/-- A module with dependencies. -/
structure ResolvedModule extends FoldedModule where
  /-- What the finalizer depends on, if the module has one. -/
  finalizer : Option FinalizerDependencies
deriving Inhabited

/-- Binds the names of a module. -/
def bindModule (t : Tree) (sources : SourceMap) (config : Config) :
    Except CompileError BoundModule := do
  let b ← CompileError.ofPass t.bind
  pure { tree := b.tree, sources, config, directory := b.directory, diagnostics := b.diagnostics }

namespace BoundModule

/-- Whether no error was reported. -/
def isValid (m : BoundModule) : Bool := !m.diagnostics.any Diagnostic.isError

/-- Everything reported so far, against the sources. -/
def renderDiagnostics (m : BoundModule) : String :=
  Diagnostic.annotatedText m.sources m.diagnostics

/-- Normalizes the interpolated strings and folds the expressions. -/
def fold (m : BoundModule) : Except CompileError FoldedModule := do
  let n := Format.normalize m.tree m.directory
  let e ← CompileError.ofPass (Fold.evaluate n.tree m.directory m.config.fuel)
  match e.outcome with
  | .exhausted passes => throw (.fuelExhausted passes)
  | .finished stats =>
    pure
      { m with
        tree := e.tree
        diagnostics := m.diagnostics ++ n.diagnostics ++ e.diagnostics
        normalized := n.count
        stats }

end BoundModule

/-- Resolves the dependencies and checks the module. -/
def FoldedModule.resolve (m : FoldedModule) : Except CompileError ResolvedModule := do
  let r ← CompileError.ofPass (m.tree.resolve m.directory)
  let (finalizer, tree) ← CompileError.ofPass
    (Interruption.after r.diagnostics
      (Finalizer.analyze r.tree m.directory m.config.finalizer))
  let checks := Check.handlers tree m.directory ++ Check.formats tree ++
    Check.dependencyCycles tree m.directory
  pure
    { m with
      tree
      diagnostics := m.diagnostics ++ r.diagnostics ++ checks
      finalizer }

/-- The module, unless errors were reported. -/
def ResolvedModule.result (m : ResolvedModule) : Except CompileError ResolvedModule :=
  if m.isValid then .ok m
  else .error (.failed (Diagnostic.counts m.diagnostics).errors)

/-- Runs all stages. -/
def compile (t : Tree) (sources : SourceMap) (config : Config) :
    Except CompileError ResolvedModule := do
  let bound ← bindModule t sources config
  let folded ← bound.fold
  folded.resolve

end StackTemplate
