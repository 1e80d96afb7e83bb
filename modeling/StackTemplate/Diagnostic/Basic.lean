import StackTemplate.Diagnostic.Kind
import StackTemplate.Span

/-!
# Diagnostics

What a compilation has to say about a module. No mistake in a module stops a pass: passes report
and go on, and a diagnostic is shown on one line with its place, related places and hints.
-/

namespace StackTemplate

/-- A remark on another place. -/
structure Related where
  message : String
  span : Span
deriving DecidableEq, Inhabited

/-- A remark on a place in the module. -/
structure Diagnostic where
  kind : DiagnosticKind
  span : Span
  message : String
  related : List Related := []
  hints : List String := []
deriving DecidableEq, Inhabited

namespace Diagnostic

/-- A diagnostic with the fallback message and the hint of its kind. -/
def report (kind : DiagnosticKind) (span : Span) : Diagnostic :=
  { kind, span, message := kind.fallback, hints := kind.hint?.toList }

/-- Lets the message name a detail. -/
def detail (d : Diagnostic) (detail : String) : Diagnostic :=
  { d with message := d.kind.detailed detail }

/-- Adds a related place. -/
def relatedTo (d : Diagnostic) (message : String) (span : Span) : Diagnostic :=
  { d with related := d.related ++ [{ message, span }] }

/-- Adds a hint. -/
def hint (d : Diagnostic) (text : String) : Diagnostic :=
  { d with hints := d.hints ++ [text] }

/-- The severity of its kind. -/
def severity (d : Diagnostic) : Severity := d.kind.severity

/-- Whether it is an error. -/
def isError (d : Diagnostic) : Bool := d.severity == .error

/-- Whether it is a warning. -/
def isWarning (d : Diagnostic) : Bool := d.severity == .warning

/-- A message at a range of bytes. -/
def placed (start stop : Nat) : String := s!"{start}..{stop}"

/-- The diagnostic on one line. -/
def text (d : Diagnostic) : String :=
  let related := d.related.map fun r =>
    " (related: " ++ r.message ++ " at " ++ placed r.span.start r.span.stop ++ ")"
  let hints := d.hints.map fun h => " (hint: " ++ h ++ ")"
  d.severity.text ++ " at " ++ placed d.span.start d.span.stop ++ ": " ++ d.message ++
    String.join related ++ String.join hints

/-- A list of diagnostics, one line each. -/
def plainText (ds : List Diagnostic) : String :=
  "\n".intercalate (ds.map text)

/-- How many diagnostics of each severity a list holds. -/
structure Counts where
  total : Nat
  errors : Nat
  warnings : Nat
deriving DecidableEq, Inhabited

/-- Counts a list of diagnostics. -/
def counts (ds : List Diagnostic) : Counts :=
  { total := ds.length, errors := ds.countP isError, warnings := ds.countP isWarning }

/-- The number of diagnostics of one kind. -/
def countOf (kind : DiagnosticKind) (ds : List Diagnostic) : Nat :=
  ds.countP (·.kind = kind)

end Diagnostic

/-- A fault that stopped a pass, and what the pass had reported by then. -/
structure Interruption where
  fault : Fault
  reported : List Diagnostic := []
deriving DecidableEq

/-- The outcome of a step of a pass that has already reported something. -/
def Interruption.after {α : Type} (reported : List Diagnostic) :
    Except Fault α → Except Interruption α
  | .ok a => .ok a
  | .error fault => .error { fault, reported }

end StackTemplate
