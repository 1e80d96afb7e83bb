/-!
# Kinds of diagnostics

Each kind has a severity, a message that may name a detail, and sometimes a hint. The kinds are
ranked: problems of binding come first, because everything later rests on the names it gives.
-/

namespace StackTemplate

/-- How serious a diagnostic is. -/
inductive Severity where
  | error
  | warning
deriving DecidableEq, Inhabited

/-- The word for a severity. -/
def Severity.text : Severity → String
  | .error => "error"
  | .warning => "warning"

/-- What a diagnostic is about, in order of priority. -/
inductive DiagnosticKind where
  | duplicateDefinition
  | malformedInterpolation
  | attributeOnLocalParameter
  | undefinedReference
  | circularReference
  | circularDependency
  | handlerNotFunction
  | constantCondition
deriving DecidableEq, Inhabited

namespace DiagnosticKind

/-- All kinds, highest priority first. -/
def all : List DiagnosticKind :=
  [.duplicateDefinition, .malformedInterpolation, .attributeOnLocalParameter,
   .undefinedReference, .circularReference, .circularDependency, .handlerNotFunction,
   .constantCondition]

/-- The members of a list, highest priority first; repetitions stay. -/
def byPriority (kinds : List DiagnosticKind) : List DiagnosticKind :=
  all.flatMap fun kind => kinds.filter (· = kind)

/-- Only an observation of constant conditions is a warning. -/
def severity : DiagnosticKind → Severity
  | .constantCondition => .warning
  | _ => .error

/-- The hint that every diagnostic of the kind starts with. -/
def hint? : DiagnosticKind → Option String
  | .malformedInterpolation => some "use `$\x7b!Name\x7d` for a literal `$\x7bName\x7d`"
  | .constantCondition =>
    some "the condition is known at compile time; only one branch is kept"
  | .handlerNotFunction => some "the handler must reference a function declaration"
  | _ => none

/-- The message without a detail. -/
def fallback : DiagnosticKind → String
  | .duplicateDefinition => "duplicate definition"
  | .malformedInterpolation => "malformed interpolated string"
  | .attributeOnLocalParameter => "attribute access on a local parameter"
  | .undefinedReference => "reference does not exist"
  | .circularReference => "circular reference"
  | .circularDependency => "circular dependency"
  | .handlerNotFunction => "handler must be a function"
  | .constantCondition => "condition is always constant"

/-- The message that names a detail. -/
def detailed (kind : DiagnosticKind) (detail : String) : String :=
  match kind with
  | .duplicateDefinition => "`" ++ detail ++ "` is already defined"
  | .undefinedReference => "reference to `" ++ detail ++ "` does not exist"
  | .attributeOnLocalParameter => "`" ++ detail ++ "` is a local parameter and has no attributes"
  | .circularReference => "`" ++ detail ++ "` refers to itself through its own value"
  | .handlerNotFunction => "handler must be a function, found " ++ detail
  | .constantCondition => "condition is always " ++ detail
  | kind => kind.fallback ++ ": " ++ detail

/-- The detailed message with a pair of braces where the detail goes. -/
def template (kind : DiagnosticKind) : String := kind.detailed "\x7b\x7d"

/-- The message, with or without a detail. -/
def message (kind : DiagnosticKind) : Option String → String
  | none => kind.fallback
  | some detail => kind.detailed detail

end DiagnosticKind

end StackTemplate
