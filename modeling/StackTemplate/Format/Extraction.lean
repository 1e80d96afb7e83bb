import StackTemplate.Diagnostic.Basic
import StackTemplate.Format.Placeholder
import StackTemplate.Tree.Substitute

/-!
# Extracting placeholders

Every placeholder of an interpolated string that does not name a local parameter is given a fresh
one, `P1`, `P2` and so on, bound to an explicit reference or attribute look-up. Afterwards all
placeholders name local parameters, or are the reported ones that ask for an attribute of a local
parameter. Malformed formats are left as they are.
-/

namespace StackTemplate.Format

/-- A placeholder name that gets a parameter of its own. -/
structure Extraction where
  /-- The name in the placeholder. -/
  name : String
  /-- The fresh parameter. -/
  parameter : String
  /-- The bytes of the format before its first occurrence. -/
  offset : Nat
  /-- The bytes of its first occurrence. -/
  length : Nat
deriving DecidableEq, Inhabited

/-- The name of the fresh parameter with a number. -/
def numberedParameter (n : Nat) : String := s!"P{n}"

/-- The next number after `n` whose parameter is not taken, `tries` numbers at most. -/
def nextFree (taken : List String) : (tries : Nat) → (n : Nat) → Nat
  | 0, n => n + 1
  | tries + 1, n =>
    if taken.contains (numberedParameter (n + 1)) then nextFree taken tries (n + 1) else n + 1

/-- The progress of an extraction through the segments of a format. -/
structure Extracting where
  /-- The extractions so far, in order. -/
  found : List Extraction := []
  /-- The number of the latest fresh parameter. -/
  last : Nat := 0
  /-- Attributes asked of local parameters: the parameter, and where. -/
  misuses : List (String × Nat × Nat) := []
deriving Inhabited

/-- Looks at a segment. -/
def Extracting.step (parameters : Table NodeId) (s : Extracting) (segment : Segment) :
    Extracting :=
  match segment.placeholder? with
  | none => s
  | some name =>
    if parameters.contains name || s.found.any (·.name = name) then s
    else
      let length := segment.raw.utf8ByteSize
      match localOwner? parameters name with
      | some owner => { s with misuses := s.misuses ++ [(owner, segment.offset, length)] }
      | none =>
        let last := nextFree parameters.keys parameters.size s.last
        let extraction :=
          { name, parameter := numberedParameter last, offset := segment.offset, length }
        { s with found := s.found ++ [extraction], last }

/-- The extractions and misuses of the segments of a format. -/
def extracting (parameters : Table NodeId) (segments : List Segment) : Extracting :=
  segments.foldl (Extracting.step parameters) {}

/-- The look-up that a placeholder name means. -/
def lookUp (directory : Directory) (name : String) : Expr :=
  match splitTarget directory name with
  | (target, some attributeName) => .getAtt target attributeName
  | (target, none) => .ref target

/-- The format with the extracted names replaced by their parameters. -/
def withParameters (found : List Extraction) (format : String) : Except Malformed String :=
  replacePlaceholders
    (fun name => (found.find? (·.name = name)).map fun e => placeholderText e.parameter) format

/-- The parameters of a string with those of the extractions added. -/
def addParameters (parameters : Table NodeId) (found : List Extraction) (ids : List NodeId) :
    Table NodeId :=
  (found.zip ids).foldl (fun table (e, id) => table.insert e.parameter id) parameters

/-- The progress of a pass over the interpolated strings of a tree. -/
structure Normalizing where
  tree : Tree
  staged : Replacements := []
  diagnostics : List Diagnostic := []
deriving Inhabited

/-- Reports the misuses in the string at a node. -/
def misuseReports (span : Span) (misuses : List (String × Nat × Nat)) : List Diagnostic :=
  misuses.map fun (owner, offset, length) =>
    (Diagnostic.report .attributeOnLocalParameter (span.part offset length)).detail owner

/-- Extracts the placeholders of the string at a node and stages its replacement. -/
def Normalizing.step (directory : Directory) (s : Normalizing) (id : NodeId) : Normalizing :=
  match s.tree.expr? id with
  | some (.sub format parameters) =>
    match segments format with
    | .error _ => s
    | .ok pieces =>
      let span := s.tree.span id
      let found := (extracting parameters pieces).found
      let s := { s with
        diagnostics := s.diagnostics ++
          misuseReports span (extracting parameters pieces).misuses }
      match found, withParameters found format with
      | _ :: _, .ok format =>
        let (ids, tree) := Tree.addEach
          (fun (e : Extraction) t => t.addExpr (lookUp directory e.name)
            (span.part e.offset e.length)) found s.tree
        let (new, tree) := tree.addExpr (.sub format (addParameters parameters found ids)) span
        { s with tree, staged := (id, new) :: s.staged }
      | _, _ => s
  | _ => s

/-- A tree whose interpolated strings name local parameters only. -/
structure Normalized where
  tree : Tree
  /-- The number of replaced strings. -/
  count : Nat
  diagnostics : List Diagnostic
deriving Inhabited

/-- Extracts the placeholders of all interpolated strings within reach. -/
def normalize (t : Tree) (directory : Directory) : Normalized :=
  let s := t.exprs.foldl (Normalizing.step directory) { tree := t }
  let (count, tree) := s.tree.apply s.staged
  { tree, count, diagnostics := s.diagnostics }

end StackTemplate.Format
