import StackTemplate.Diagnostic.Basic
import StackTemplate.Fold.Reduct
import StackTemplate.Tree.Substitute

/-!
# Folding passes

A pass goes over all expressions within reach in document order, makes the replacement of each one
that can be folded, and then applies all replacements at once. It reports aliases that lead back to
themselves, each once, and conditions of `if` expressions that are constant without being the
answer of an existence check, once for each place in the source.
-/

namespace StackTemplate.Fold

/-- The state between two passes. -/
structure Folding where
  tree : Tree
  /-- The passes run so far. -/
  passes : Nat := 0
  /-- The slots changed so far. -/
  substitutions : Nat := 0
  /-- The circular aliases reported so far. -/
  reported : List String := []
  /-- The places of the constant conditions reported so far. -/
  warned : List Span := []
  diagnostics : List Diagnostic := []
deriving Inhabited

/-! ### Staging -/

/-- Makes the replacement of the expression at an id, if it is folded in the tree `start` that the
pass began with. -/
def stage (start : Tree) (directory : Directory) (cyclic : List String)
    (sofar : Replacements × Tree) (id : NodeId) : Replacements × Tree :=
  match (start.expr? id).bind (reduct? start directory cyclic) with
  | none => sofar
  | some r =>
    let (new, t) := r.realise (start.span id) sofar.2
    ((id, new) :: sofar.1, t)

/-- Makes all replacements of a pass, in document order. -/
def stageAll (t : Tree) (directory : Directory) (cyclic : List String) : Replacements × Tree :=
  t.exprs.foldl (stage t directory cyclic) ([], t)

/-! ### Reports -/

/-- Reports the circular aliases that were not reported before. -/
def aliasReports (t : Tree) (directory : Directory) (reported cyclic : List String) :
    List Diagnostic :=
  (cyclic.filter fun name => !reported.contains name).filterMap fun name =>
    (directory.get? name).map fun id =>
      (Diagnostic.report .circularReference (t.span id)).detail name

/-- The truth value that the expression at an id branches on, if it is a constant that deserves a
warning. -/
def constantCondition? (t : Tree) (id : NodeId) : Option Bool :=
  match t.expr? id with
  | some (.ifElse condition _ _) =>
    match t.literal? condition with
    | some l => if l.fromExistenceCheck then none else l.asBool?
    | none => none
  | _ => none

/-- Warns of the constant condition at an id, unless there was a warning for its place. -/
def warn (t : Tree) (sofar : List Span × List Diagnostic) (id : NodeId) :
    List Span × List Diagnostic :=
  match constantCondition? t id with
  | none => sofar
  | some b =>
    let span := t.span id
    if sofar.1.contains span then sofar
    else
      (sofar.1 ++ [span],
       sofar.2 ++ [(Diagnostic.report .constantCondition span).detail (Value.boolText b)])

/-! ### Passes -/

/-- Runs one pass; the number of slots that it changed comes first. -/
def Folding.pass (directory : Directory) (s : Folding) : Nat × Folding :=
  let t := s.tree
  let cyclic := cyclicAliases t directory
  let circular := aliasReports t directory s.reported cyclic
  let (warned, warnings) := t.exprs.foldl (warn t) (s.warned, [])
  let (staged, grown) := stageAll t directory cyclic
  let (count, tree) := grown.apply staged
  (count,
   { tree
     passes := s.passes + 1
     substitutions := s.substitutions + count
     reported := s.reported ++ cyclic.filter fun name => !s.reported.contains name
     warned
     diagnostics := s.diagnostics ++ circular ++ warnings })

/-- Runs passes until one changes nothing, as many as the fuel allows. The flag says whether one
did change nothing. -/
def Folding.run (directory : Directory) : (fuel : Nat) → Folding → Bool × Folding
  | 0, s => (false, s)
  | fuel + 1, s =>
    let (count, s) := s.pass directory
    if count = 0 then (true, s) else s.run directory fuel

end StackTemplate.Fold
