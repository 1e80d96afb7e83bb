import StackTemplate.Diagnostic.Basic
import StackTemplate.Format.Segment
import StackTemplate.Tree.Walk

/-!
# Formats

Every interpolated string whose format is malformed is reported at the malformed part.
-/

namespace StackTemplate.Check

/-- Reports the format of the interpolated string at an id. -/
def formatReport? (t : Tree) (id : NodeId) : Option Diagnostic :=
  match t.expr? id with
  | some (.sub format _) =>
    match Format.segments format with
    | .error m =>
      some (Diagnostic.report .malformedInterpolation ((t.span id).part m.offset m.length))
    | .ok _ => none
  | _ => none

/-- Reports all malformed formats. -/
def formats (t : Tree) : List Diagnostic := t.exprs.filterMap (formatReport? t)

end StackTemplate.Check
