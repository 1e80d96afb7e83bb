import StackTemplate.Format.Placeholder
import StackTemplate.Tree.Substitute

/-!
# Turning parameters back into placeholders

When nothing is left to fold, parameters of interpolated strings that are plain references or
attribute look-ups go back into the format as placeholders. A parameter stays if its placeholder
would then be read as another parameter that stays, by its name or as an attribute of it.
-/

namespace StackTemplate.Fold

/-- The text of the placeholder that an expression can be written as. -/
def inlineTarget? : Expr → Option String
  | .ref name => some name
  | .getAtt name attributeName => some (name ++ "." ++ attributeName)
  | _ => none

/-- The parameters that can be written as placeholders, with the text of each. All parameters must
be expressions. -/
def inlineTargets (t : Tree) : List (String × NodeId) → Except Fault (List (String × String))
  | [] => pure []
  | (name, id) :: rest => do
    let e ← t.expr id
    let targets ← inlineTargets t rest
    pure (((inlineTarget? e).map fun target => (name, target)).toList ++ targets)

/-- Whether a name is a parameter that stays when the parameters in `targets` go. -/
def stays (parameters : Table NodeId) (targets : List (String × String)) (name : String) : Bool :=
  parameters.contains name && !(targets.map Prod.fst).contains name

/-- Whether a placeholder would be read as a parameter that stays, or as an attribute of one. -/
def isShadowed (parameters : Table NodeId) (targets : List (String × String))
    (target : String) : Bool :=
  stays parameters targets target ||
    match Text.cutAtFirstDot? target with
    | some (owner, _) => stays parameters targets owner
    | none => false

/-- Takes shadowed parameters out of the targets, `rounds` times. Each round keeps further
parameters, which may shadow others. -/
def settle (parameters : Table NodeId) : (rounds : Nat) → List (String × String) →
    List (String × String)
  | 0, targets => targets
  | rounds + 1, targets =>
    settle parameters rounds (targets.filter fun e => !isShadowed parameters targets e.2)

/-- The parameters that go back into the format, with the text of each. Every round but the last
takes one out, so there are enough rounds. -/
def settled (parameters : Table NodeId) (targets : List (String × String)) :
    List (String × String) :=
  settle parameters targets.length targets

/-- The format and parameters of a string after some parameters went back into the format. -/
def reinlineWith (targets : List (String × String)) (format : String)
    (parameters : Table NodeId) : Except Format.Malformed Expr :=
  (Format.replacePlaceholders (fun name => (targets.lookup name).map Format.placeholderText)
    format).map fun format =>
      .sub format (parameters.filter fun name _ => !(targets.map Prod.fst).contains name)

/-- What replaces an interpolated string, if some parameter goes back into its format. -/
def reinline? (t : Tree) (format : String) (parameters : Table NodeId) :
    Except Fault (Option Expr) :=
  if Format.hasLocalAttribute format parameters then pure none
  else do
    let targets := settled parameters (← inlineTargets t parameters.entries)
    if targets.isEmpty then pure none
    else
      match reinlineWith targets format parameters with
      | .ok e => pure (some e)
      | .error _ => pure none

/-- Makes the replacement of the string at an id. -/
def stageReinline (sofar : Replacements × Tree) (id : NodeId) : Except Fault (Replacements × Tree) :=
  match sofar.2.expr? id with
  | some (.sub format parameters) => do
    match ← reinline? sofar.2 format parameters with
    | some e =>
      let (new, t) := sofar.2.addExpr e (sofar.2.span id)
      pure ((id, new) :: sofar.1, t)
    | none => pure sofar
  | _ => pure sofar

/-- Turns parameters of all interpolated strings back into placeholders. The number of changed
slots comes first. -/
def reinline (t : Tree) : Except Fault (Nat × Tree) := do
  let (staged, grown) ← t.exprs.foldlM stageReinline ([], t)
  pure (grown.apply staged)

end StackTemplate.Fold
