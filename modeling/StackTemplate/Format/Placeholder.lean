import StackTemplate.Directory
import StackTemplate.Format.Segment
import StackTemplate.Name
import StackTemplate.Text.Split

/-!
# What placeholders name

A placeholder names a local parameter, or an item, or an attribute of an item. A dotted name whose
first part is a local parameter is a mistake, since local parameters have no attributes; such
placeholders are reported once and otherwise left as they are.
-/

namespace StackTemplate.Format

/-- The local parameter whose attribute a placeholder asks for, if it does. -/
def localOwner? (parameters : Table NodeId) (name : String) : Option String :=
  if parameters.contains name then none
  else
    match Text.cutAtFirstDot? name with
    | some (owner, _) => if parameters.contains owner then some owner else none
    | none => none

/-- Whether some placeholder of a well-formed format asks for an attribute of a local
parameter. -/
def hasLocalAttribute (format : String) (parameters : Table NodeId) : Bool :=
  match placeholders format with
  | .ok names => names.any fun name => (localOwner? parameters name).isSome
  | .error _ => false

/-- The item that a name means, and the attribute of it if there is one. A declared name or a
pseudo parameter means itself; in any other name the part after the last dot is an attribute. -/
def splitTarget (directory : Directory) (name : String) : String × Option String :=
  if directory.contains name || isPseudoParameter name then (name, none)
  else
    match Text.cutAtLastDot? name with
    | some (target, attributeName) => (target, some attributeName)
    | none => (name, none)

/-- The items that the placeholders of a format name directly, in order; a malformed format names
none. -/
def directTargets (directory : Directory) (format : String) (parameters : Table NodeId) :
    List String :=
  match placeholders format with
  | .error _ => []
  | .ok names =>
    (names.filter fun name =>
      !parameters.contains name && (localOwner? parameters name).isNone).map
      fun name => (splitTarget directory name).1

end StackTemplate.Format
