/-!
# Names of items

An item is named by the path of the groups around it, joined by dots. Some names are provided by
every template and are always defined.
-/

namespace StackTemplate

/-- The full name of an item inside a scope; an empty scope adds nothing. -/
def scopedName (scope : Option String) (own : String) : String :=
  match scope with
  | some outer => if outer.isEmpty then own else outer ++ "." ++ own
  | none => own

/-- The names that every template provides. -/
def pseudoParameters : List String :=
  ["AWS::AccountId", "AWS::NoValue", "AWS::NotificationARNs", "AWS::Partition", "AWS::Region",
   "AWS::StackId", "AWS::StackName", "AWS::URLSuffix"]

/-- The pseudo parameter that removes the property it is chosen for. -/
def noValueName : String := "AWS::NoValue"

/-- Whether every template provides the name. -/
def isPseudoParameter (name : String) : Bool :=
  pseudoParameters.contains name

end StackTemplate
