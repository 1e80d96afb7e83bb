import StackTemplate.Diagnostic.Basic
import StackTemplate.Directory
import StackTemplate.Tree.Walk

/-!
# Handlers

The handler of a macro or resource type must refer to a function, by a reference or by an attribute
look-up. A handler that names nothing is left to dependency resolution, which reports it.
-/

namespace StackTemplate.Check

/-- The handler of a macro or resource type. -/
def handler? (d : Decl) : Option NodeId :=
  match d.kind with
  | .macroItem handler | .resourceType handler .. => some handler
  | _ => none

/-- What the handler named `name` is, if it is declared and not a function. -/
def namedMismatch? (t : Tree) (directory : Directory) (name : String) : Option String := do
  let d ← (directory.get? name).bind t.decl?
  match d.kind with
  | .function _ => none
  | kind => some (kind.keyword ++ " `" ++ name ++ "`")

/-- What a handler is, if it is not a function. -/
def handlerMismatch? (t : Tree) (directory : Directory) (handler : NodeId) : Option String :=
  match t.expr? handler with
  | some (.ref name) | some (.getAtt name _) => namedMismatch? t directory name
  | some other => some other.keyword
  | none => some "a declaration"

/-- Reports the handler of the declaration at an id. -/
def handlerReport? (t : Tree) (directory : Directory) (id : NodeId) : Option Diagnostic := do
  let handler ← (t.decl? id).bind handler?
  let found ← handlerMismatch? t directory handler
  some ((Diagnostic.report .handlerNotFunction (t.span handler)).detail found)

/-- Reports all handlers that are not functions. -/
def handlers (t : Tree) (directory : Directory) : List Diagnostic :=
  t.decls.filterMap (handlerReport? t directory)

end StackTemplate.Check
