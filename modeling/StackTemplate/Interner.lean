import StackTemplate.Fault

/-!
# Interned names

An interner numbers the names it meets in the order of their first appearance. Graphs use the
numbers as their vertices.
-/

namespace StackTemplate

/-- The number of a name in an interner. -/
structure Symbol where
  /-- The position of the name. -/
  index : Nat
deriving DecidableEq, Inhabited

/-- Names in the order of their first appearance. -/
structure Interner where
  /-- The names; the symbol of a name is its position. -/
  names : List String := []
deriving DecidableEq, Inhabited

namespace Interner

/-- The symbol of a name, a new one if the name was not met before. -/
def intern (t : Interner) (name : String) : Symbol × Interner :=
  match t.names.findIdx? (· == name) with
  | some i => (⟨i⟩, t)
  | none => (⟨t.names.length⟩, ⟨t.names ++ [name]⟩)

/-- The name behind a symbol of this interner. -/
def name? (t : Interner) (s : Symbol) : Option String := t.names[s.index]?

/-- The name behind a symbol, which must come from this interner. -/
def resolve (t : Interner) (s : Symbol) : Except Fault String :=
  match t.name? s with
  | some name => .ok name
  | none => .error (.foreignSymbol t.names.length s.index)

end Interner

end StackTemplate
