import StackTemplate.Fault
import StackTemplate.Graph.Components

/-!
# The search with a map of low links

The search for components hands the low link of a vertex on as a result. This one keeps the low
links of all vertices in a map, looks each of them up when it is needed, and faults if there is
none. It runs out of levels only where a vertex is left without a low link, and then the look-up
after it faults. The proofs show that none does, and that both searches find the same.
-/

namespace StackTemplate

namespace NameGraph

/-! ### Progress -/

/-- The progress of a search for components that keeps the low links. -/
structure Finder extends Descent where
  /-- The low links of the vertices entered so far, the latest first. -/
  lowLinks : List (Symbol × Nat) := []
deriving DecidableEq, Inhabited

namespace Finder

/-- The low link of a vertex, if it has one. -/
def lowLink? (s : Finder) (v : Symbol) : Option Nat := s.lowLinks.lookup v

/-- The number of a vertex, which must have been entered. -/
def number (s : Finder) (v : Symbol) : Except Fault Nat :=
  match s.number? v with
  | some number => .ok number
  | none => .error .missingKey

/-- The low link of a vertex, which must have been entered. -/
def lowLink (s : Finder) (v : Symbol) : Except Fault Nat :=
  match s.lowLink? v with
  | some low => .ok low
  | none => .error .missingKey

/-- Sets the low link of a vertex. -/
def setLowLink (s : Finder) (v : Symbol) (low : Nat) : Finder :=
  { s with lowLinks := (v, low) :: s.lowLinks }

/-- Enters a vertex. Its number is its first low link. -/
def enter (s : Finder) (v : Symbol) : Finder :=
  { toDescent := s.toDescent.enter v, lowLinks := (v, s.numbers.length) :: s.lowLinks }

/-- Takes what the stack holds down to a vertex as a component. -/
def close (s : Finder) (v : Symbol) : Finder := { s with toDescent := s.toDescent.close v }

end Finder

/-! ### Searching -/

/-- Takes a successor `w` of the vertex `v` into account. `connect` is the search from a vertex that
was not entered before. -/
def followChecked (connect : Finder → Symbol → Except Fault Finder) (v : Symbol) (s : Finder)
    (w : Symbol) : Except Fault Finder :=
  if (s.number? w).isNone then do
    let s ← connect s w
    let low ← s.lowLink v
    let below ← s.lowLink w
    pure (s.setLowLink v (min low below))
  else if s.stack.contains w then do
    let low ← s.lowLink v
    let number ← s.number w
    pure (s.setLowLink v (min low number))
  else pure s

/-- Enters a vertex, follows its edges in order, and takes its component if its low link is its own
number. The search goes `depth` levels deep. -/
def connectChecked (g : NameGraph) : (depth : Nat) → Finder → Symbol → Except Fault Finder
  | 0, s, _ => pure s
  | depth + 1, s, v => do
    let s ← (g.successors v).foldlM (followChecked (g.connectChecked depth) v) (s.enter v)
    let low ← s.lowLink v
    let number ← s.number v
    pure (if low = number then s.close v else s)

/-- Searches from a vertex, unless it was entered before. -/
def visitChecked (g : NameGraph) (s : Finder) (v : Symbol) : Except Fault Finder :=
  if (s.number? v).isSome then pure s else g.connectChecked g.searchDepth s v

/-- The search from all vertices in order. -/
def fullDescentChecked (g : NameGraph) : Except Fault Finder :=
  g.vertices.foldlM g.visitChecked {}

end NameGraph

end StackTemplate
