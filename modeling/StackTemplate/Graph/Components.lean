import StackTemplate.Graph.Basic

/-!
# Strongly connected components

Two vertices belong together if each can be reached from the other. One depth-first search finds the
components. It numbers the vertices as it enters them, and keeps those that are in no component yet
on a stack. The low link of a vertex is the least number on the stack that the search from it comes
upon. If that is its own number, then nothing it leads to leads below it, and what the stack holds
from it upwards is a component. So a component comes after all components that its edges lead to.

A component is a cycle if it has several members, or one with an edge to itself.
-/

namespace StackTemplate

namespace NameGraph

/-! ### Progress -/

/-- The progress of a search for components. -/
structure Descent where
  /-- The vertices entered so far with their numbers, the latest first. -/
  numbers : List (Symbol × Nat) := []
  /-- The vertices entered that are in no component yet, the latest first. -/
  stack : List Symbol := []
  /-- The components found so far, oldest first. -/
  found : List (List Symbol) := []
deriving DecidableEq, Inhabited

namespace Descent

/-- The number of a vertex, if it was entered. -/
def number? (s : Descent) (v : Symbol) : Option Nat := s.numbers.lookup v

/-- Gives a vertex the next number and puts it on the stack. -/
def enter (s : Descent) (v : Symbol) : Descent :=
  { s with numbers := (v, s.numbers.length) :: s.numbers, stack := v :: s.stack }

/-- What a stack holds down to a vertex, the vertex included, and the rest of the stack. -/
def popThrough (v : Symbol) : List Symbol → List Symbol × List Symbol
  | [] => ([], [])
  | w :: stack =>
    if w = v then ([w], stack)
    else
      let (members, rest) := popThrough v stack
      (w :: members, rest)

/-- Takes what the stack holds down to a vertex as a component. -/
def close (s : Descent) (v : Symbol) : Descent :=
  let (members, rest) := popThrough v s.stack
  { s with stack := rest, found := s.found ++ [members] }

end Descent

/-! ### Searching -/

/-- Takes a successor of a vertex into account, with the low link of the vertex so far. `connect` is
the search from a vertex that was not entered before. -/
def follow (connect : Descent → Symbol → Nat × Descent) :
    Nat × Descent → Symbol → Nat × Descent
  | (low, s), w =>
    match s.number? w with
    | none =>
      let (below, s) := connect s w
      (min low below, s)
    | some number => (if s.stack.contains w then min low number else low, s)

/-- Enters a vertex, follows its edges in order, and takes its component if its low link is its own
number. The low link is returned, too. The search goes `depth` levels deep; every level enters a new
vertex. -/
def connect (g : NameGraph) : (depth : Nat) → Descent → Symbol → Nat × Descent
  | 0, s, _ => (s.numbers.length, s)
  | depth + 1, s, v =>
    let number := s.numbers.length
    let (low, s) := (g.successors v).foldl (follow (g.connect depth)) (number, s.enter v)
    (low, if low = number then s.close v else s)

/-- A depth that no search exceeds. -/
def searchDepth (g : NameGraph) : Nat := g.names.names.length + 1

/-- Searches from a vertex, unless it was entered before. -/
def visit (g : NameGraph) (s : Descent) (v : Symbol) : Descent :=
  if (s.number? v).isSome then s else (g.connect g.searchDepth s v).2

/-- The search from all vertices in order. -/
def fullDescent (g : NameGraph) : Descent := g.vertices.foldl g.visit {}

/-! ### Components -/

/-- The strongly connected components. They come in the order in which the search leaves the vertex
by which it entered each; the members of each, the latest entered first. -/
def components (g : NameGraph) : List (List Symbol) := g.fullDescent.found

/-- Whether a component is a cycle. -/
def isCycle (g : NameGraph) : List Symbol → Bool
  | [] => false
  | [v] => g.hasEdge v v
  | _ :: _ :: _ => true

/-- The components that are cycles, the members of each in the order of the vertices. -/
def cycles (g : NameGraph) : List (List Symbol) :=
  (g.components.filter g.isCycle).map fun members => g.vertices.filter members.contains

/-- The names on cycles, cycle by cycle. -/
def cyclicNames (g : NameGraph) : List String :=
  g.cycles.flatten.map g.nameOf

end NameGraph

end StackTemplate
