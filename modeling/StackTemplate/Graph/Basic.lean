import StackTemplate.Interner

/-!
# Graphs over names

A directed graph whose vertices are interned names. Vertices stand in the order in which their
names came in, and the successors of a vertex in the order in which its edges did.
-/

namespace StackTemplate

/-- A directed graph over names. -/
structure NameGraph where
  /-- The names of the vertices. -/
  names : Interner := {}
  /-- The edges without repetition, oldest first. -/
  edges : List (Symbol × Symbol) := []
deriving DecidableEq, Inhabited

namespace NameGraph

/-- All vertices in the order of their names. -/
def vertices (g : NameGraph) : List Symbol := (List.range g.names.names.length).map Symbol.mk

/-- The targets of the edges from a vertex, oldest first. -/
def successors (g : NameGraph) (v : Symbol) : List Symbol :=
  g.edges.filterMap fun (a, b) => if a = v then some b else none

/-- Whether there is an edge between two vertices. -/
def hasEdge (g : NameGraph) (a b : Symbol) : Bool := g.edges.contains (a, b)

/-- The name of a vertex. -/
def nameOf (g : NameGraph) (v : Symbol) : String := (g.names.name? v).getD ""

/-- Adds a vertex for a name, unless there is one; the vertex comes first. -/
def addNode (g : NameGraph) (name : String) : Symbol × NameGraph :=
  let (v, names) := g.names.intern name
  (v, { g with names })

/-- Adds an edge between the vertices of two names, unless there is one. -/
def addEdge (g : NameGraph) (source target : String) : NameGraph :=
  let (a, g) := g.addNode source
  let (b, g) := g.addNode target
  if g.hasEdge a b then g else { g with edges := g.edges ++ [(a, b)] }

end NameGraph

end StackTemplate
