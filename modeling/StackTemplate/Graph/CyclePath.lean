import StackTemplate.Graph.Basic

/-!
# A closed path through a component

The shortest way from the first member of a component back to it, found breadth first among the
members. The search notes of every vertex that it sees for the first time from where. When an edge
leads back to the first member, the notes are followed from vertex to vertex until there is none.
-/

namespace StackTemplate

namespace NameGraph

/-- The progress of a search that notes where it comes from. -/
structure Tracing where
  /-- The vertices to look at. -/
  queue : List Symbol
  /-- The vertices seen so far but for the start, each with the one from which it was seen first. -/
  origins : List (Symbol × Symbol) := []
deriving DecidableEq, Inhabited

/-- Looks along the edges from `v` to the vertices of a list, one after the other. The flag says
whether one of them led to the start, after which nothing more is looked at. -/
def Tracing.look (start : Symbol) (members : List Symbol) (v : Symbol) :
    List Symbol → Tracing → Bool × Tracing
  | [], s => (false, s)
  | w :: ws, s =>
    if w ∉ members then look start members v ws s
    else if w = start then (true, s)
    else if w ∈ s.origins.map Prod.fst then look start members v ws s
    else look start members v ws { queue := s.queue ++ [w], origins := s.origins ++ [(w, v)] }

/-- Breadth-first search for an edge back to `start` among `members`, with `steps` vertices looked at:
the vertex with that edge, and the notes. -/
def traceBack (g : NameGraph) (start : Symbol) (members : List Symbol) :
    (steps : Nat) → Tracing → Option (Symbol × List (Symbol × Symbol))
  | 0, _ => none
  | steps + 1, s =>
    match s.queue with
    | [] => none
    | v :: queue =>
      match Tracing.look start members v (g.successors v) { s with queue } with
      | (true, s) => some (v, s.origins)
      | (false, s) => g.traceBack start members steps s

/-- The vertices that are passed when notes are followed from one, itself first. At most `steps`
notes are followed. -/
def backtrack (origins : List (Symbol × Symbol)) : (steps : Nat) → Symbol → List Symbol
  | 0, v => [v]
  | steps + 1, v =>
    match origins.lookup v with
    | none => [v]
    | some u => v :: backtrack origins steps u

/-- A closed path from the first member of a list through members back to it; the first member
alone if there is none. -/
def cyclePath (g : NameGraph) (members : List Symbol) : List Symbol :=
  match members with
  | [] => []
  | start :: _ =>
    match g.traceBack start members (g.names.names.length + 1) { queue := [start] } with
    | none => [start]
    | some (stop, origins) => (start :: backtrack origins origins.length stop).reverse

end NameGraph

end StackTemplate
