/-!
# Registered sources

The texts that a module was read from, numbered in the order in which they were registered.
Diagnostics are shown against them.
-/

namespace StackTemplate

/-- A source text and, if it came from a file, its path. -/
structure Source where
  /-- The path of the file; a text made in memory has none. -/
  path : Option String
  /-- The text. -/
  content : String
deriving DecidableEq, Inhabited

/-- The name under which diagnostics show the source. -/
def Source.displayName (s : Source) : String :=
  s.path.getD "<module>"

/-- The sources of a compilation. The number of a source is its position. -/
structure SourceMap where
  /-- All sources, in the order of their numbers. -/
  sources : List Source := []
deriving DecidableEq, Inhabited

namespace SourceMap

/-- The number of sources. -/
def size (m : SourceMap) : Nat := m.sources.length

/-- The source with a number. -/
def get? (m : SourceMap) (id : Nat) : Option Source := m.sources[id]?

/-- Registers a source; the answer is its number. -/
def add (m : SourceMap) (s : Source) : Nat × SourceMap :=
  (m.size, ⟨m.sources ++ [s]⟩)

/-- The sources with their numbers. -/
def numbered (m : SourceMap) : List (Nat × Source) :=
  m.sources.zipIdx.map fun (s, i) => (i, s)

end SourceMap

end StackTemplate
