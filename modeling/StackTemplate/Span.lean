import StackTemplate.Fault

/-!
# Source positions

A span is a range of bytes in one of the registered sources. Its start never lies after its stop;
that is part of the type.
-/

namespace StackTemplate

/-- A range of bytes in a source. -/
structure Span where
  /-- The number of the source. -/
  source : Nat
  /-- The first byte. -/
  start : Nat
  /-- The byte after the last one. -/
  stop : Nat
  /-- The range is not reversed. -/
  start_le_stop : start ≤ stop
deriving DecidableEq

/-- The empty span at the start of the first source. -/
instance : Inhabited Span := ⟨⟨0, 0, 0, Nat.le_refl 0⟩⟩

namespace Span

/-- The span with these ends, unless they are reversed. -/
def ofEnds (source start stop : Nat) : Except Fault Span :=
  if h : start ≤ stop then .ok ⟨source, start, stop, h⟩ else .error .reversedSpan

/-- Positions are 32 bits wide. -/
def positionLimit : Nat := 4294967296

/-- The part that starts `offset` bytes into the span and is `length` bytes long. It points at a
piece of the text at the span, such as one placeholder of an interpolated string. Both counts are
taken to 32 bits. The sums are not: a part that would end beyond the last position points at nothing,
and what is said of parts is said of those that end before it (`part_eq`). -/
def part (s : Span) (offset length : Nat) : Span :=
  let start := s.start + offset % positionLimit
  ⟨s.source, start, start + length % positionLimit, Nat.le_add_right _ _⟩

/-- A part that ends before positions do is where it is said to be. -/
theorem part_eq {s : Span} {offset length : Nat}
    (h : s.start + offset + length < positionLimit) :
    s.part offset length =
      ⟨s.source, s.start + offset, s.start + offset + length, Nat.le_add_right _ _⟩ := by
  simp only [part, Nat.mod_eq_of_lt (by omega : offset < positionLimit),
    Nat.mod_eq_of_lt (by omega : length < positionLimit)]

end Span

end StackTemplate
