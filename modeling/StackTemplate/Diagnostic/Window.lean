/-!
# The shown part of long lines

A page has a fixed number of columns. Source lines that do not fit, or that start far to the right,
are shown through a window: the columns before it are left out, and in lines that are too long
those behind it. Dots stand in the first and last columns of the window where something is missing.

The window is chosen once for all lines that are shown together, so that columns line up. It keeps
six columns of room around what must be seen, and gives up the least important first: indentation
before the first mark, then what surrounds the marks and their labels, then the labels. Of a mark
that is longer than two pages only the ends are shown.
-/

namespace StackTemplate.Diagnostic

/-- What the marked lines take up together; columns are counted from zero. -/
structure Extent where
  /-- The smallest indentation. -/
  indent : Nat
  /-- The first marked column. -/
  first : Nat
  /-- The column behind the last marked one. -/
  last : Nat
  /-- The column behind the last label. -/
  labelEnd : Nat
  /-- The columns of the longest line. -/
  longest : Nat
deriving DecidableEq, Inhabited

/-- A range of columns. -/
structure Window where
  /-- The first column. -/
  left : Nat
  /-- The column behind the last one, for lines that are too long. -/
  right : Nat
  /-- The number of columns of the page. -/
  width : Nat
deriving DecidableEq, Inhabited

namespace Window

/-- The columns of room around what must be seen. -/
def room : Nat := 6

/-- The window on lines of some extent on a page of `width` columns. Indentation that is marked
must be seen, so only what stands before the first mark counts. -/
def choose (width : Nat) (e : Extent) : Window :=
  let indent := min e.indent e.first - room
  let first := e.first - room
  let last := e.last + room
  let labelEnd := e.labelEnd + room
  let start := if 20 < indent then indent - 16 else 0
  if max e.longest start - start ≤ width then
    { left := start, right := max e.longest start, width }
  else if labelEnd - indent ≤ width then
    { left := indent, right := indent + width, width }
  else if labelEnd - first ≤ width then
    let left := first - (width - (labelEnd - first)) / 2
    { left, right := left + width, width }
  else if last - first ≤ width then
    let left := first - (width - (last - first)) / 5 * 2
    { left, right := left + width, width }
  else { left := first, right := last, width }

/-- The columns that are left out at the start of a line of some length. -/
def skipped (w : Window) (length : Nat) : Nat := min w.left length

/-- The column behind the last shown one of a line of some length. -/
def stop (w : Window) (length : Nat) : Nat :=
  if length - w.left ≤ w.width then length else min length w.right

/-- What stands for missing columns. -/
def dots : List Char := ['.', '.', '.']

/-- The shown part of a line. -/
def cut (w : Window) (line : List Char) : List Char :=
  let stop := w.stop line.length
  let part := (line.take stop).drop (w.skipped line.length)
  let part := if 0 < w.left then dots ++ part.drop dots.length else part
  if stop < line.length then part.take (part.length - dots.length) ++ dots else part

/-- The columns to leave out of the middle of a mark that starts at `column` and is `length` columns
long, if it is too long: a third of the page stays at each end, and never less than five columns. -/
def middle? (w : Window) (column length : Nat) : Option (Nat × Nat) :=
  let kept := max (w.width / 3) 5
  if 2 * w.width < length && 10 < length then some (column + kept, column + length - kept) else none

/-- A line with dots for a range of its columns. A line that ends inside the range stays. -/
def leaveOut (range : Nat × Nat) (line : List Char) : List Char :=
  if range.2 ≤ line.length then line.take range.1 ++ dots ++ line.drop range.2 else line

end Window

end StackTemplate.Diagnostic
