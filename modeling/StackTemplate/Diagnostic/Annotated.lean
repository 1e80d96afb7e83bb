import StackTemplate.Diagnostic.Basic
import StackTemplate.Diagnostic.Window
import StackTemplate.SourceMap
import StackTemplate.Text.Blank
import StackTemplate.Text.Bytes
import StackTemplate.Text.Split
import StackTemplate.Text.Visible
import StackTemplate.Text.Width

/-!
# Diagnostics against their source

A diagnostic is shown with the lines of source it speaks of. Under each line stand marks, `^` for
the place itself and `-` for a related place, followed by a label. Line numbers fill a margin as
wide as the largest one shown, and long lines are cut to the page.

Between two marked lines one line is shown as it is, and more are left out. A place beyond the end
of the source is moved to the end. A line feed at the very end starts no further line: a place after
it is marked behind the last line.
-/

namespace StackTemplate.Diagnostic

/-! ### Places in a source -/

/-- A line of a source. -/
structure SourceLine where
  /-- Its number, from one. -/
  number : Nat
  /-- The byte it starts at. -/
  start : Nat
  /-- Its characters without the line end. -/
  text : List Char
deriving DecidableEq, Inhabited

/-- The characters of a line without a carriage return at the end. -/
def withoutReturn (text : List Char) : List Char :=
  if text.getLast? = some '\r' then text.dropLast else text

/-- Numbers the pieces between line feeds and adds up where they start. An empty piece after the
last line feed is no line, unless it is all there is. A carriage return before a line feed belongs
to the line end. -/
def numberLines : (number start : Nat) → List (List Char) → List SourceLine
  | _, _, [] => []
  | number, start, [text] => if text.isEmpty && 1 < number then [] else [{ number, start, text }]
  | number, start, text :: next :: rest =>
    { number, start, text := withoutReturn text } ::
      numberLines (number + 1) (start + Text.byteSize text + 1) (next :: rest)

/-- The lines of a source; there is always at least one. -/
def sourceLines (content : String) : List SourceLine :=
  numberLines 1 0 (Text.splitAtEvery '\n' [] content.toList)

/-- The line that a byte stands in. -/
def lineAt (lines : List SourceLine) (offset : Nat) : SourceLine :=
  ((lines.takeWhile (·.start ≤ offset)).getLast?).getD default

/-- How many characters stand before the first `bytes` bytes are used up. -/
def charsBefore : (bytes : Nat) → List Char → Nat
  | 0, _ => 0
  | _, [] => 0
  | bytes, c :: cs => 1 + charsBefore (bytes - c.utf8Size) cs

/-- The position of a byte in its line, from zero: the characters before it, and one more if it
stands behind the first byte of the line end. -/
def SourceLine.position (line : SourceLine) (offset : Nat) : Nat :=
  charsBefore (offset - line.start) line.text +
    if Text.byteSize line.text < offset - line.start then 1 else 0

/-- The column of a byte of a line as it is shown, from zero; a line end has the column behind the
text. -/
def SourceLine.column (line : SourceLine) (offset : Nat) : Nat :=
  Text.width (line.text.take (charsBefore (offset - line.start) line.text))

/-- The range of bytes to mark for a span in a source of `limit` bytes: clamped to the source, and
one byte long if it is empty and not at the end. -/
def markedRange (span : Span) (limit : Nat) : Nat × Nat :=
  let start := min span.start limit
  let stop := min span.stop limit
  if start = stop then (start, min (start + 1) limit) else (start, stop)

/-! ### Marks -/

/-- A marked place. -/
structure Mark where
  /-- The line it stands in. -/
  line : SourceLine
  /-- Its position in the line, from zero. -/
  position : Nat
  /-- The column it starts at, from zero. -/
  column : Nat
  /-- How many columns are marked. -/
  width : Nat
  /-- Whether it is the place itself and not a related one. -/
  primary : Bool
  /-- The text beside it. -/
  label : String
deriving DecidableEq, Inhabited

/-- The mark for a span; at least one column is marked. -/
def markOf (lines : List SourceLine) (limit : Nat) (primary : Bool) (label : String)
    (span : Span) : Mark :=
  let (start, stop) := markedRange span limit
  let line := lineAt lines start
  let column := line.column start
  { line, position := line.position start, column, width := max 1 (line.column stop - column),
    primary, label }

/-! ### Layout -/

/-- A run of blanks. -/
def blanks (n : Nat) : String := String.ofList (List.replicate n ' ')

/-- The characters of a line as they are shown. -/
def SourceLine.shown (line : SourceLine) : List Char := Text.visibleChars line.text

/-- The columns before the first character of a line that is not blank, if there is one. -/
def SourceLine.indent? (line : SourceLine) : Option Nat :=
  if line.text.all Text.isBlank then none
  else some (Text.visibleChars (line.text.takeWhile Text.isBlank)).length

/-- What marks and the lines they stand in take up together. -/
def extentOf (marks : List Mark) : Extent :=
  { indent := ((marks.filterMap (·.line.indent?)).min?).getD 0
    first := ((marks.map Mark.column).min?).getD 0
    last := ((marks.map fun m => m.column + m.width).max?).getD 0
    labelEnd :=
      ((marks.map fun m => m.column + m.width + Text.width m.label.toList + 1).max?).getD 0
    longest := ((marks.map (·.line.shown.length)).max?).getD 0 }

/-- How lines of source are set on a page of 140 columns: the width of the margin for their
numbers, and the columns shown beside it. -/
structure Layout where
  margin : Nat
  window : Window
deriving DecidableEq, Inhabited

/-- The layout for marks. The margin has room for the largest number of a marked line, and three
columns separate it from the source. -/
def layoutOf (marks : List Mark) : Layout :=
  let margin := (Nat.toDigits 10 (((marks.map (·.line.number)).max?).getD 0)).length
  { margin, window := .choose (140 - (margin + 3)) (extentOf marks) }

/-- The column of a mark on the page. -/
def Layout.columnOf (layout : Layout) (m : Mark) : Nat :=
  m.column - layout.window.skipped m.line.shown.length

/-- A row of a page with dots for the middle of a mark that is too long. -/
def Layout.shorten (layout : Layout) (row : List Char) (m : Mark) : List Char :=
  ((layout.window.middle? (layout.columnOf m) m.width).map (Window.leaveOut · row)).getD row

/-- A line of source that carries some marks, with its number in the margin. An empty line takes
the blank before it along. -/
def Layout.numbered (layout : Layout) (line : SourceLine) (marks : List Mark) : String :=
  let number := s!"{line.number}"
  let part := marks.foldl layout.shorten (layout.window.cut line.shown)
  let text := if part.isEmpty then "" else " " ++ String.ofList part
  blanks (layout.margin - number.length) ++ number ++ " |" ++ text

/-- The line under a marked line. An empty label is left out with the blank before it. -/
def Layout.marked (layout : Layout) (m : Mark) : String :=
  let marks := List.replicate m.width (if m.primary then '^' else '-')
  let label := if m.label.isEmpty then [] else ' ' :: m.label.toList
  let row := List.replicate (layout.columnOf m) ' ' ++ marks ++ label
  blanks layout.margin ++ " | " ++ String.ofList (layout.shorten row m)

/-- What is shown between two marked lines: nothing, the one line, or a gap. -/
def Layout.between (layout : Layout) (lines : List SourceLine) (before after : Nat) :
    List String :=
  match lines.filter fun l => before < l.number && l.number < after with
  | [] => []
  | [line] => [layout.numbered line []]
  | _ => ["..."]

/-- The marked lines in order, each followed by its marks. -/
def Layout.lines (layout : Layout) (lines : List SourceLine) (marks : List Mark) :
    Option Nat → List SourceLine → List String
  | _, [] => []
  | previous, line :: rest =>
    let gap := (previous.map fun before => layout.between lines before line.number).getD []
    let own := marks.filter (·.line.number = line.number)
    gap ++ layout.numbered line own :: own.map layout.marked ++
      layout.lines lines marks (some line.number) rest

/-- A diagnostic against the source it speaks of. -/
def annotated (d : Diagnostic) (source : Source) : String :=
  let lines := sourceLines source.content
  let limit := Text.byteSize source.content.toList
  let primary := markOf lines limit true d.message d.span
  let related := (d.related.filter (·.span.source = d.span.source)).map fun r =>
    markOf lines limit false r.message r.span
  let marks := primary :: related
  let shown := lines.filter fun l => marks.any (·.line.number = l.number)
  let layout := layoutOf marks
  let head := d.severity.text ++ ": " ++ Text.visible d.message
  let place := blanks layout.margin ++ "--> " ++ source.displayName ++
    s!":{primary.line.number}:{primary.position + 1}"
  let rule := blanks layout.margin ++ " |"
  let hints := d.hints.map fun h => blanks layout.margin ++ " = help: " ++ h
  "\n".intercalate
    (head :: place :: rule :: layout.lines lines marks none shown ++
      (if hints.isEmpty then [] else rule :: hints))

/-- A list of diagnostics against their sources; one whose source is not registered is shown on
one line. -/
def annotatedText (sources : SourceMap) (ds : List Diagnostic) : String :=
  "\n".intercalate <| ds.map fun d =>
    match sources.get? d.span.source with
    | some source => d.annotated source
    | none => d.text

end StackTemplate.Diagnostic
