import StackTemplate.Text.Attaching
import StackTemplate.Text.Visible

/-!
# Columns of characters

Most characters take one column on a page. The wide ones of East Asian scripts and the pictographs
take two (`East_Asian_Width` is `W` or `F`, of Unicode 17), and a tab takes four. These take none:

* the ones without a place of their own;
* vowels and final consonants of Hangul that are written as separate characters, which share the
  columns of the consonant before them;
* signs that are written onto the character behind them.

A few characters differ from their class. The filler for a Hangul consonant is as wide as one. The
Tifinagh joiner, which attaches, is seen when it joins nothing. Two Khmer characters stand for
several letters each. A character that changes the direction of writing is shown as another one and
takes its column.
-/

namespace StackTemplate.Text

/-- Edges of the wide characters below U+10000. -/
def wideBmp : List Nat :=
  [0x1100, 0x1160, 0x231a, 0x231c, 0x2329, 0x232b, 0x23e9, 0x23ed, 0x23f0, 0x23f1, 0x23f3, 0x23f4,
   0x25fd, 0x25ff, 0x2614, 0x2616, 0x2630, 0x2638, 0x2648, 0x2654, 0x267f, 0x2680, 0x268a, 0x2690,
   0x2693, 0x2694, 0x26a1, 0x26a2, 0x26aa, 0x26ac, 0x26bd, 0x26bf, 0x26c4, 0x26c6, 0x26ce, 0x26cf,
   0x26d4, 0x26d5, 0x26ea, 0x26eb, 0x26f2, 0x26f4, 0x26f5, 0x26f6, 0x26fa, 0x26fb, 0x26fd, 0x26fe,
   0x2705, 0x2706, 0x270a, 0x270c, 0x2728, 0x2729, 0x274c, 0x274d, 0x274e, 0x274f, 0x2753, 0x2756,
   0x2757, 0x2758, 0x2795, 0x2798, 0x27b0, 0x27b1, 0x27bf, 0x27c0, 0x2b1b, 0x2b1d, 0x2b50, 0x2b51,
   0x2b55, 0x2b56, 0x2e80, 0x2e9a, 0x2e9b, 0x2ef4, 0x2f00, 0x2fd6, 0x2ff0, 0x303f, 0x3041, 0x3097,
   0x3099, 0x3100, 0x3105, 0x3130, 0x3131, 0x318f, 0x3190, 0x31e6, 0x31ef, 0x321f, 0x3220, 0x3248,
   0x3250, 0xa48d, 0xa490, 0xa4c7, 0xa960, 0xa97d, 0xac00, 0xd7a4, 0xf900, 0xfb00, 0xfe10, 0xfe1a,
   0xfe30, 0xfe53, 0xfe54, 0xfe67, 0xfe68, 0xfe6c, 0xff01, 0xff61, 0xffe0, 0xffe7]

/-- Edges of the wide characters from U+10000 on. -/
def wideHigh : List Nat :=
  [0x16fe0, 0x16fe5, 0x16ff0, 0x16ff7, 0x17000, 0x18cd6, 0x18cff, 0x18d1f, 0x18d80, 0x18df3,
   0x1aff0, 0x1aff4, 0x1aff5, 0x1affc, 0x1affd, 0x1afff, 0x1b000, 0x1b123, 0x1b132, 0x1b133,
   0x1b150, 0x1b153, 0x1b155, 0x1b156, 0x1b164, 0x1b168, 0x1b170, 0x1b2fc, 0x1d300, 0x1d357,
   0x1d360, 0x1d377, 0x1f004, 0x1f005, 0x1f0cf, 0x1f0d0, 0x1f18e, 0x1f18f, 0x1f191, 0x1f19b,
   0x1f200, 0x1f203, 0x1f210, 0x1f23c, 0x1f240, 0x1f249, 0x1f250, 0x1f252, 0x1f260, 0x1f266,
   0x1f300, 0x1f321, 0x1f32d, 0x1f336, 0x1f337, 0x1f37d, 0x1f37e, 0x1f394, 0x1f3a0, 0x1f3cb,
   0x1f3cf, 0x1f3d4, 0x1f3e0, 0x1f3f1, 0x1f3f4, 0x1f3f5, 0x1f3f8, 0x1f43f, 0x1f440, 0x1f441,
   0x1f442, 0x1f4fd, 0x1f4ff, 0x1f53e, 0x1f54b, 0x1f54f, 0x1f550, 0x1f568, 0x1f57a, 0x1f57b,
   0x1f595, 0x1f597, 0x1f5a4, 0x1f5a5, 0x1f5fb, 0x1f650, 0x1f680, 0x1f6c6, 0x1f6cc, 0x1f6cd,
   0x1f6d0, 0x1f6d3, 0x1f6d5, 0x1f6d9, 0x1f6dc, 0x1f6e0, 0x1f6eb, 0x1f6ed, 0x1f6f4, 0x1f6fd,
   0x1f7e0, 0x1f7ec, 0x1f7f0, 0x1f7f1, 0x1f90c, 0x1f93b, 0x1f93c, 0x1f946, 0x1f947, 0x1fa00,
   0x1fa70, 0x1fa7d, 0x1fa80, 0x1fa8b, 0x1fa8e, 0x1fac7, 0x1fac8, 0x1fac9, 0x1facd, 0x1fadd,
   0x1fadf, 0x1faeb, 0x1faef, 0x1faf9, 0x20000, 0x2fffe, 0x30000, 0x3fffe]

/-- Whether a character takes two columns, if it has a place of its own. -/
def isWide (c : Char) : Bool := isWithin (wideBmp ++ wideHigh) c

/-- Whether a character is a Hangul vowel or final consonant that joins the consonant before it. -/
def isHangulTail (c : Char) : Bool :=
  let n := c.toNat
  (0x1160 ≤ n && n ≤ 0x11ff) || (0xd7b0 ≤ n && n ≤ 0xd7c6) || (0xd7cb ≤ n && n ≤ 0xd7fb)

/-- Edges of the signs that are written onto the character behind them: the marks of numbers,
pounds, piastres and abbreviations that stand above or below what follows, the marked end of
a verse, the caret, and the consonants that start a cluster (`Grapheme_Cluster_Break` is
`Prepend`). The signs that are written around or under several digits are not among them: they take
a column. -/
def leadingEdges : List Nat :=
  [0x605, 0x606, 0x70f, 0x710, 0x890, 0x892, 0x8e2, 0x8e3, 0xd4e, 0xd4f, 0xa8fa, 0xa8fb, 0x111c2,
   0x111c4, 0x113d1, 0x113d2, 0x1193f, 0x11940, 0x11941, 0x11942, 0x11a84, 0x11a8a, 0x11d46,
   0x11d47, 0x11f02, 0x11f03]

/-- Whether a character is written onto the one behind it. -/
def isLeading (c : Char) : Bool := isWithin leadingEdges c

/-- The code points that differ from their class, with their columns. -/
def exceptions : List (Nat × Nat) :=
  [(0x9, 4), (0x115f, 2), (0x17a4, 2), (0x17d8, 3), (0x2d7f, 1)]

/-- The columns that a character takes by its class. -/
def classColumns (c : Char) : Nat :=
  if isDirectional c then 1
  else if isAttaching c || isHangulTail c || isLeading c then 0
  else if isWide c then 2
  else 1

/-- The columns that a character takes. -/
def columns (c : Char) : Nat := (exceptions.lookup c.toNat).getD (classColumns c)

/-- The columns that a run of characters takes. -/
def width : List Char → Nat
  | [] => 0
  | c :: cs => columns c + width cs

/-- The columns of two runs add up. -/
@[simp]
theorem width_append (cs ds : List Char) : width (cs ++ ds) = width cs + width ds := by
  induction cs with
  | nil => simp [width]
  | cons c cs ih => simp [width, ih, Nat.add_assoc]

end StackTemplate.Text
