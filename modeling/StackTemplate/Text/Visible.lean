/-!
# Text made visible

Text that stands above a row of marks must take up the columns it seems to take up. A tab becomes
four blanks, the other controls become their pictures from the block U+2400, the joiner is left
out, and a character that changes the direction of writing becomes the replacement character. The
end of a line stays.
-/

namespace StackTemplate.Text

/-- Whether a character changes the direction of writing. -/
def isDirectional (c : Char) : Bool :=
  let n := c.toNat
  (0x202a ≤ n && n ≤ 0x202e) || (0x2066 ≤ n && n ≤ 0x2069)

/-- The characters that are shown for a character. -/
def visibleChar (c : Char) : List Char :=
  let n := c.toNat
  if c = '\n' then [c]
  else if c = '\t' then [' ', ' ', ' ', ' ']
  else if n < 0x20 then [Char.ofNat (0x2400 + n)]
  else if n = 0x7f then [Char.ofNat 0x2421]
  else if n = 0x200d then []
  else if isDirectional c then [Char.ofNat 0xfffd]
  else [c]

/-- The characters that are shown for a run of characters. -/
def visibleChars (cs : List Char) : List Char := cs.flatMap visibleChar

/-- The text that is shown for a text. -/
def visible (s : String) : String := String.ofList (visibleChars s.toList)

end StackTemplate.Text
