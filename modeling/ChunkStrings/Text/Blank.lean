/-!
# Blanks around a text

The characters of the Unicode property `White_Space`, and the removal of those that stand at
either end of a text. All ASCII blanks are among them, but so are the no-break space and the spaces
of typography.
-/

namespace ChunkStrings.Blank

/-- Whether a character has the property `White_Space`. -/
def isBlank (c : Char) : Bool :=
  let code := c.toNat
  (0x09 ≤ code && code ≤ 0x0d) || code == 0x20 || code == 0x85 || code == 0xa0 ||
    code == 0x1680 || (0x2000 ≤ code && code ≤ 0x200a) || code == 0x2028 || code == 0x2029 ||
    code == 0x202f || code == 0x205f || code == 0x3000

/-- The characters after the blanks at the front. -/
def trimStart (chars : List Char) : List Char :=
  chars.dropWhile isBlank

/-- The characters before the blanks at the end. -/
def trimEnd (chars : List Char) : List Char :=
  (chars.reverse.dropWhile isBlank).reverse

/-- The characters between the blanks at both ends. -/
def trim (chars : List Char) : List Char :=
  trimEnd (trimStart chars)

end ChunkStrings.Blank
