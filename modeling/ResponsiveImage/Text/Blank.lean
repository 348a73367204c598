/-!
# White space

The characters that separate words: those that Unicode calls white space, and the four information
separators. Trimming takes them off both ends of a text.
-/

namespace ResponsiveImage.Text

/-- White space: the Unicode property, and U+001C to U+001F. -/
def isBlank (c : Char) : Bool :=
  let n := c.toNat
  (0x09 ≤ n && n ≤ 0x0d) || (0x1c ≤ n && n ≤ 0x20) || n == 0x85 || n == 0xa0 || n == 0x1680 ||
    (0x2000 ≤ n && n ≤ 0x200a) || n == 0x2028 || n == 0x2029 || n == 0x202f || n == 0x205f ||
    n == 0x3000

/-- How many blanks a text begins with. -/
def blanks (cs : List Char) : Nat := (cs.takeWhile isBlank).length

/-- The text without the blanks at its start. -/
def skipBlanks (cs : List Char) : List Char := cs.dropWhile isBlank

/-- The text without the blanks at both ends. -/
def trim (cs : List Char) : List Char :=
  (skipBlanks (skipBlanks cs).reverse).reverse

end ResponsiveImage.Text
