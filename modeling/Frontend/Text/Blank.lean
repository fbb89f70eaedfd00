/-!
# Blank characters and trimming

A character is blank if it has the Unicode property `White_Space`. Trimming takes the blank
characters off both ends of a text and leaves those inside.
-/

namespace Frontend.Text

/-- Tells whether a character has the Unicode property `White_Space`. -/
def isBlank (c : Char) : Bool :=
  let n := c.toNat
  (0x9 ≤ n && n ≤ 0xD) || n == 0x20 || n == 0x85 || n == 0xA0 || n == 0x1680 ||
    (0x2000 ≤ n && n ≤ 0x200A) || n == 0x2028 || n == 0x2029 || n == 0x202F || n == 0x205F ||
    n == 0x3000

/-- Drops the blank characters at the end. -/
def trimEnd (text : List Char) : List Char := (text.reverse.dropWhile isBlank).reverse

/-- Drops the blank characters at both ends. -/
def trim (text : List Char) : List Char := trimEnd (text.dropWhile isBlank)

/-- Tells whether a text holds blank characters only. -/
def isBlankText (text : List Char) : Bool := text.all isBlank

end Frontend.Text
