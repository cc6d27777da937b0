import VersionAlignment.Text.Ranges

/-!
# Blank characters

The blank characters are those with the Unicode property `White_Space`. Trimming and every
pattern of the artifact formats use this set, so a no-break space separates words while a
zero-width space does not.
-/

set_option autoImplicit false

namespace VersionAlignment.Text

/-- The code points with the Unicode property `White_Space`, as closed ranges. -/
def blankRanges : List (Nat × Nat) :=
  [(0x9, 0xd), (0x20, 0x20), (0x85, 0x85), (0xa0, 0xa0), (0x1680, 0x1680), (0x2000, 0x200a),
   (0x2028, 0x2029), (0x202f, 0x202f), (0x205f, 0x205f), (0x3000, 0x3000)]

/-- Does the character have the Unicode property `White_Space`? -/
def isBlank (c : Char) : Bool := inRanges blankRanges c

/-- A space or a tab: the blanks that may stand inside a line of an artifact. -/
def isInlineBlank (c : Char) : Bool := c == ' ' || c == '\t'

/-- The longest run of blanks at the front. -/
def leadingBlanks (s : List Char) : List Char := s.takeWhile isBlank

/-- The text without the blanks at its front. -/
def trimStart (s : List Char) : List Char := s.dropWhile isBlank

/-- The text without the blanks at its end. -/
def trimEnd (s : List Char) : List Char := (trimStart s.reverse).reverse

/-- The text without the blanks at either end. -/
def trim (s : List Char) : List Char := trimEnd (trimStart s)

end VersionAlignment.Text
