import ConceptScript.Text.CodeRanges

/-!
# `ConceptScript.Text.Blank`: white space

Blank characters are those with the Unicode property `White_Space`. They
separate tokens, and are trimmed from both ends of documentation texts
and directive values.
-/

set_option autoImplicit false

namespace ConceptScript.Text

/-- The characters with the property `White_Space`. -/
def blankRanges : CodeRanges :=
  [(0x9, 0xD), (0x20, 0x20), (0x85, 0x85), (0xA0, 0xA0), (0x1680, 0x1680), (0x2000, 0x200A),
   (0x2028, 0x2029), (0x202F, 0x202F), (0x205F, 0x205F), (0x3000, 0x3000)]

/-- Whether a character is white space. -/
def isBlank (c : Char) : Bool := inRanges blankRanges c.toNat

/-- A text without the blank characters it starts with. -/
def trimStart (s : List Char) : List Char := s.dropWhile isBlank

/-- A text without the blank characters at both of its ends. -/
def trim (s : List Char) : List Char :=
  (trimStart (trimStart s).reverse).reverse

end ConceptScript.Text
