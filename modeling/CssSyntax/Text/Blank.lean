/-
This file says which characters are blank and removes blanks from the ends of a text.

The blanks of this library are the characters with the Unicode property `White_Space`, not the
smaller class that CSS itself calls whitespace: no-break spaces and the line and paragraph
separators separate words here as well.
-/

namespace CssSyntax

/-! ### Blank characters -/

/-- The characters with the property `White_Space`, as ranges with their first and last code
point. -/
def blankRanges : List (Nat × Nat) :=
  [(0x09, 0x0D), (0x20, 0x20), (0x85, 0x85), (0xA0, 0xA0), (0x1680, 0x1680), (0x2000, 0x200A),
    (0x2028, 0x2029), (0x202F, 0x202F), (0x205F, 0x205F), (0x3000, 0x3000)]

/-- A character is blank when one of the ranges holds it. -/
def isBlank (character : Char) : Bool :=
  blankRanges.any fun range => range.1 ≤ character.toNat && character.toNat ≤ range.2

/-! ### Trimming -/

/-- The text without the blanks at its end. -/
def trimEnd (text : List Char) : List Char :=
  (text.reverse.dropWhile isBlank).reverse

/-- The text without the blanks at either end. -/
def trim (text : List Char) : List Char :=
  trimEnd (text.dropWhile isBlank)

end CssSyntax
