/-
This file holds the openings of at-rules: everything of an at-rule that stands before its block, or
the whole at-rule where it has none.

Most openings are the keyword and then text up to a brace or a semicolon. Three need more. A keyword
with a vendor is looked for in a whole word, where its last occurrence counts and what follows it
there is left, the name of a custom media query gives characters back to the query, and the offset
of a keyframe is a number or a word.
-/

import CssSyntax.Grammar.Word
import CssSyntax.Text.SelectorList
import CssSyntax.Tree.Node

namespace CssSyntax.Grammar

open Pattern

/-- The trimmed text as a string. -/
def trimmed (text : List Char) : String := String.ofList (trim text)

/-! ### Keywords -/

/-- The at-sign and the keyword. Whatever comes next is not looked at. -/
def keyword (name : AtKeyword) : Pattern (List Char) := exactly ('@' :: name.text.toList)

/-- The at-sign and an identifier that has the keyword in it, read to the end of the last occurrence
of the keyword. Finds the vendor, which is the text before that occurrence. -/
def vendorKeyword (name : AtKeyword) : Pattern (Option String) := do
  let _ ← exactly ['@']
  let vendor ← sized fun ahead =>
    (cutLast? name.text.toList (ahead.takeWhile isIdentifierChar)).map fun sides => sides.1.length
  let _ ← exactly name.text.toList
  return if vendor.isEmpty then none else some (String.ofList vendor)

/-! ### Text behind a keyword -/

/-- The keyword and the text up to the next opening brace. Finds that text trimmed. -/
def condition (name : AtKeyword) : Pattern String := do
  let _ ← keyword name
  return trimmed (← run1 fun character => character != '{')

/-- The keyword, the text up to the next semicolon, and that semicolon. Finds the text trimmed. -/
def payload (name : AtKeyword) : Pattern String := do
  let _ ← keyword name
  let text ← run1 fun character => character != ';'
  let _ ← exactly [';']
  return trimmed text

/-- The opening of `@document`, with or without a vendor. -/
def documentOpening : Pattern Header := do
  let vendor ← vendorKeyword .document
  let address ← run1 fun character => character != '{'
  return .document vendor (trimmed address)

/-- The opening of `@page`. Spaces alone are passed over before the selectors, so any other blank
begins them. -/
def pageOpening : Pattern Header := do
  let _ ← keyword .page
  let _ ← run fun character => character == ' '
  let text ← optional selectorText
  return .page ((text.map splitSelectors).getD [] |>.map String.ofList)

/-! ### Custom media queries -/

/-- A media query and the semicolon behind it. There is no brace in the query. -/
def customQuery : Pattern (List Char) := do
  let query ← run1 fun character => character != '{' && character != ';'
  let _ ← exactly [';']
  return query

/-- The length of the longest name ahead that leaves a query behind it. A name is two hyphens and at
least one more character, without blanks. -/
def customNameLength? (ahead : List Char) : Option Nat :=
  let word := ahead.takeWhile fun character => !isBlank character
  if ['-', '-'].isPrefixOf word then
    (List.range (word.length + 1)).reverse.find? fun length =>
      3 ≤ length && (customQuery.read (ahead.drop length)).isSome
  else none

/-- A custom media query with its name. -/
def customMedia : Pattern Leaf := do
  let _ ← keyword .customMedia
  let _ ← run1 isBlank
  let name ← sized customNameLength?
  let query ← customQuery
  return .customMedia (String.ofList name) (trimmed query)

/-! ### Keyframes -/

/-- Digits with a point in them, digits after a point, or digits alone. -/
def decimal : Pattern (List Char) :=
  text (do
    let _ ← run1 Char.isDigit
    let _ ← exactly ['.']
    run1 Char.isDigit) <|>
  text (do
    let _ ← exactly ['.']
    run1 Char.isDigit) <|>
  run1 Char.isDigit

/-- The offset of a keyframe, with the blanks behind it: a number that may be a percentage, or a word
in small letters. -/
def keyframeOffset : Pattern (List Char) :=
  spaced (text (do
    let _ ← decimal
    optional (exactly ['%'])) <|> run1 Char.isLower)

end CssSyntax.Grammar
