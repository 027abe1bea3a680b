/-
This file holds the words and marks that every construct is written with: comments, braces, colons,
semicolons, selectors and the names of properties.
-/

import CssSyntax.Pattern
import CssSyntax.Text.Comment

namespace CssSyntax.Grammar

open Pattern

/-! ### Marks -/

/-- An opening brace and the blanks behind it. -/
def openBrace : Pattern (List Char) := spaced (exactly ['{'])

/-- A closing brace. -/
def closeBrace : Pattern (List Char) := exactly ['}']

/-- A colon and the blanks behind it. -/
def colon : Pattern (List Char) := spaced (exactly [':'])

/-- A comma and the blanks behind it. -/
def comma : Pattern (List Char) := spaced (exactly [','])

/-- Semicolons and blanks in any order, or nothing. -/
def semicolons : Pattern (List Char) :=
  run fun character => character == ';' || isBlank character

/-! ### Comments and selectors -/

/-- A complete comment. Finds the text between its delimiters. -/
def commentBody : Pattern (List Char) := do
  let _ ← exactly commentOpener
  let body ← upTo commentCloser
  let _ ← exactly commentCloser
  return body

/-- The text up to the next opening brace, or all text where there is none. -/
def selectorText : Pattern (List Char) := run1 fun character => character != '{'

/-! ### Names -/

/-- Letters, digits, low lines and hyphens make up identifiers; no other script has letters here. -/
def isIdentifierChar (character : Char) : Bool :=
  character.isAlphanum || character == '_' || character == '-'

/-- An identifier. A digit or a hyphen may come first. -/
def identifier : Pattern (List Char) := run1 isIdentifierChar

/-- The characters of the name of a property. Comment delimiters are among them, so that a comment
may stand next to a name or in it, and so are the characters of common spelling tricks. -/
def isPropertyChar (character : Char) : Bool :=
  character.isAlphanum || ['-', '_', '#', '/', '*', '\\'].contains character

/-- The characters of the attribute that may follow a name in square brackets. -/
def isAttributeChar (character : Char) : Bool :=
  character.isDigit || character.isLower || character == '_' || character == '-'

/-- The name of a property, with the blanks behind it. A star may come first and an attribute in
square brackets may come last. -/
def propertyName : Pattern (List Char) :=
  spaced <| text do
    let _ ← optional (exactly ['*'])
    let _ ← run1 isPropertyChar
    optional do
      let _ ← exactly ['[']
      let _ ← run1 isAttributeChar
      exactly [']']

end CssSyntax.Grammar
