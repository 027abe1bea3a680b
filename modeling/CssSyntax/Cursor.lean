/-
This file moves a cursor over a text.

A cursor is the text that is left and the location where it begins. It moves by patterns only: a
pattern that finds something moves it over the taken text, and a pattern that finds nothing leaves
it where it is.
-/

import CssSyntax.Location
import CssSyntax.Pattern

namespace CssSyntax

/-- The text that is left and where it begins. -/
structure Cursor where
  rest : List Char
  location : Location
  deriving DecidableEq

namespace Cursor

/-- The cursor before the first character of a text. -/
def ofText (text : List Char) : Cursor := ⟨text, .start⟩

/-- The number of characters left. -/
def left (cursor : Cursor) : Nat := cursor.rest.length

/-- Whether no character is left. -/
def atEnd (cursor : Cursor) : Bool := cursor.rest.isEmpty

/-- Whether the text that is left starts with the word. -/
def startsWith (cursor : Cursor) (word : List Char) : Bool := word.isPrefixOf cursor.rest

/-- What the pattern finds ahead, and the cursor behind the text it takes. -/
def accept {α : Type} (cursor : Cursor) (pattern : Pattern α) : Option α × Cursor :=
  match pattern.read cursor.rest with
  | none => (none, cursor)
  | some found => (some found.value, ⟨found.rest, cursor.location.after found.taken⟩)

/-- The cursor behind the blanks ahead. -/
def skipBlanks (cursor : Cursor) : Cursor := (cursor.accept .blanks).2

end Cursor

end CssSyntax
