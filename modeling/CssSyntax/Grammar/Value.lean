/-
This file says where the value of a declaration ends.

A value runs to the first closing brace or semicolon that stands bare. Bare means outside quoted
strings and outside groups, and both are read without regard to what they hold: a string by its
quotes alone, and a group from an opening parenthesis to the first closing one. A quote that closes
nowhere and a parenthesis that is never closed are characters like any other.
-/

import CssSyntax.Pattern
import CssSyntax.Text.Quoted

namespace CssSyntax.Grammar

open Pattern

/-- A quoted string that closes on its line. -/
def quotedSegment : Pattern (List Char) := sized Quoting.value.lengthAt?

/-- An opening parenthesis and all text to the first closing one. -/
def groupSegment : Pattern (List Char) :=
  text do
    let _ ← exactly ['(']
    let _ ← upTo [')']
    exactly [')']

/-- A character that does not end a value. -/
def bareSegment : Pattern (List Char) :=
  text (one fun character => character != '}' && character != ';')

/-- One piece of a value. -/
def segment : Pattern (List Char) := quotedSegment <|> groupSegment <|> bareSegment

/-- The value of a declaration, which has at least one character. -/
def declarationValue : Pattern (List Char) := nonempty (text (many segment))

end CssSyntax.Grammar
