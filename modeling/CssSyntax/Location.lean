/-
This file counts lines and columns.

Both numbers start at one. A line feed, and nothing else, ends a line; every other character is one
column wide, a carriage return too. The location after a text is a fold over its characters, so it
does not depend on the pieces in which the text was read.
-/

namespace CssSyntax

/-! ### Locations -/

/-- A place between two characters of a text. -/
structure Location where
  line : Nat
  column : Nat
  deriving DecidableEq

namespace Location

/-- The place before the first character. -/
def start : Location := ⟨1, 1⟩

instance : Inhabited Location := ⟨start⟩

/-- Earlier in the text: on an earlier line, or further left on the same line. -/
instance : LT Location :=
  ⟨fun first second =>
    first.line < second.line ∨ first.line = second.line ∧ first.column < second.column⟩

instance : LE Location := ⟨fun first second => first < second ∨ first = second⟩

instance (first second : Location) : Decidable (first < second) :=
  inferInstanceAs (Decidable
    (first.line < second.line ∨ first.line = second.line ∧ first.column < second.column))

instance (first second : Location) : Decidable (first ≤ second) :=
  inferInstanceAs (Decidable (first < second ∨ first = second))

instance : Ord Location := ⟨fun first second => compareOfLessAndEq first second⟩

/-- The place after one more character. -/
def step (location : Location) (character : Char) : Location :=
  if character = '\n' then ⟨location.line + 1, 1⟩ else ⟨location.line, location.column + 1⟩

/-- The place after more text. -/
def after (location : Location) (text : List Char) : Location :=
  text.foldl step location

@[simp] theorem after_nil (location : Location) : location.after [] = location := rfl

@[simp] theorem after_append (location : Location) (first second : List Char) :
    location.after (first ++ second) = (location.after first).after second :=
  List.foldl_append

/-- The line and the column, with a colon between them. -/
def text (location : Location) : String :=
  toString location.line ++ ":" ++ toString location.column

end Location

/-! ### Spans -/

/-- The range of a text that a node was read from. -/
structure Span where
  /-- The place before the first character of the range. -/
  start : Location
  /-- The place after the last character of the range. -/
  stop : Location
  /-- The name of the source that the text came from, if it has one. -/
  source : Option String
  deriving DecidableEq

namespace Span

/-- The number of lines that the range touches. -/
def lineCount (span : Span) : Nat :=
  span.stop.line - span.start.line + 1

/-- The two ends of the range, with a hyphen between them. -/
def text (span : Span) : String :=
  span.start.text ++ "-" ++ span.stop.text

end Span

end CssSyntax
