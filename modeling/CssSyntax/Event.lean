/-
This file holds the record that a parse leaves of what it did.

The record is a list of events in the order in which they happened. It is no part of the result: a
parse that stops at a fault has a record that stops there too.
-/

import CssSyntax.Fault
import CssSyntax.Options
import CssSyntax.Tree.Kind

namespace CssSyntax

/-- Something that happened during a parse. -/
inductive Event where
  /-- The parse began. -/
  | started (source : Option String) (mode : Mode)
  /-- An at-rule was read to its end. -/
  | readAtRule (keyword : AtKeyword) (start : Location)
  /-- A fault was noted. -/
  | noted (fault : Fault)
  /-- The text was read, with so many top-level nodes and noted faults. -/
  | finished (rules faults : Nat)
  /-- The table of links was made, with so many rows. -/
  | linked (rows : Nat)
  deriving DecidableEq

/-- How much an event matters. -/
inductive Level where
  | trace
  | debug
  | warn
  deriving DecidableEq

namespace Level

/-- The name of the level. -/
def text : Level → String
  | .trace => "TRACE"
  | .debug => "DEBUG"
  | .warn => "WARN"

end Level

namespace Event

/-- How much the event matters. -/
def level : Event → Level
  | .started .. | .finished .. => .debug
  | .readAtRule .. | .linked .. => .trace
  | .noted .. => .warn

/-- The wording of the event. -/
def message : Event → String
  | .started source mode =>
    "parsing stylesheet " ++ sourceText source ++ " (" ++ mode.text ++ " mode)"
  | .readAtRule keyword start => "@" ++ keyword.text ++ " at " ++ start.text
  | .noted fault => fault.message
  | .finished rules faults =>
    "parsed " ++ toString rules ++ " top-level nodes with " ++ toString faults ++
      " recorded errors"
  | .linked rows => "linked " ++ toString rows ++ " nodes"

/-- The level and the wording of the event. -/
def text (event : Event) : String :=
  event.level.text ++ " " ++ event.message

end Event

end CssSyntax
