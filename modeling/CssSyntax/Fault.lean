/-
This file holds the faults that a text can have, and how they are told.

A fault has a cause and the location where it came to light. The wording depends on the cause alone;
the full message puts the name of the source and the location in front of it.
-/

import CssSyntax.Location

namespace CssSyntax

/-! ### Causes -/

/-- What a missing brace belongs to. -/
inductive Construct where
  /-- The declarations of a rule or of a keyframe. -/
  | block
  /-- An at-rule, named without the `@` and without a vendor. -/
  | atRule (name : String)
  deriving DecidableEq

namespace Construct

/-- The words in front of the brace that is missing. A plain block has none. -/
def text : Construct → String
  | .block => ""
  | .atRule name => "@" ++ name ++ " "

end Construct

/-- What is wrong with a text. -/
inductive Cause where
  /-- A comment is opened and never closed. -/
  | unterminatedComment
  /-- Nothing stands where the selectors of a rule should be. -/
  | missingSelector
  /-- No colon follows the name of a property. -/
  | missingColon
  | missingOpenBrace (construct : Construct)
  | missingCloseBrace (construct : Construct)
  /-- No name follows the keyword `keyframes`. -/
  | missingKeyframesName
  deriving DecidableEq

namespace Cause

/-- The wording of a cause. -/
def reason : Cause → String
  | .unterminatedComment => "End of comment missing"
  | .missingSelector => "selector missing"
  | .missingColon => "property missing ':'"
  | .missingOpenBrace construct => construct.text ++ "missing '\x7b'"
  | .missingCloseBrace construct => construct.text ++ "missing '\x7d'"
  | .missingKeyframesName => "@keyframes missing name"

/-- What the missing brace belongs to, where the cause is a missing brace. -/
def construct? : Cause → Option Construct
  | .missingOpenBrace construct | .missingCloseBrace construct => some construct
  | _ => none

end Cause

/-! ### Faults -/

/-- How a source is told in messages: by its name, or as a source that has none. -/
def sourceText (source : Option String) : String :=
  source.getD "<anonymous>"

/-- A cause, and where in which source it came to light. -/
structure Fault where
  cause : Cause
  source : Option String
  location : Location
  deriving DecidableEq

namespace Fault

/-- The wording of the cause. -/
def reason (fault : Fault) : String := fault.cause.reason

/-- The source, the location and the wording of the cause. -/
def message (fault : Fault) : String :=
  sourceText fault.source ++ ":" ++ fault.location.text ++ ": " ++ fault.reason

end Fault

end CssSyntax
