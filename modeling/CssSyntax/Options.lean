/-
This file holds what a caller may choose for a parse: a name for the source and what to do about a
fault in the text.
-/

namespace CssSyntax

/-- What to do about a fault in the text. -/
inductive Mode where
  /-- Give up at the first fault. -/
  | strict
  /-- Note every fault and keep what was read. -/
  | tolerant
  deriving DecidableEq

namespace Mode

/-- The name of the mode. -/
def text : Mode → String
  | .strict => "Strict"
  | .tolerant => "Tolerant"

end Mode

/-- The choices for one parse. Without any, the source has no name and the mode is strict. -/
structure Options where
  /-- The name that spans and errors carry, mostly a path. The empty name is a name. -/
  source : Option String := none
  mode : Mode := .strict
  deriving DecidableEq

namespace Options

/-- Names the source. -/
def withSource (options : Options) (source : String) : Options :=
  { options with source := some source }

/-- Notes every fault. -/
def tolerant (options : Options) : Options :=
  { options with mode := .tolerant }

/-- Gives up at the first fault. -/
def strict (options : Options) : Options :=
  { options with mode := .strict }

/-- Whether faults are noted and reading goes on. -/
def isTolerant (options : Options) : Bool :=
  options.mode = .tolerant

end Options

end CssSyntax
