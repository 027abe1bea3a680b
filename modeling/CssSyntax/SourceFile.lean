/-
This file reads a stylesheet from a file.

A file must be there and must hold UTF-8. Its text is taken as it is: a byte order mark is the first
character of the text. The path names the source unless the caller names it.
-/

import CssSyntax.Directory
import CssSyntax.Parse

namespace CssSyntax

/-- Why no stylesheet was read from a file. -/
inductive FileError where
  /-- There is no file at the path, or it does not hold UTF-8. -/
  | unreadable
  /-- The text of the file has a fault. -/
  | malformed (fault : Fault)
  deriving DecidableEq

/-- The wording of the error. -/
def FileError.message : FileError → String
  | .unreadable => "I/O error reading stylesheet"
  | .malformed fault => fault.message

/-- The choices of the caller, with the path as the name of the source where there is no other. -/
def Options.named (options : Options) (path : String) : Options :=
  { options with source := some (options.source.getD path) }

/-- Reads the file at the path. -/
def parseFile (directory : Directory) (path : String) (options : Options) :
    Except FileError Stylesheet :=
  match (directory.read? path).bind String.fromUTF8? with
  | none => .error .unreadable
  | some css => (parseWith css (options.named path)).mapError .malformed

end CssSyntax
