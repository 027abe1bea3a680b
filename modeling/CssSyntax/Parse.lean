/-
This file reads a stylesheet from its text.

A tolerant parse always ends with a stylesheet. A strict parse ends with a stylesheet or with the
first fault.
-/

import CssSyntax.Grammar.Forest
import CssSyntax.Tree.Stylesheet

namespace CssSyntax

open Grammar (State)

/-- The stylesheet that the grammar has come to, with the record of how. -/
def finish (options : Options) (rules : List Node) (reached : State) : Stylesheet × List Event :=
  let sheet := Stylesheet.ofRules options.source rules reached.faults
  let ending := [.finished rules.length reached.faults.length, .linked sheet.links.size]
  (sheet, reached.events ++ ending)

/-- Reads the text and keeps a record of what was done. A parse that stops at a fault has a record
without an ending. -/
def parseRecorded (css : String) (options : Options) : Except Fault Stylesheet × List Event :=
  let begun : State :=
    { cursor := .ofText css.toList, events := [.started options.source options.mode] }
  match Grammar.rules options begun with
  | .ok rules reached => (finish options rules reached).map .ok id
  | .error .noted reached => (finish options [] reached).map .ok id
  | .error (.raised fault) reached => (.error fault, reached.events)

/-- Reads the text. -/
def parseWith (css : String) (options : Options) : Except Fault Stylesheet :=
  (parseRecorded css options).1

/-- Reads the text in strict mode, without a name for the source. -/
def parse (css : String) : Except Fault Stylesheet :=
  parseWith css {}

end CssSyntax
