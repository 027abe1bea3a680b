/-
This file reads at-rules.

The at-rules are tried in the order of a table. The first one whose opening is ahead owns the text
from there on: if the rest of it is malformed, no later entry is tried. What may stand in the block of
a conditional at-rule is a parameter, because it is all that may stand at the top level as well.
-/

import CssSyntax.Grammar.Block
import CssSyntax.Grammar.Opening

namespace CssSyntax.Grammar

/-! ### Keyframes -/

/-- Reads the offsets of a keyframe. A comma may follow each of them. -/
def offsets : Pattern (List (List Char)) :=
  Pattern.many do
    let offset ← keyframeOffset
    let _ ← Pattern.optional comma
    return offset

/-- Reads a keyframe, which has at least one offset. -/
def keyframe : Parser (Option Node) := do
  let start ← here
  let some found ← accept (Pattern.nonempty offsets) | return none
  let children ← plainBlock
  return some (.block (.keyframe (found.map String.ofList)) (← spanFrom start) children)

/-- Reads `@keyframes`, with or without a vendor. It is the one at-rule that can lack its name. -/
def keyframes : Parser (Option Node) := do
  let start ← here
  let some vendor ← accept (vendorKeyword .keyframes).spaced | return none
  let some name ← accept identifier.spaced | fail .missingKeyframesName
  let children ← atBlock .keyframes (collect (orComment keyframe))
  return some (.block (.keyframes vendor (String.ofList name)) (← spanFrom start) children)

/-! ### The other at-rules -/

/-- Reads an at-rule that has no block. -/
def statement (opening : Pattern Leaf) : Parser (Option Node) := do
  let start ← here
  let some content ← accept opening | return none
  return some (.leaf content (← spanFrom start))

/-- Reads an at-rule that has a block. -/
def conditional (name : AtKeyword) (opening : Pattern Header) (body : Parser (List Node)) :
    Parser (Option Node) := do
  let start ← here
  let some header ← accept opening | return none
  let children ← atBlock name body
  return some (.block header (← spanFrom start) children)

/-- Reads the at-rule with this keyword, if it is ahead. -/
def atRule (nested : Parser (List Node)) : AtKeyword → Parser (Option Node)
  | .keyframes => keyframes
  | .media => conditional .media (Header.media <$> condition .media) nested
  | .customMedia => statement customMedia
  | .supports => conditional .supports (Header.supports <$> condition .supports) nested
  | .importRule => statement (Leaf.importRule <$> payload .importRule)
  | .charset => statement (Leaf.charset <$> payload .charset)
  | .namespaceRule => statement (Leaf.namespaceRule <$> payload .namespaceRule)
  | .document => conditional .document documentOpening nested
  | .page => conditional .page pageOpening declarations
  | .host => conditional .host ((fun _ => Header.host) <$> (keyword .host).spaced) nested
  | .fontFace =>
    conditional .fontFace ((fun _ => Header.fontFace) <$> (keyword .fontFace).spaced) declarations

/-- Reads the first at-rule of the table that is ahead, and records it. -/
def firstAtRule (nested : Parser (List Node)) : List AtKeyword → Parser (Option Node)
  | [] => return none
  | name :: others => do
    match ← atRule nested name with
    | some node =>
      record (.readAtRule name node.span.start)
      return some node
    | none => firstAtRule nested others

end CssSyntax.Grammar
