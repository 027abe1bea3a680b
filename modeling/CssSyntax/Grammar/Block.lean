/-
This file reads comments, declarations and the blocks that hold them.

A block of declarations differs by what it belongs to. A rule or a keyframe without its closing brace
is told and still kept, with the declarations read so far. An at-rule without its closing brace is
told and given up.
-/

import CssSyntax.Grammar.Parser
import CssSyntax.Grammar.Value
import CssSyntax.Grammar.Word

namespace CssSyntax.Grammar

/-! ### Leaves -/

/-- Reads a comment. One that is never closed is told the first time that a list meets it; a list
that meets it again ends without a word. -/
def comment : Parser (Option Node) := do
  let start ← here
  if ← startsWith commentOpener then
    match ← accept commentBody with
    | some body => return some (.leaf (.comment (String.ofList body)) (← spanFrom start))
    | none =>
      if (← get).openComment = some start then throw .noted
      else
        modify fun state => { state with openComment := some start }
        fail .unterminatedComment
  else return none

/-- Reads a declaration and the semicolons behind it, which are no part of its span. -/
def declaration : Parser (Option Node) := do
  let start ← here
  let some property ← accept propertyName | return none
  let some _ ← accept colon | fail .missingColon
  let value ← accept declarationValue
  let span ← spanFrom start
  let _ ← accept semicolons
  let clean := fun text => String.ofList (removeComments false text)
  return some (.leaf (.declaration (clean property) (clean (trim (value.getD [])))) span)

/-- Reads a comment or, where there is none, the other item. -/
def orComment (item : Parser (Option Node)) : Parser (Option Node) := do
  match ← comment with
  | some node => return some node
  | none => item

/-- Reads comments and declarations. -/
def declarations : Parser (List Node) := collect (orComment declaration)

/-! ### Blocks -/

/-- Reads the block of an at-rule. -/
def atBlock (name : AtKeyword) (body : Parser (List Node)) : Parser (List Node) := do
  let some _ ← accept openBrace | fail (.missingOpenBrace (.atRule name.text))
  let children ← body
  let some _ ← accept closeBrace | fail (.missingCloseBrace (.atRule name.text))
  return children

/-- Reads the block of a rule or of a keyframe. -/
def plainBlock : Parser (List Node) := do
  let some _ ← accept openBrace | fail (.missingOpenBrace .block)
  let children ← declarations
  if (← accept closeBrace).isNone then report (.missingCloseBrace .block)
  return children

end CssSyntax.Grammar
