/-
This file reads lists of rules, at the top level and in the blocks of conditional at-rules.

A list goes on to a closing brace, to the end of the text or to an item that is given up. An at-rule
that is given up does not end the list by itself: what is left where it stopped is read as a plain
rule.
-/

import CssSyntax.Grammar.AtRule

namespace CssSyntax.Grammar

/-- Reads a plain rule: selectors and a block of declarations. -/
def rule : Parser (Option Node) := do
  let start ← here
  let some text ← accept selectorText | fail .missingSelector
  let children ← plainBlock
  let selectors := (splitSelectors text).map String.ofList
  return some (.block (.rule selectors) (← spanFrom start) children)

/-- Reads an at-rule or, where there is none or it was given up, a plain rule. -/
def ruleOrAtRule (nested : Parser (List Node)) : Parser (Option Node) := do
  match ← attempt (firstAtRule nested AtKeyword.table) with
  | some node => return some node
  | none => rule

/-- Reads one item of a list of rules. The end of the text and a closing brace end the list. -/
def item (nested : Parser (List Node)) : Parser (Option Node) :=
  orComment do
    if (← atEnd) || (← startsWith ['}']) then return none
    else ruleOrAtRule nested

/-- Reads a list of rules. A list in a block begins behind the at-keyword and the brace of that block,
so there is less text ahead of it than there was ahead of the list around it. -/
def rules (options : Options) (state : State) : EStateM.Result Halt State (List Node) :=
  let nested : Parser (List Node) := fun options inner =>
    if inner.left < state.left then rules options inner else .ok [] inner
  let list : Parser (List Node) := do
    let _ ← accept .blanks
    collect (item nested)
  list options state
termination_by state.left

end CssSyntax.Grammar
