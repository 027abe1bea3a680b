/-
This file splits the text of a selector list into its selectors.

Commas separate selectors, but not those inside a quoted string and not those inside a group in
parentheses. Whether a comma is inside a group is told by the next parenthesis after it: a closing
one ends a group that the comma is in. Commas in strings are hidden behind a stand-in while the
list is split, and a stand-in that was in the text before comes out as a comma as well.
-/

import CssSyntax.Text.Blank
import CssSyntax.Text.Comment
import CssSyntax.Text.Quoted

namespace CssSyntax

/-! ### Commas in strings -/

/-- The zero-width non-joiner, which no selector needs, stands for a comma inside a string. -/
def commaStandIn : Char := '\u200C'

/-- Puts the stand-in for a comma. -/
def hideComma (character : Char) : Char :=
  if character = ',' then commaStandIn else character

/-- Puts a comma for the stand-in. -/
def restoreComma (character : Char) : Char :=
  if character = commaStandIn then ',' else character

/-- Hides the commas of every quoted string, reading from the left: a string is passed over whole,
so a quote inside it opens nothing. -/
def hideQuotedCommas : List Char → List Char
  | [] => []
  | first :: rest =>
    match Quoting.selector.lengthAt? (first :: rest) with
    | some length =>
      ((first :: rest).take length).map hideComma ++ hideQuotedCommas (rest.drop (length - 1))
    | none => first :: hideQuotedCommas rest
termination_by text => text.length
decreasing_by
  all_goals simp only [List.length_cons, List.length_drop]; omega

/-! ### Commas in groups -/

/-- Whether the text before `after` leaves a group open, told by the next parenthesis alone. -/
def insideGroup (after : List Char) : Bool :=
  after.find? (fun character => character == '(' || character == ')') == some ')'

/-- Cuts a text at each comma that is not inside a group. There is always at least one piece. -/
def splitOutsideGroups : List Char → List (List Char)
  | [] => [[]]
  | first :: rest =>
    if first = ',' ∧ insideGroup rest = false then [] :: splitOutsideGroups rest
    else (splitOutsideGroups rest).modifyHead (first :: ·)

/-! ### Selectors -/

/-- The selectors of a list, trimmed and without comments. -/
def splitSelectors (text : List Char) : List (List Char) :=
  (splitOutsideGroups (hideQuotedCommas (removeComments true (trim text)))).map fun piece =>
    trim (piece.map restoreComma)

/-- The selectors of a list, as strings. -/
def selectors (text : String) : List String :=
  (splitSelectors text.toList).map String.ofList

end CssSyntax
