/-
This file removes complete comments from a text.

Selectors, property names and values are kept as text, and a comment inside them is no part of it.
A comment runs from the first `/*` to the first `*/` after those two characters, so the two
delimiters never share a character. An opener without a closer is ordinary text, and so is all that
follows it. The text on either side of a removed comment is joined only in the result: an opener
that comes into being there is not read again.
-/

import CssSyntax.Text.Cut

namespace CssSyntax

/-! ### Delimiters -/

/-- The characters that open a comment. -/
def commentOpener : List Char := ['/', '*']

/-- The characters that close a comment. -/
def commentCloser : List Char := ['*', '/']

/-! ### The first complete comment -/

/-- The first complete comment of a text, as the text before it, its body and the text after it. -/
def firstComment? (text : List Char) : Option (List Char × List Char × List Char) := do
  let (before, opened) ← cut? commentOpener text
  let (body, after) ← cut? commentCloser opened
  return (before, body, after)

/-- A complete comment and the texts around it make up the text. -/
theorem eq_append_of_firstComment? {text before body after : List Char}
    (found : firstComment? text = some (before, body, after)) :
    text = before ++ commentOpener ++ body ++ commentCloser ++ after := by
  simp only [firstComment?, Option.bind_eq_bind, Option.bind_eq_some_iff, Option.pure_def,
    Option.some.injEq, Prod.mk.injEq, Prod.exists] at found
  obtain ⟨before', opened, openerCut, body', after', closerCut, rfl, rfl, rfl⟩ := found
  rw [eq_append_of_cut? openerCut, eq_append_of_cut? closerCut]
  simp only [List.append_assoc]

/-- The text after a complete comment is shorter than the whole. -/
theorem length_lt_of_firstComment? {text before body after : List Char}
    (found : firstComment? text = some (before, body, after)) : after.length < text.length := by
  rw [eq_append_of_firstComment? found]
  simp only [List.length_append, commentOpener, commentCloser, List.length_cons]
  omega

/-! ### Removal -/

/-- The text after a comment, without the slashes directly behind the closer if those go with the
comment. -/
def afterComment (withSlashes : Bool) (after : List Char) : List Char :=
  if withSlashes then after.dropWhile (· == '/') else after

theorem length_afterComment_le (withSlashes : Bool) (after : List Char) :
    (afterComment withSlashes after).length ≤ after.length := by
  unfold afterComment
  split
  · exact (List.dropWhile_sublist _).length_le
  · exact Nat.le_refl _

/-- The text without its complete comments. Selector lists also lose the slashes that directly
follow a closer, which `withSlashes` asks for. -/
def removeComments (withSlashes : Bool) (text : List Char) : List Char :=
  match _ : firstComment? text with
  | none => text
  | some (before, _, after) => before ++ removeComments withSlashes (afterComment withSlashes after)
termination_by text.length
decreasing_by
  exact Nat.lt_of_le_of_lt (length_afterComment_le _ _) (length_lt_of_firstComment? ‹_›)

end CssSyntax
