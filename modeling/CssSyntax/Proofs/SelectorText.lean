/-
This file says what a list of selectors keeps of its text.

The comments go, and so do blanks at the ends of the selectors. Nothing else is lost and nothing is
made up: with commas between the selectors, the text is there again, but for its blanks. One
character does not come back as itself. The stand-in for a comma comes out as a comma wherever it
stood in the text, whether it stood for a comma or not.
-/

import CssSyntax.Proofs.Shapes

namespace CssSyntax

/-! ### Texts without blanks -/

/-- The text without its blanks. -/
def withoutBlanks (text : List Char) : List Char :=
  text.filter fun character => !isBlank character

theorem withoutBlanks_reverse (text : List Char) :
    withoutBlanks text.reverse = (withoutBlanks text).reverse := List.filter_reverse

theorem withoutBlanks_dropWhile (text : List Char) :
    withoutBlanks (text.dropWhile isBlank) = withoutBlanks text := by
  induction text with
  | nil => rfl
  | cons first rest inductionHypothesis =>
    by_cases blank : isBlank first = true
    · rw [List.dropWhile_cons_of_pos blank, inductionHypothesis]
      simp [withoutBlanks, blank]
    · rw [List.dropWhile_cons_of_neg blank]

theorem withoutBlanks_trim (text : List Char) : withoutBlanks (trim text) = withoutBlanks text := by
  rw [trim, trimEnd, withoutBlanks_reverse, withoutBlanks_dropWhile, withoutBlanks_reverse,
    List.reverse_reverse, withoutBlanks_dropWhile]

/-- The stand-in is no blank, and neither is the comma. -/
theorem isBlank_restoreComma (character : Char) :
    isBlank (restoreComma character) = isBlank character := by
  by_cases standIn : character = commaStandIn
  · rw [standIn]
    decide
  · rw [restoreComma_of_ne standIn]

theorem withoutBlanks_restore (text : List Char) :
    withoutBlanks (text.map restoreComma) = (withoutBlanks text).map restoreComma := by
  have same : (fun character => !isBlank character) ∘ restoreComma =
      fun character => !isBlank character := by
    funext character
    rw [Function.comp_apply, isBlank_restoreComma]
  rw [withoutBlanks, List.filter_map, same, withoutBlanks]

theorem standIn_notMem_restore (text : List Char) : commaStandIn ∉ text.map restoreComma := by
  intro member
  obtain ⟨character, -, same⟩ := List.mem_map.mp member
  by_cases standIn : character = commaStandIn
  · rw [standIn] at same
    cases same
  · rw [restoreComma_of_ne standIn] at same
    exact standIn same

/-! ### Joining again -/

/-- A change of texts that keeps commas and goes through the parts of a text one by one may be made
before the parts are joined. -/
theorem joined_map {change : List Char → List Char}
    (append : ∀ former latter, change (former ++ latter) = change former ++ change latter)
    (nil : change [] = []) (comma : change [','] = [',']) (pieces : List (List Char)) :
    joined (pieces.map change) = change (joined pieces) := by
  induction pieces with
  | nil => exact nil.symm
  | cons first others inductionHypothesis =>
    cases others with
    | nil => rfl
    | cons second others =>
      rw [joined_cons_cons, List.append_cons, append, append, comma, ← inductionHypothesis,
        List.append_assoc]
      rfl

theorem joined_restore (pieces : List (List Char)) :
    joined (pieces.map (List.map restoreComma)) = (joined pieces).map restoreComma :=
  joined_map (fun _ _ => List.map_append) rfl rfl pieces

theorem joined_withoutBlanks (pieces : List (List Char)) :
    joined (pieces.map withoutBlanks) = withoutBlanks (joined pieces) :=
  joined_map (fun _ _ => List.filter_append ..) rfl (by decide) pieces

/-- The pieces of a text are joined by the commas that it was cut at. -/
theorem joined_splitOutsideGroups (text : List Char) : joined (splitOutsideGroups text) = text := by
  induction text with
  | nil => rfl
  | cons first rest inductionHypothesis =>
    obtain ⟨head, others, parts⟩ := List.exists_cons_of_ne_nil (splitOutsideGroups_ne_nil rest)
    rw [parts] at inductionHypothesis
    rw [splitOutsideGroups, parts]
    by_cases cut : first = ',' ∧ insideGroup rest = false
    · rw [if_pos cut, joined_cons_cons, inductionHypothesis, cut.1]
      rfl
    · rw [if_neg cut, List.modifyHead_cons, ← inductionHypothesis]
      cases others <;> rfl

theorem listed_selectors (text : String) :
    listed (selectors text) = joined (splitSelectors text.toList) := by
  rw [listed, selectors, List.map_map]
  simp [Function.comp_def]

/-! ### Lists of selectors -/

/-- The selectors of a list, with commas between them, are the text without comments and blanks, with
a comma for each stand-in. So they are that text itself exactly if no stand-in is left in it. -/
theorem withoutBlanks_listed_selectors (text : String) :
    withoutBlanks (listed (selectors text)) =
        (withoutBlanks (removeComments true (trim text.toList))).map restoreComma ∧
      (withoutBlanks (listed (selectors text)) =
          withoutBlanks (removeComments true (trim text.toList)) ↔
        commaStandIn ∉ removeComments true (trim text.toList)) := by
  generalize cleaned : removeComments true (trim text.toList) = clean
  have kept : withoutBlanks (listed (selectors text)) =
      (withoutBlanks clean).map restoreComma := by
    have pieces : (splitSelectors text.toList).map withoutBlanks =
        ((splitOutsideGroups (hideQuotedCommas clean)).map (List.map restoreComma)).map
          withoutBlanks := by
      rw [splitSelectors, cleaned, List.map_map, List.map_map]
      exact List.map_congr_left fun piece _ => withoutBlanks_trim _
    rw [listed_selectors, ← joined_withoutBlanks, pieces, joined_withoutBlanks, joined_restore,
      joined_splitOutsideGroups, restore_hideQuotedCommas, withoutBlanks_restore]
  refine ⟨kept, ?_⟩
  rw [kept]
  constructor
  · intro same member
    refine standIn_notMem_restore (withoutBlanks clean) ?_
    rw [same]
    exact List.mem_filter.mpr ⟨member, by decide⟩
  · intro absent
    exact restore_of_notMem fun member => absent (List.mem_of_mem_filter member)

/-- A stand-in that was in the text comes out as a comma. -/
theorem withoutBlanks_listed_standIn :
    withoutBlanks (listed (selectors "a\u200Cb")) ≠
      withoutBlanks (removeComments true (trim "a\u200Cb".toList)) := by
  have kept : withoutBlanks (listed (selectors "a\u200Cb")) = ['a', ',', 'b'] := by cbv
  have text : withoutBlanks (removeComments true (trim "a\u200Cb".toList)) =
      ['a', commaStandIn, 'b'] := by cbv
  rw [kept, text]
  decide

end CssSyntax
