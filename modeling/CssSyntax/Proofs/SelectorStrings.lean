/-
This file says what the stand-in for a comma does to a list of selectors.

Commas in strings are hidden, the list is cut at the commas that can still be seen, and the hidden
ones come out again. The same can be told of the one text without comments, by the positions in it:
a comma cuts if no string covers it and no group is closed first behind it. Parentheses in strings
count for that like any others, because only commas are hidden. What becomes of a piece does not
depend on the strings at all: every stand-in in it turns into a comma.
-/

import CssSyntax.Proofs.SelectorGroups

namespace CssSyntax

/-! ### Positions in strings -/

/-- Whether a quoted string covers the position. Strings are looked for from the left, and one that
was found is passed over whole. -/
def inString : List Char → Nat → Bool
  | [], _ => false
  | first :: rest, index =>
    match Quoting.selector.lengthAt? (first :: rest) with
    | some length =>
      decide (index < length) || inString (rest.drop (length - 1)) (index - length)
    | none => decide (0 < index) && inString rest (index - 1)
termination_by text => text.length
decreasing_by
  all_goals simp only [List.length_cons, List.length_drop]; omega

/-- Whether a comma stands at the position that no string covers and behind which no group is closed
first. -/
def separatorAt (text : List Char) (index : Nat) : Bool :=
  commaAt text index && !inString text index &&
    (nextParenthesis? (text.drop (index + 1))).all (· == '(')

variable {first : Char} {rest : List Char}

theorem inString_of_measured {size : Nat}
    (measured : Quoting.selector.lengthAt? (first :: rest) = some size) (index : Nat) :
    inString (first :: rest) index =
      (decide (index < size) || inString (rest.drop (size - 1)) (index - size)) := by
  rw [inString, measured]

theorem inString_of_unmeasured (unmeasured : Quoting.selector.lengthAt? (first :: rest) = none)
    (index : Nat) :
    inString (first :: rest) index = (decide (0 < index) && inString rest (index - 1)) := by
  rw [inString, unmeasured]

/-! ### Hidden commas -/

/-- Commas are hidden at the positions that strings cover. -/
theorem getElem?_hideQuotedCommas (text : List Char) (index : Nat) :
    (hideQuotedCommas text)[index]? =
      if inString text index then text[index]?.map hideComma else text[index]? := by
  fun_induction hideQuotedCommas text generalizing index with
  | case1 =>
    rw [inString]
    rfl
  | case2 first rest size measured inductionHypothesis =>
    have parts := take_append_drop_of_lengthAt? measured
    have front : ((first :: rest).take size).length = size :=
      List.length_take_of_le (bounds_of_lengthAt? measured).2
    rw [inString_of_measured measured]
    generalize (first :: rest).take size = string at parts front ⊢
    rw [← parts]
    by_cases inside : index < size
    · rw [decide_eq_true inside, Bool.true_or, if_pos rfl,
        List.getElem?_append_left (by rwa [List.length_map, front]),
        List.getElem?_append_left (by rwa [front]), List.getElem?_map]
    · have behind := Nat.le_of_not_lt inside
      rw [decide_eq_false inside, Bool.false_or,
        List.getElem?_append_right (by rwa [List.length_map, front]),
        List.getElem?_append_right (by rwa [front]), List.length_map, front]
      exact inductionHypothesis (index - size)
  | case3 first rest unmeasured inductionHypothesis =>
    rw [inString_of_unmeasured unmeasured]
    cases index with
    | zero => rfl
    | succ index => exact inductionHypothesis index

theorem commaAt_hideQuotedCommas (text : List Char) (index : Nat) :
    commaAt (hideQuotedCommas text) index = (commaAt text index && !inString text index) := by
  rw [commaAt, commaAt, getElem?_hideQuotedCommas]
  cases covered : inString text index with
  | false => rw [if_neg Bool.false_ne_true, Bool.not_false, Bool.and_true]
  | true =>
    rw [if_pos rfl, Bool.not_true, Bool.and_false, beq_eq_false_iff_ne]
    intro visible
    obtain ⟨character, -, same⟩ := Option.map_eq_some_iff.mp visible
    exact comma_notMem_map_hideComma [character] (List.mem_singleton.mpr same.symm)

/-- A comma that comes out of hiding is no parenthesis. -/
theorem insideGroup_map_restoreComma (text : List Char) :
    insideGroup (text.map restoreComma) = insideGroup text := by
  induction text with
  | nil => rfl
  | cons first rest inductionHypothesis =>
    rw [List.map_cons, insideGroup_cons, insideGroup_cons, inductionHypothesis]
    by_cases standIn : first = commaStandIn
    · rw [standIn]
      rfl
    · rw [restoreComma_of_ne standIn]

theorem insideGroup_drop_hideQuotedCommas (text : List Char) (size : Nat) :
    insideGroup ((hideQuotedCommas text).drop size) = insideGroup (text.drop size) := by
  rw [← insideGroup_map_restoreComma, List.map_drop, restore_hideQuotedCommas, ← List.map_drop,
    insideGroup_map_restoreComma]

theorem not_insideGroup_eq (text : List Char) :
    (!insideGroup text) = (nextParenthesis? text).all (· == '(') := by
  rw [insideGroup_eq]
  rcases nextParenthesis?_cases text with next | next | next <;> rw [next] <;> rfl

/-- With the commas in strings hidden, the list is cut at its separators. -/
theorem cutsAt_hideQuotedCommas (text : List Char) :
    cutsAt (hideQuotedCommas text) = separatorAt text := by
  funext index
  rw [cutsAt, separatorAt, commaAt_hideQuotedCommas, insideGroup_drop_hideQuotedCommas,
    not_insideGroup_eq]

/-! ### Lists of selectors -/

theorem modifyHead_map (change : Char → Char) (first : Char) (pieces : List (List Char)) :
    (pieces.modifyHead (first :: ·)).map (List.map change) =
      (pieces.map (List.map change)).modifyHead (change first :: ·) := by
  cases pieces <;> rfl

/-- Characters may be changed before a text is cut, because it is cut by position. -/
theorem piecesAt_map (change : Char → Char) (chosen : Nat → Bool) (text : List Char) :
    piecesAt chosen (text.map change) = (piecesAt chosen text).map (List.map change) := by
  induction text generalizing chosen with
  | nil => rfl
  | cons first rest inductionHypothesis =>
    rw [List.map_cons, piecesAt_cons, piecesAt_cons, inductionHypothesis]
    split
    · rfl
    · rw [modifyHead_map]

/-- Hiding commas, cutting and restoring them comes to this: the text without comments is cut at its
separators, and in the pieces, of which there is always one, a comma is put for every stand-in. -/
theorem selectors_eq_piecesAt_separatorAt (text : String) :
    let cleaned := removeComments true (trim text.toList)
    selectors text = ((piecesAt (separatorAt cleaned) cleaned).map fun piece =>
        String.ofList (trim (piece.map restoreComma))) ∧
      selectors text ≠ [] := by
  intro cleaned
  have restored : (splitOutsideGroups (hideQuotedCommas cleaned)).map (List.map restoreComma) =
      (piecesAt (separatorAt cleaned) cleaned).map (List.map restoreComma) := by
    rw [splitOutsideGroups_eq_piecesAt, cutsAt_hideQuotedCommas, ← piecesAt_map,
      restore_hideQuotedCommas, piecesAt_map]
  refine ⟨?_, ?_⟩
  · have trimmed := congrArg (List.map fun piece => String.ofList (trim piece)) restored
    rw [List.map_map, List.map_map] at trimmed
    rw [selectors, splitSelectors, List.map_map]
    exact trimmed
  · rw [selectors, ne_eq, List.map_eq_nil_iff]
    exact splitSelectors_ne_nil _

end CssSyntax
