/-
This file cuts a text at an occurrence of a word, the first one or the last one.

Both functions hand back the text on either side of the occurrence. The laws say that nothing is
lost: the two sides with the word between them are the text again, so either side is shorter than
the text by at least the length of the word.
-/

namespace CssSyntax

/-! ### The word at the start of a text -/

/-- A word found at the start of a text, and what follows it, make up the text. -/
theorem eq_append_of_isPrefixOf? {word text after : List Char}
    (found : word.isPrefixOf? text = some after) : text = word ++ after := by
  induction word generalizing text with
  | nil => exact Option.some.inj found
  | cons first word inductionHypothesis =>
    cases text with
    | nil => cases found
    | cons head text =>
      change (if first == head then word.isPrefixOf? text else none) = some after at found
      split at found
      · rename_i same
        rw [inductionHypothesis found, eq_of_beq same, List.cons_append]
      · exact absurd found (by simp)

/-! ### The first occurrence -/

/-- The text before the first occurrence of the word and the text after it, if the word occurs. -/
def cut? (word text : List Char) : Option (List Char × List Char) :=
  match word.isPrefixOf? text with
  | some after => some ([], after)
  | none =>
    match text with
    | [] => none
    | first :: rest => (cut? word rest).map fun sides => (first :: sides.1, sides.2)

/-- Cutting loses nothing: the two sides with the word between them are the text. -/
theorem eq_append_of_cut? {word text before after : List Char}
    (found : cut? word text = some (before, after)) : text = before ++ word ++ after := by
  induction text generalizing before with
  | nil =>
    unfold cut? at found
    split at found
    · rename_i rest start
      obtain ⟨rfl, rfl⟩ := Prod.mk.inj (Option.some.inj found)
      simpa using eq_append_of_isPrefixOf? start
    · exact absurd found (by simp)
  | cons first text inductionHypothesis =>
    unfold cut? at found
    split at found
    · rename_i rest start
      obtain ⟨rfl, rfl⟩ := Prod.mk.inj (Option.some.inj found)
      simpa using eq_append_of_isPrefixOf? start
    · obtain ⟨⟨before', after'⟩, later, equal⟩ := Option.map_eq_some_iff.mp found
      obtain ⟨rfl, rfl⟩ := Prod.mk.inj equal
      rw [inductionHypothesis later, List.cons_append, List.cons_append]

/-! ### The last occurrence -/

/-- The text before the last occurrence of the word and the text after it, if the word occurs. -/
def cutLast? (word text : List Char) : Option (List Char × List Char) :=
  match text with
  | [] => (word.isPrefixOf? []).map fun after => ([], after)
  | first :: rest =>
    match cutLast? word rest with
    | some sides => some (first :: sides.1, sides.2)
    | none => (word.isPrefixOf? (first :: rest)).map fun after => ([], after)

/-- Cutting at the last occurrence loses nothing either. -/
theorem eq_append_of_cutLast? {word text before after : List Char}
    (found : cutLast? word text = some (before, after)) : text = before ++ word ++ after := by
  induction text generalizing before with
  | nil =>
    obtain ⟨rest, start, equal⟩ := Option.map_eq_some_iff.mp found
    obtain ⟨rfl, rfl⟩ := Prod.mk.inj equal
    simpa using eq_append_of_isPrefixOf? start
  | cons first text inductionHypothesis =>
    unfold cutLast? at found
    split at found
    · rename_i sides later
      obtain ⟨rfl, rfl⟩ := Prod.mk.inj (Option.some.inj found)
      rw [inductionHypothesis later, List.cons_append, List.cons_append]
    · obtain ⟨rest, start, equal⟩ := Option.map_eq_some_iff.mp found
      obtain ⟨rfl, rfl⟩ := Prod.mk.inj equal
      simpa using eq_append_of_isPrefixOf? start

end CssSyntax
