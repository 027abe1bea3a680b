/-
This file relates locations to the texts in front of them.

Lines and columns are counted character by character while a text is read. What they come to can be
said at once: the number of line feeds, and the number of characters behind the last of them. Every
character leads to a later location, so the places of one text are told apart by their locations and
stand in the same order.
-/

import CssSyntax.Location

namespace CssSyntax.Location

/-! ### The order of locations -/

theorem lt_iff {first second : Location} :
    first < second ↔ first.line < second.line ∨
      first.line = second.line ∧ first.column < second.column := Iff.rfl

theorem lt_trans {first second third : Location} (former : first < second)
    (latter : second < third) : first < third := by
  rw [lt_iff] at former latter ⊢
  omega

theorem lt_irrefl (location : Location) : ¬ location < location := by
  rw [lt_iff]
  omega

theorem le_refl (location : Location) : location ≤ location := .inr rfl

theorem lt_of_lt_of_le {first second third : Location} (former : first < second)
    (latter : second ≤ third) : first < third := by
  rcases latter with less | rfl
  · exact lt_trans former less
  · exact former

theorem le_trans {first second third : Location} (former : first ≤ second)
    (latter : second ≤ third) : first ≤ third := by
  rcases former with less | rfl
  · exact .inl (lt_of_lt_of_le less latter)
  · exact latter

theorem le_antisymm {first second : Location} (former : first ≤ second) (latter : second ≤ first) :
    first = second := by
  rcases former with less | same
  · exact absurd (lt_of_lt_of_le less latter) (lt_irrefl _)
  · exact same

theorem line_le_of_lt {first second : Location} (less : first < second) :
    first.line ≤ second.line := by
  rw [lt_iff] at less
  omega

/-! ### Reading on -/

theorem lt_step (location : Location) (character : Char) : location < location.step character := by
  rw [lt_iff, step]
  split
  · exact .inl (Nat.lt_succ_self _)
  · exact .inr ⟨rfl, Nat.lt_succ_self _⟩

theorem after_cons (location : Location) (first : Char) (rest : List Char) :
    location.after (first :: rest) = (location.step first).after rest := rfl

theorem le_after (location : Location) (text : List Char) : location ≤ location.after text := by
  induction text generalizing location with
  | nil => exact le_refl location
  | cons first rest inductionHypothesis =>
    rw [after_cons]
    exact .inl (lt_of_lt_of_le (lt_step location first) (inductionHypothesis _))

theorem lt_after (location : Location) {text : List Char} (nonempty : text ≠ []) :
    location < location.after text := by
  cases text with
  | nil => exact absurd rfl nonempty
  | cons first rest =>
    rw [after_cons]
    exact lt_of_lt_of_le (lt_step location first) (le_after _ rest)

/-! ### Places in a text -/

/-- The place behind a text that begins the source. -/
def ofPrefix (text : List Char) : Location where
  line := 1 + text.count '\n'
  column := 1 + (text.reverse.takeWhile fun character => character != '\n').length

theorem ofPrefix_concat (text : List Char) (last : Char) :
    ofPrefix (text ++ [last]) = (ofPrefix text).step last := by
  rw [ofPrefix, ofPrefix, step, List.count_append, List.reverse_append, List.reverse_singleton,
    List.singleton_append]
  by_cases feed : last = '\n'
  · rw [if_pos feed, feed, List.takeWhile_cons_of_neg (by decide), List.count_singleton_self]
    rfl
  · rw [if_neg feed,
      List.takeWhile_cons_of_pos (p := fun character => character != '\n') (bne_iff_ne.mpr feed),
      List.count_eq_zero_of_not_mem fun member => feed (List.mem_singleton.mp member).symm]
    rfl

theorem after_ofPrefix (former text : List Char) :
    (ofPrefix former).after text = ofPrefix (former ++ text) := by
  induction text generalizing former with
  | nil => rw [List.append_nil, after_nil]
  | cons first rest inductionHypothesis =>
    rw [after_cons, ← ofPrefix_concat, inductionHypothesis, List.append_assoc]
    rfl

/-- Of two places in a text, the one with more text in front has the later location. -/
theorem ofPrefix_take_lt {text : List Char} {first second : Nat} (less : first < second)
    (fits : second ≤ text.length) : ofPrefix (text.take first) < ofPrefix (text.take second) := by
  have parts := List.take_append_drop first (text.take second)
  rw [List.take_take, Nat.min_eq_left (Nat.le_of_lt less)] at parts
  rw [← parts, ← after_ofPrefix]
  apply lt_after
  intro empty
  have length := congrArg List.length empty
  rw [List.length_drop, List.length_take, Nat.min_eq_left fits, List.length_nil] at length
  omega

theorem ofPrefix_take_inj {text : List Char} {first second : Nat} (fits : first ≤ text.length)
    (bounded : second ≤ text.length)
    (same : ofPrefix (text.take first) = ofPrefix (text.take second)) : first = second := by
  rcases Nat.lt_trichotomy first second with less | equal | greater
  · have later := ofPrefix_take_lt less bounded
    rw [same] at later
    exact absurd later (lt_irrefl _)
  · exact equal
  · have later := ofPrefix_take_lt greater fits
    rw [same] at later
    exact absurd later (lt_irrefl _)

theorem ofPrefix_take_eq_iff {text : List Char} {first second : Nat} (fits : first ≤ text.length)
    (bounded : second ≤ text.length) :
    ofPrefix (text.take first) = ofPrefix (text.take second) ↔ first = second := by
  refine ⟨ofPrefix_take_inj fits bounded, ?_⟩
  rintro rfl
  rfl

theorem ofPrefix_take_lt_iff {text : List Char} {first second : Nat} (fits : first ≤ text.length)
    (bounded : second ≤ text.length) :
    ofPrefix (text.take first) < ofPrefix (text.take second) ↔ first < second := by
  refine ⟨fun earlier => ?_, fun less => ofPrefix_take_lt less bounded⟩
  rcases Nat.lt_trichotomy first second with less | rfl | greater
  · exact less
  · exact absurd earlier (lt_irrefl _)
  · exact absurd (lt_trans earlier (ofPrefix_take_lt greater fits)) (lt_irrefl _)

end CssSyntax.Location
