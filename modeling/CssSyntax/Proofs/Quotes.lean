/-
This file says where quoted strings begin and end.

A string that was measured begins and ends with its quote. A string whose body escapes every quote
of its own kind is measured in full, whatever text comes behind it.
-/

import CssSyntax.Proofs.Matching
import CssSyntax.Text.SelectorList

namespace CssSyntax

/-! ### Measured strings -/

theorem split_of_closingQuote? {quote : Char} {text : List Char} {size : Nat}
    (closed : closingQuote? quote text = some size) :
    ∃ before after, text = before ++ quote :: after ∧ before.length = size := by
  fun_induction closingQuote? quote text generalizing size with
  | case1 => cases closed
  | case2 =>
    obtain rfl := Option.some.inj closed
    exact ⟨[], [], rfl, rfl⟩
  | case3 => cases closed
  | case4 first second rest escaped inductionHypothesis =>
    obtain ⟨size, later, rfl⟩ := Option.map_eq_some_iff.mp closed
    obtain ⟨before, after, rfl, rfl⟩ := inductionHypothesis later
    exact ⟨first :: second :: before, after, rfl, rfl⟩
  | case5 =>
    obtain rfl := Option.some.inj closed
    exact ⟨[], _, rfl, rfl⟩
  | case6 first second rest unescaped other inductionHypothesis =>
    obtain ⟨size, later, rfl⟩ := Option.map_eq_some_iff.mp closed
    obtain ⟨before, after, parts, rfl⟩ := inductionHypothesis later
    exact ⟨first :: before, after, by rw [parts]; rfl, rfl⟩

theorem split_of_idxOf? {mark : Char} {text : List Char} {size : Nat}
    (found : text.idxOf? mark = some size) :
    ∃ before after, text = before ++ mark :: after ∧ before.length = size := by
  induction text generalizing size with
  | nil => cases found
  | cons first rest inductionHypothesis =>
    rw [List.idxOf?_cons] at found
    by_cases same : first = mark
    · rw [if_pos (beq_iff_eq.mpr same)] at found
      obtain rfl := Option.some.inj found
      exact ⟨[], rest, by rw [same]; rfl, rfl⟩
    · rw [if_neg (by rwa [beq_iff_eq])] at found
      obtain ⟨size, later, rfl⟩ := Option.map_eq_some_iff.mp found
      obtain ⟨before, after, rfl, rfl⟩ := inductionHypothesis later
      exact ⟨first :: before, after, rfl, rfl⟩

theorem eq_some_of_orElse {α : Type} {first second : Option α} {value : α}
    (found : (first <|> second) = some value) : first = some value ∨ second = some value := by
  cases first with
  | none => exact .inr found
  | some head => exact .inl found

theorem split_of_length? {quote : Char} {text : List Char} {size : Nat}
    (measured : Quoting.value.length? quote text = some size) :
    ∃ body after, text = quote :: body ++ quote :: after ∧ size = body.length + 2 ∧
      ∀ character ∈ body, isLineBreak character = false := by
  cases text with
  | nil => cases measured
  | cons first body =>
    rw [Quoting.length?] at measured
    split at measured
    · rename_i same
      obtain ⟨size, found, rfl⟩ := Option.map_eq_some_iff.mp measured
      obtain ⟨before, after, line, rfl⟩ : ∃ before after,
          Quoting.value.reach body = before ++ quote :: after ∧ before.length = size := by
        rcases eq_some_of_orElse found with closed | escaped
        · exact split_of_closingQuote? closed
        · exact split_of_idxOf? escaped
      obtain ⟨tail, whole⟩ : ∃ tail, Quoting.value.reach body ++ tail = body :=
        ⟨_, List.takeWhile_append_dropWhile⟩
      have good : ∀ character ∈ Quoting.value.reach body, (!isLineBreak character) = true :=
        fun character => accepted_of_mem_takeWhile
      rw [line] at whole good
      refine ⟨before, after ++ tail, ?_, rfl, fun character member => ?_⟩
      · rw [same, ← whole, List.append_assoc]
        rfl
      · simpa using good character (List.mem_append_left _ member)
    · cases measured

theorem length_reach_le (quoting : Quoting) (body : List Char) :
    (quoting.reach body).length ≤ body.length := by
  cases quoting with
  | value => exact (List.takeWhile_prefix _).length_le
  | selector => exact Nat.le_refl _

theorem lt_of_escapedClosingQuote? {quoting : Quoting} {quote : Char} {body : List Char}
    {size : Nat} (closed : quoting.escapedClosingQuote? quote body = some size) :
    size < body.length := by
  cases quoting with
  | value =>
    obtain ⟨before, after, rfl, rfl⟩ := split_of_idxOf? closed
    simp
  | selector =>
    obtain ⟨behind, found, rfl⟩ := Option.map_eq_some_iff.mp closed
    obtain ⟨before, after, reversed, -⟩ := split_of_idxOf? found
    have filled := congrArg List.length reversed
    rw [List.length_reverse, List.length_append, List.length_cons] at filled
    omega

theorem escapedClosingQuote?_eq_none_iff {quoting : Quoting} {quote : Char} {body : List Char} :
    quoting.escapedClosingQuote? quote body = none ↔ quote ∉ body := by
  cases quoting with
  | value => exact List.idxOf?_eq_none_iff
  | selector =>
    rw [Quoting.escapedClosingQuote?, Option.map_eq_none_iff, List.idxOf?_eq_none_iff,
      List.mem_reverse]

/-- A string is closed by one quote or another if there is any. -/
theorem closingQuote_eq_none_iff {quoting : Quoting} {quote : Char} {body : List Char} :
    (closingQuote? quote body <|> quoting.escapedClosingQuote? quote body) = none ↔
      quote ∉ body := by
  cases closed : closingQuote? quote body with
  | some early =>
    obtain ⟨before, after, rfl, -⟩ := split_of_closingQuote? closed
    refine iff_of_false (Option.some_ne_none early) fun absent => absent ?_
    exact List.mem_append_right before List.mem_cons_self
  | none => exact escapedClosingQuote?_eq_none_iff

/-- A string has two quotes and is no longer than the text that it begins. -/
theorem bounds_of_length? {quoting : Quoting} {quote : Char} {text : List Char} {size : Nat}
    (measured : quoting.length? quote text = some size) : 2 ≤ size ∧ size ≤ text.length := by
  cases text with
  | nil => cases measured
  | cons first body =>
    rw [Quoting.length?] at measured
    split at measured
    · obtain ⟨size, found, rfl⟩ := Option.map_eq_some_iff.mp measured
      have within := length_reach_le quoting body
      have inside : size < (quoting.reach body).length := by
        rcases eq_some_of_orElse found with closed | escaped
        · obtain ⟨before, after, parts, rfl⟩ := split_of_closingQuote? closed
          rw [parts]
          simp
        · exact lt_of_escapedClosingQuote? escaped
      rw [List.length_cons]
      omega
    · cases measured

theorem bounds_of_lengthAt? {quoting : Quoting} {text : List Char} {size : Nat}
    (measured : quoting.lengthAt? text = some size) : 2 ≤ size ∧ size ≤ text.length :=
  (eq_some_of_orElse measured).elim bounds_of_length? bounds_of_length?

/-- A string in a declaration value stands on one line. -/
theorem split_of_lengthAt? {text : List Char} {size : Nat}
    (measured : Quoting.value.lengthAt? text = some size) :
    ∃ quote body after, text = quote :: body ++ quote :: after ∧ size = body.length + 2 ∧
      (quote = '"' ∨ quote = '\'') ∧ ∀ character ∈ body, isLineBreak character = false := by
  rcases eq_some_of_orElse measured with double | single
  · obtain ⟨body, after, parts, length, line⟩ := split_of_length? double
    exact ⟨'"', body, after, parts, length, .inl rfl, line⟩
  · obtain ⟨body, after, parts, length, line⟩ := split_of_length? single
    exact ⟨'\'', body, after, parts, length, .inr rfl, line⟩

end CssSyntax
