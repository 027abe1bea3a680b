/-
This file holds the patterns that the grammar is written in.

A pattern looks at the text ahead and either finds something at its start or finds nothing. What it
finds is a value, the text it takes and the rest it leaves. That the taken text and the rest make up
the text ahead is a field of every pattern, so no pattern can skip, repeat or invent a character,
and whoever moves a cursor by the taken text keeps true line and column numbers.

Patterns compose as a monad: the second pattern reads the rest that the first one left. A pattern
that fails part of the way has taken nothing.
-/

import CssSyntax.Text.Blank
import CssSyntax.Text.Cut

namespace CssSyntax

/-! ### Matches and patterns -/

/-- What a pattern finds at the start of a text. -/
structure Match (α : Type) where
  value : α
  taken : List Char
  rest : List Char

/-- A way to read a value from the start of a text. -/
structure Pattern (α : Type) where
  read : List Char → Option (Match α)
  /-- The taken text and the rest make up the text that was read. -/
  taken_append_rest : ∀ {input : List Char} {found : Match α},
    read input = some found → found.taken ++ found.rest = input

namespace Pattern

variable {α β : Type}

/-! ### Composition -/

/-- Takes nothing and finds the given value. -/
protected def pure (value : α) : Pattern α where
  read input := some ⟨value, [], input⟩
  taken_append_rest := by
    rintro input found equal
    obtain rfl := Option.some.inj equal
    rfl

/-- Reads the second pattern where the first one stopped. -/
protected def bind (first : Pattern α) (second : α → Pattern β) : Pattern β where
  read input :=
    match first.read input with
    | none => none
    | some found =>
      match (second found.value).read found.rest with
      | none => none
      | some later => some ⟨later.value, found.taken ++ later.taken, later.rest⟩
  taken_append_rest := by
    intro input found equal
    split at equal
    · exact absurd equal (by simp)
    · rename_i head headFound
      split at equal
      · exact absurd equal (by simp)
      · rename_i later laterFound
        obtain rfl := Option.some.inj equal
        rw [List.append_assoc, (second head.value).taken_append_rest laterFound,
          first.taken_append_rest headFound]

instance : Monad Pattern where
  pure := Pattern.pure
  bind := Pattern.bind

/-- Reads the second pattern where the first one finds nothing. -/
protected def orElse (first second : Pattern α) : Pattern α where
  read input := first.read input <|> second.read input
  taken_append_rest := by
    intro input found equal
    cases firstFound : first.read input with
    | none =>
      rw [firstFound] at equal
      exact second.taken_append_rest equal
    | some head =>
      rw [firstFound] at equal
      exact first.taken_append_rest (firstFound.trans equal)

instance : OrElse (Pattern α) := ⟨fun first second => first.orElse (second ())⟩

/-- Finds a value or, where the pattern finds nothing, takes nothing. -/
def optional (pattern : Pattern α) : Pattern (Option α) :=
  (some <$> pattern) <|> pure none

/-- Finds the text that the pattern takes. -/
def text (pattern : Pattern α) : Pattern (List Char) where
  read input := (pattern.read input).map fun found => ⟨found.taken, found.taken, found.rest⟩
  taken_append_rest := by
    intro input found equal
    obtain ⟨inner, innerFound, rfl⟩ := Option.map_eq_some_iff.mp equal
    exact pattern.taken_append_rest innerFound

/-! ### Characters and words -/

/-- Takes as many characters as the measure says, and nothing where it says nothing or where fewer
are left. -/
def sized (measure : List Char → Option Nat) : Pattern (List Char) where
  read input :=
    match measure input with
    | none => none
    | some size =>
      if size ≤ input.length then some ⟨input.take size, input.take size, input.drop size⟩
      else none
  taken_append_rest := by
    intro input found equal
    split at equal
    · exact absurd equal (by simp)
    · split at equal
      · obtain rfl := Option.some.inj equal
        exact List.take_append_drop _ _
      · exact absurd equal (by simp)

/-- Takes exactly so many characters. -/
def count (size : Nat) : Pattern (List Char) :=
  sized fun _ => some size

/-- Takes the characters that are accepted, up to the first one that is not. -/
def run (accepted : Char → Bool) : Pattern (List Char) where
  read input := some ⟨input.takeWhile accepted, input.takeWhile accepted, input.dropWhile accepted⟩
  taken_append_rest := by
    intro input found equal
    obtain rfl := Option.some.inj equal
    exact List.takeWhile_append_dropWhile

/-- Finds what the pattern finds, but only where that takes at least one character. -/
def nonempty (pattern : Pattern α) : Pattern α where
  read input := (pattern.read input).filter fun found => !found.taken.isEmpty
  taken_append_rest := by
    intro input found equal
    exact pattern.taken_append_rest (Option.eq_some_of_filter_eq_some equal)

/-- Takes one accepted character or more. -/
def run1 (accepted : Char → Bool) : Pattern (List Char) :=
  nonempty (run accepted)

/-- Takes one accepted character. -/
def one (accepted : Char → Bool) : Pattern Char where
  read
    | [] => none
    | first :: rest => if accepted first then some ⟨first, [first], rest⟩ else none
  taken_append_rest := by
    intro input found equal
    split at equal
    · exact absurd equal (by simp)
    · split at equal
      · obtain rfl := Option.some.inj equal
        rfl
      · exact absurd equal (by simp)

/-- Takes the word. -/
def exactly (word : List Char) : Pattern (List Char) where
  read input := (word.isPrefixOf? input).map fun rest => ⟨word, word, rest⟩
  taken_append_rest := by
    intro input found equal
    obtain ⟨rest, start, rfl⟩ := Option.map_eq_some_iff.mp equal
    exact (eq_append_of_isPrefixOf? start).symm

/-- Takes what stands before the first occurrence of the word. -/
def upTo (word : List Char) : Pattern (List Char) where
  read input := (cut? word input).map fun sides => ⟨sides.1, sides.1, word ++ sides.2⟩
  taken_append_rest := by
    intro input found equal
    obtain ⟨sides, occurrence, rfl⟩ := Option.map_eq_some_iff.mp equal
    simpa only [List.append_assoc] using (eq_append_of_cut? occurrence).symm

/-- Takes all blanks ahead. -/
def blanks : Pattern (List Char) :=
  run isBlank

/-- Finds what the pattern finds and takes the blanks behind it as well. -/
def spaced (pattern : Pattern α) : Pattern α := do
  let value ← pattern
  let _ ← blanks
  return value

/-! ### Repetition -/

/-- Reads the pattern again and again until it finds nothing or takes nothing. -/
def readMany (pattern : Pattern α) (input : List Char) : Match (List α) :=
  match _ : pattern.read input with
  | none => ⟨[], [], input⟩
  | some head =>
    if _ : head.taken = [] then ⟨[], [], input⟩
    else
      let tail := readMany pattern head.rest
      ⟨head.value :: tail.value, head.taken ++ tail.taken, tail.rest⟩
termination_by input.length
decreasing_by
  rw [← pattern.taken_append_rest ‹pattern.read input = some head›, List.length_append]
  have := List.length_pos_iff.mpr ‹¬head.taken = []›
  omega

theorem readMany_taken_append_rest (pattern : Pattern α) (input : List Char) :
    (pattern.readMany input).taken ++ (pattern.readMany input).rest = input := by
  fun_induction readMany pattern input with
  | case1 => rfl
  | case2 => rfl
  | case3 input head found progress tail inductionHypothesis =>
    rw [List.append_assoc, inductionHypothesis, pattern.taken_append_rest found]

/-- Finds the values of all the matches that follow one another. -/
def many (pattern : Pattern α) : Pattern (List α) where
  read input := some (pattern.readMany input)
  taken_append_rest := by
    intro input found equal
    obtain rfl := Option.some.inj equal
    exact pattern.readMany_taken_append_rest input

end Pattern

end CssSyntax
