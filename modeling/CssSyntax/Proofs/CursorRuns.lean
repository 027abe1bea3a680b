/-
This file follows a cursor through a run of patterns.

Every pattern that finds something moves the cursor over one piece of the text, and a pattern that
finds nothing leaves it where it is. What a piece does to the location can be told from the piece as
a whole: its line feeds, and the characters behind the last of them. How a text was cut into pieces
does not show in the end. The location is a function of the text that was consumed, and since it
grows with every character, it also tells how much that was.
-/

import CssSyntax.Cursor
import CssSyntax.Proofs.Locations
import CssSyntax.Proofs.Matching

namespace CssSyntax

/-! ### Pieces of text -/

/-- The place behind a piece of text. Columns are counted on from the place in front of a piece
without line feeds, and anew from the last line feed of any other. -/
def Location.behindPiece (location : Location) (piece : List Char) : Location :=
  if '\n' ∈ piece then
    ⟨location.line + piece.count '\n',
      1 + (piece.reverse.takeWhile fun character => character != '\n').length⟩
  else ⟨location.line, location.column + piece.length⟩

/-- Of a text with a line feed, only what is behind that says how long the last line is. -/
theorem lastLine_cons {first : Char} {rest : List Char} (broken : '\n' ∈ rest) :
    ((first :: rest).reverse.takeWhile fun character => character != '\n') =
      rest.reverse.takeWhile fun character => character != '\n' := by
  rw [List.reverse_cons, List.takeWhile_append, if_neg]
  intro whole
  have all : (rest.reverse.takeWhile fun character => character != '\n') = rest.reverse :=
    (List.takeWhile_prefix _).eq_of_length whole
  rw [← List.mem_reverse, ← all] at broken
  have good := accepted_of_mem_takeWhile broken
  exact absurd rfl (bne_iff_ne.mp good)

theorem lastLine_cons_feed {rest : List Char} (unbroken : '\n' ∉ rest) :
    (('\n' :: rest).reverse.takeWhile fun character => character != '\n') = rest.reverse := by
  rw [List.reverse_cons, List.takeWhile_append_of_pos, List.takeWhile_cons_of_neg (by decide),
    List.append_nil]
  intro character member
  refine bne_iff_ne.mpr ?_
  rintro rfl
  exact unbroken (List.mem_reverse.mp member)

/-- Counting on over a piece is the same as counting character by character. -/
theorem Location.behindPiece_eq_after (location : Location) (piece : List Char) :
    location.behindPiece piece = location.after piece := by
  induction piece generalizing location with
  | nil => rfl
  | cons first rest inductionHypothesis =>
    rw [after_cons, ← inductionHypothesis, behindPiece, behindPiece, step]
    -- the first character shows in the column only where no line feed comes behind it
    by_cases broken : '\n' ∈ rest
    · rw [if_pos (List.mem_cons_of_mem first broken), if_pos broken, lastLine_cons broken]
      by_cases feed : first = '\n'
      · rw [if_pos feed, feed, List.count_cons_self, Nat.add_comm (rest.count '\n'), Nat.add_assoc]
      · rw [if_neg feed, List.count_cons_of_ne feed]
    · rw [if_neg broken]
      by_cases feed : first = '\n'
      · subst feed
        rw [if_pos List.mem_cons_self, if_pos rfl, lastLine_cons_feed broken, List.length_reverse,
          List.count_cons_self, List.count_eq_zero.mpr broken]
      · have unbroken : '\n' ∉ first :: rest := by
          rw [List.mem_cons, not_or]
          exact ⟨Ne.symm feed, broken⟩
        rw [if_neg unbroken, if_neg feed, List.length_cons, Nat.add_assoc, Nat.add_comm 1]

namespace Cursor

/-! ### Runs -/

/-- A pattern, whatever it finds. Passing over blanks is one of them. -/
structure Move where
  {Value : Type}
  pattern : Pattern Value

variable {cursor : Cursor}

/-- The piece of text that the pattern takes, and nothing where it finds nothing. -/
def piece (cursor : Cursor) (move : Move) : List Char :=
  match move.pattern.read cursor.rest with
  | none => []
  | some found => found.taken

/-- The cursor after the pattern. -/
def move (cursor : Cursor) (move : Move) : Cursor := (cursor.accept move.pattern).2

/-- The cursor after the patterns, one after another. -/
def run (cursor : Cursor) (moves : List Move) : Cursor := moves.foldl move cursor

/-- The pieces of text that the patterns take, one after another. -/
def pieces (cursor : Cursor) : List Move → List (List Char)
  | [] => []
  | first :: moves => cursor.piece first :: (cursor.move first).pieces moves

/-- The text that the patterns take together. -/
def consumed (cursor : Cursor) (moves : List Move) : List Char := (cursor.pieces moves).flatten

/-! ### What one pattern does -/

theorem accept_of_none {α : Type} {pattern : Pattern α} (absent : pattern.read cursor.rest = none) :
    cursor.accept pattern = (none, cursor) := by
  rw [accept, absent]

theorem accept_of_some {α : Type} {pattern : Pattern α} {found : Match α}
    (present : pattern.read cursor.rest = some found) :
    cursor.accept pattern =
      (some found.value, ⟨found.rest, cursor.location.after found.taken⟩) := by
  rw [accept, present]

theorem rest_eq_piece_append (cursor : Cursor) (move : Move) :
    cursor.rest = cursor.piece move ++ (cursor.move move).rest := by
  rw [Cursor.move, piece]
  cases present : move.pattern.read cursor.rest with
  | none =>
    rw [accept_of_none present]
    rfl
  | some found =>
    rw [accept_of_some present]
    exact (move.pattern.taken_append_rest present).symm

theorem location_move (cursor : Cursor) (move : Move) :
    (cursor.move move).location = cursor.location.after (cursor.piece move) := by
  rw [Cursor.move, piece]
  cases present : move.pattern.read cursor.rest with
  | none =>
    rw [accept_of_none present]
    rfl
  | some found => rw [accept_of_some present]

/-! ### What a run of them does -/

theorem rest_eq_consumed_append (cursor : Cursor) (moves : List Move) :
    cursor.rest = cursor.consumed moves ++ (cursor.run moves).rest := by
  induction moves generalizing cursor with
  | nil => rfl
  | cons first moves inductionHypothesis =>
    rw [consumed, pieces, List.flatten_cons, List.append_assoc, run, List.foldl_cons]
    exact (rest_eq_piece_append cursor first).trans (congrArg _ (inductionHypothesis _))

theorem location_run (cursor : Cursor) (moves : List Move) :
    (cursor.run moves).location = cursor.location.after (cursor.consumed moves) := by
  induction moves generalizing cursor with
  | nil => rfl
  | cons first moves inductionHypothesis =>
    rw [consumed, pieces, List.flatten_cons, Location.after_append, ← location_move, run,
      List.foldl_cons]
    exact inductionHypothesis _

theorem location_run_ofText (input : List Char) (moves : List Move) :
    ((ofText input).run moves).location = .ofPrefix ((ofText input).consumed moves) := by
  have beginning : (ofText input).location = .ofPrefix [] := rfl
  rw [location_run, beginning, Location.after_ofPrefix, List.nil_append]

/-- What a run from the beginning of a text consumes is a beginning of the text. -/
theorem consumed_prefix_input (input : List Char) (moves : List Move) :
    (ofText input).consumed moves <+: input :=
  ⟨_, (rest_eq_consumed_append (ofText input) moves).symm⟩

theorem location_run_take (input : List Char) (moves : List Move) :
    ((ofText input).run moves).location =
      .ofPrefix (input.take ((ofText input).consumed moves).length) := by
  rw [location_run_ofText, ← List.prefix_iff_eq_take.mp (consumed_prefix_input input moves)]

/-- The consumed text and the rest make up the text, and the location is the place behind the
consumed text, in whichever pieces that was taken. A pattern that finds nothing changes nothing, and
one that finds something moves the location by its piece. The locations that two runs come to, or
one run at two times, are in the order of the amounts of text consumed. -/
theorem run_tracks_text (input : List Char) (moves others : List Move) :
    let start := ofText input
    let cursor := start.run moves
    let consumed := start.consumed moves
    input = consumed ++ cursor.rest ∧
      cursor.location.line = 1 + consumed.count '\n' ∧
      cursor.location.column =
        1 + (consumed.reverse.takeWhile fun character => character != '\n').length ∧
      (∀ (α : Type) (pattern : Pattern α), pattern.read cursor.rest = none →
        cursor.accept pattern = (none, cursor)) ∧
      (∀ (α : Type) (pattern : Pattern α) (found : Match α),
        pattern.read cursor.rest = some found → cursor.accept pattern =
          (some found.value, ⟨found.rest, cursor.location.behindPiece found.taken⟩)) ∧
      (cursor.location = (start.run others).location ↔
        consumed.length = (start.consumed others).length) ∧
      (cursor.location < (start.run others).location ↔
        consumed.length < (start.consumed others).length) := by
  intro start cursor consumed
  have place : cursor.location = .ofPrefix consumed := location_run_ofText input moves
  have fits := (consumed_prefix_input input moves).length_le
  have otherFits := (consumed_prefix_input input others).length_le
  refine ⟨rest_eq_consumed_append start moves, ?_, ?_, ?_, ?_, ?_, ?_⟩
  · rw [place]
    rfl
  · rw [place]
    rfl
  · intro α pattern absent
    exact accept_of_none absent
  · intro α pattern found present
    rw [accept_of_some present, Location.behindPiece_eq_after]
  · rw [location_run_take, location_run_take]
    exact Location.ofPrefix_take_eq_iff fits otherFits
  · rw [location_run_take, location_run_take]
    exact Location.ofPrefix_take_lt_iff fits otherFits

end Cursor

end CssSyntax
