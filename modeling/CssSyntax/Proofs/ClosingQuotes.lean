/-
This file says which quote closes a string.

The search for the closing quote goes over a backslash and a quote behind it in one step. That comes
to a rule about single positions: a quote closes the string if no backslash stands directly in front
of it, and backslashes do not escape one another. What carries the search from one position to the
next is that the character passed over last is no backslash, unless the next one is no quote.

Where a backslash precedes every quote, a declaration value is closed by the first of them and a
selector by the last.
-/

import Mathlib.Order.Bounds.Basic
import CssSyntax.Proofs.Quotes

namespace CssSyntax

variable {quote first : Char} {body rest : List Char} {positions others : Set Nat}
  {found : Option Nat}

/-! ### First positions -/

/-- What is found is the first of the positions, and nothing is found where there are none. -/
def Finds (found : Option Nat) (positions : Set Nat) : Prop :=
  ∀ position, found = some position ↔ IsLeast positions position

theorem finds_none (never : ∀ position, position ∉ positions) : Finds none positions := by
  intro position
  constructor
  · rintro ⟨⟩
  · rintro ⟨member, -⟩
    exact absurd member (never position)

theorem finds_zero (member : 0 ∈ positions) : Finds (some 0) positions := by
  intro position
  constructor
  · rintro ⟨⟩
    exact ⟨member, fun other _ => Nat.zero_le other⟩
  · rintro ⟨-, least⟩
    rw [Nat.le_zero.mp (least member)]

/-- A search goes on behind characters at which it cannot end. -/
theorem finds_shift {skipped : Nat} (finds : Finds found others)
    (none : ∀ position < skipped, position ∉ positions)
    (same : ∀ position, position + skipped ∈ positions ↔ position ∈ others) :
    Finds (found.map (· + skipped)) positions := by
  intro position
  rw [Option.map_eq_some_iff]
  constructor
  · rintro ⟨later, present, rfl⟩
    obtain ⟨member, least⟩ := (finds later).mp present
    refine ⟨(same later).mpr member, fun other inside => ?_⟩
    have behind : skipped ≤ other := Nat.le_of_not_lt fun less => none other less inside
    obtain ⟨other, rfl⟩ := Nat.exists_eq_add_of_le' behind
    exact Nat.add_le_add_right (least ((same other).mp inside)) skipped
  · rintro ⟨member, least⟩
    have behind : skipped ≤ position := Nat.le_of_not_lt fun less => none position less member
    obtain ⟨later, rfl⟩ := Nat.exists_eq_add_of_le' behind
    refine ⟨later, (finds later).mpr ⟨(same later).mp member, fun other inside => ?_⟩, rfl⟩
    exact Nat.le_of_add_le_add_right (least ((same other).mpr inside))

theorem Finds.notMem_of_none (finds : Finds none positions) (position : Nat) :
    position ∉ positions := by
  induction position using Nat.strongRecOn with
  | ind position inductionHypothesis =>
    intro member
    have least : IsLeast positions position := by
      refine ⟨member, fun other inside => Nat.le_of_not_lt fun less => ?_⟩
      exact inductionHypothesis other less inside
    cases (finds position).mpr least

/-! ### Positions of quotes -/

/-- Where the quote stands. -/
def quotePositions (quote : Char) (body : List Char) : Set Nat :=
  {position | body[position]? = some quote}

/-- Where the quote stands without a backslash directly in front of it. -/
def bareQuotePositions (quote : Char) (body : List Char) : Set Nat :=
  {position | body[position]? = some quote ∧
    ∀ before, before + 1 = position → body[before]? ≠ some '\\'}

theorem lt_of_mem_quotePositions {position : Nat} (member : position ∈ quotePositions quote body) :
    position < body.length :=
  (List.getElem?_eq_some_iff.mp member).1

theorem zero_mem_bareQuotePositions :
    0 ∈ bareQuotePositions quote (first :: rest) ↔ first = quote := by
  constructor
  · rintro ⟨member, -⟩
    exact Option.some.inj member
  · rintro rfl
    exact ⟨rfl, fun before next => absurd next (Nat.succ_ne_zero before)⟩

theorem succ_mem_bareQuotePositions {position : Nat} :
    position + 1 ∈ bareQuotePositions quote (first :: rest) ↔
      position ∈ bareQuotePositions quote rest ∧ (position = 0 → first ≠ '\\') := by
  constructor
  · rintro ⟨member, unescaped⟩
    refine ⟨⟨member, ?_⟩, ?_⟩
    · rintro before rfl
      exact unescaped (before + 1) rfl
    · rintro rfl rfl
      exact unescaped 0 rfl rfl
  · rintro ⟨⟨member, unescaped⟩, plain⟩
    refine ⟨member, fun before next => ?_⟩
    obtain rfl := Nat.succ.inj next
    cases before with
    | zero => exact fun same => plain rfl (Option.some.inj same)
    | succ before => exact unescaped before rfl

/-! ### The search for the closing quote -/

theorem finds_closingQuote? (other : quote ≠ '\\') (body : List Char) :
    Finds (closingQuote? quote body) (bareQuotePositions quote body) := by
  fun_induction closingQuote? quote body with
  | case1 =>
    refine finds_none fun position => ?_
    rintro ⟨⟨⟩, -⟩
  | case2 => exact finds_zero (zero_mem_bareQuotePositions.mpr rfl)
  | case3 last differ =>
    refine finds_none fun position member => ?_
    cases position with
    | zero => exact differ (zero_mem_bareQuotePositions.mp member)
    | succ position => cases (succ_mem_bareQuotePositions.mp member).1.1
  | case4 first second rest escaped inductionHypothesis =>
    obtain ⟨rfl, rfl⟩ := escaped
    refine finds_shift inductionHypothesis ?_ fun position => ?_
    · intro position less member
      cases position with
      | zero => exact other (zero_mem_bareQuotePositions.mp member).symm
      | succ position =>
        obtain rfl : position = 0 := by omega
        exact (succ_mem_bareQuotePositions.mp member).2 rfl rfl
    · -- the quote that is passed over is no backslash, so it escapes nothing
      rw [succ_mem_bareQuotePositions, succ_mem_bareQuotePositions]
      constructor
      · rintro ⟨⟨member, -⟩, -⟩
        exact member
      · intro member
        exact ⟨⟨member, fun _ => other⟩, fun absurdity => absurd absurdity (Nat.succ_ne_zero _)⟩
  | case5 second rest unescaped => exact finds_zero (zero_mem_bareQuotePositions.mpr rfl)
  | case6 first second rest unescaped differ inductionHypothesis =>
    refine finds_shift inductionHypothesis ?_ fun position => ?_
    · intro position less member
      obtain rfl := Nat.lt_one_iff.mp less
      exact differ (zero_mem_bareQuotePositions.mp member)
    · rw [succ_mem_bareQuotePositions, and_iff_left_iff_imp]
      rintro member rfl backslash
      exact unescaped ⟨backslash, zero_mem_bareQuotePositions.mp member⟩

theorem finds_idxOf? (quote : Char) (body : List Char) :
    Finds (body.idxOf? quote) (quotePositions quote body) := by
  intro position
  rw [List.idxOf?_eq_some_iff]
  constructor
  · rintro ⟨fits, here, earlier⟩
    refine ⟨List.getElem?_eq_some_iff.mpr ⟨fits, here⟩, fun other member => ?_⟩
    refine Nat.le_of_not_lt fun less => earlier other less ?_
    exact (List.getElem?_eq_some_iff.mp member).2
  · rintro ⟨member, least⟩
    obtain ⟨fits, here⟩ := List.getElem?_eq_some_iff.mp member
    refine ⟨fits, here, fun other less same => Nat.not_le_of_lt less (least ?_)⟩
    exact List.getElem?_eq_some_iff.mpr ⟨_, same⟩

theorem mem_quotePositions_reverse {position : Nat} (fits : position < body.length) :
    position ∈ quotePositions quote body.reverse ↔
      body.length - 1 - position ∈ quotePositions quote body := by
  show body.reverse[position]? = some quote ↔ _
  rw [List.getElem?_reverse fits]
  rfl

/-- The last position of the quote is the first one from behind. -/
theorem isGreatest_iff_reverse {behind : Nat} (fits : behind < body.length) :
    IsGreatest (quotePositions quote body) (body.length - 1 - behind) ↔
      IsLeast (quotePositions quote body.reverse) behind := by
  constructor
  · rintro ⟨member, greatest⟩
    refine ⟨(mem_quotePositions_reverse fits).mpr member, fun other inside => ?_⟩
    have bounded := lt_of_mem_quotePositions inside
    rw [List.length_reverse] at bounded
    have below := greatest ((mem_quotePositions_reverse bounded).mp inside)
    omega
  · rintro ⟨member, least⟩
    refine ⟨(mem_quotePositions_reverse fits).mp member, fun other inside => ?_⟩
    have bounded := lt_of_mem_quotePositions inside
    have mirrored : body.length - 1 - (body.length - 1 - other) = other := by omega
    rw [← mirrored, ← mem_quotePositions_reverse (by omega)] at inside
    have below := least inside
    omega

theorem escapedClosingQuote?_value {position : Nat} :
    Quoting.value.escapedClosingQuote? quote body = some position ↔
      IsLeast (quotePositions quote body) position :=
  finds_idxOf? quote body position

theorem escapedClosingQuote?_selector {position : Nat} :
    Quoting.selector.escapedClosingQuote? quote body = some position ↔
      IsGreatest (quotePositions quote body) position := by
  rw [Quoting.escapedClosingQuote?, Option.map_eq_some_iff]
  constructor
  · rintro ⟨behind, present, rfl⟩
    have least := (finds_idxOf? quote body.reverse behind).mp present
    have bounded := lt_of_mem_quotePositions least.1
    rw [List.length_reverse] at bounded
    exact (isGreatest_iff_reverse bounded).mpr least
  · intro greatest
    have bounded := lt_of_mem_quotePositions greatest.1
    have mirrored : body.length - 1 - (body.length - 1 - position) = position := by omega
    rw [← mirrored, isGreatest_iff_reverse (by omega)] at greatest
    exact ⟨_, (finds_idxOf? quote body.reverse _).mpr greatest, mirrored⟩

/-! ### The length of a string -/

/-- The string whose body goes no farther than this text closes at the position. -/
inductive Quoting.ClosesAt (quote : Char) (body : List Char) : Quoting → Nat → Prop where
  /-- The first quote without a backslash closes the string wherever it stands. -/
  | bare {quoting : Quoting} {position : Nat}
      (first : IsLeast (bareQuotePositions quote body) position) :
      ClosesAt quote body quoting position
  /-- Where there is none, the first quote closes a string in a declaration value. -/
  | value {position : Nat} (escaped : ∀ other, other ∉ bareQuotePositions quote body)
      (first : IsLeast (quotePositions quote body) position) : ClosesAt quote body .value position
  /-- Where there is none, the last quote closes a string in a selector. -/
  | selector {position : Nat} (escaped : ∀ other, other ∉ bareQuotePositions quote body)
      (last : IsGreatest (quotePositions quote body) position) :
      ClosesAt quote body .selector position

theorem closingQuote_eq_some_iff (other : quote ≠ '\\') {quoting : Quoting} {position : Nat} :
    (closingQuote? quote body <|> quoting.escapedClosingQuote? quote body) = some position ↔
      quoting.ClosesAt quote body position := by
  have finds := finds_closingQuote? other body
  cases closed : closingQuote? quote body with
  | some early =>
    rw [closed] at finds
    have least := (finds early).mp rfl
    constructor
    · rintro ⟨⟩
      exact .bare least
    · intro closes
      cases closes with
      | bare first => exact congrArg some (least.unique first)
      | value escaped first => exact absurd least.1 (escaped early)
      | selector escaped last => exact absurd least.1 (escaped early)
  | none =>
    rw [closed] at finds
    have escaped := finds.notMem_of_none
    show quoting.escapedClosingQuote? quote body = some position ↔ _
    constructor
    · intro fallback
      cases quoting with
      | value => exact .value escaped (escapedClosingQuote?_value.mp fallback)
      | selector => exact .selector escaped (escapedClosingQuote?_selector.mp fallback)
    · intro closes
      cases closes with
      | bare first => exact absurd first.1 (escaped position)
      | value _ first => exact escapedClosingQuote?_value.mpr first
      | selector _ last => exact escapedClosingQuote?_selector.mpr last

theorem length?_of_head_ne {quoting : Quoting} {text : List Char}
    (unquoted : ∀ body, text ≠ quote :: body) : quoting.length? quote text = none := by
  cases text with
  | nil => rfl
  | cons first body =>
    refine if_neg ?_
    rintro rfl
    exact unquoted body rfl

theorem length?_cons (quoting : Quoting) (quote : Char) (body : List Char) :
    quoting.length? quote (quote :: body) =
      (closingQuote? quote (quoting.reach body) <|>
        quoting.escapedClosingQuote? quote (quoting.reach body)).map (· + 2) :=
  if_pos rfl

/-- A text is measured as a string if it begins with the quote and the quote comes again within
reach. The string goes to the quote that closes it, both quotes counted, and so not beyond the
text. Either quote of the language will do, neither being a backslash. -/
theorem measured_iff_closesAt (other : quote ≠ '\\') (quoting : Quoting) (text : List Char) :
    (quoting.length? quote text = none ↔
      ∀ body, text = quote :: body → quote ∉ quoting.reach body) ∧
    ∀ size,
      (quoting.length? quote text = some size ↔ ∃ body position, text = quote :: body ∧
        quoting.ClosesAt quote (quoting.reach body) position ∧ size = position + 2) ∧
      (quoting.length? quote text = some size → size ≤ text.length) := by
  refine ⟨?_, fun size => ⟨?_, fun measured => (bounds_of_length? measured).2⟩⟩
  · constructor
    · rintro unmeasured body rfl
      rw [length?_cons, Option.map_eq_none_iff, closingQuote_eq_none_iff] at unmeasured
      exact unmeasured
    · intro absent
      by_cases quoted : ∃ body, text = quote :: body
      · obtain ⟨body, rfl⟩ := quoted
        rw [length?_cons, Option.map_eq_none_iff, closingQuote_eq_none_iff]
        exact absent body rfl
      · exact length?_of_head_ne (not_exists.mp quoted)
  · constructor
    · intro measured
      by_cases quoted : ∃ body, text = quote :: body
      · obtain ⟨body, rfl⟩ := quoted
        rw [length?_cons, Option.map_eq_some_iff] at measured
        obtain ⟨position, closes, rfl⟩ := measured
        exact ⟨body, position, rfl, (closingQuote_eq_some_iff other).mp closes, rfl⟩
      · rw [length?_of_head_ne (not_exists.mp quoted)] at measured
        cases measured
    · rintro ⟨body, position, rfl, closes, rfl⟩
      rw [length?_cons, (closingQuote_eq_some_iff other).mpr closes]
      rfl

/-- In a selector, a string goes on to its last quote if a backslash precedes each of them. -/
theorem measured_iff_closesAt_escapedQuotes :
    '"' ≠ '\\' ∧ Quoting.selector.length? '"' "\"a\\\"b\\\"".toList = some 7 ∧
      ∃ body position, "\"a\\\"b\\\"".toList = '"' :: body ∧
        Quoting.selector.ClosesAt '"' (Quoting.selector.reach body) position ∧
        7 = position + 2 := by
  have other : '"' ≠ '\\' := by decide
  have measured : Quoting.selector.length? '"' "\"a\\\"b\\\"".toList = some 7 := by cbv
  refine ⟨other, measured, ?_⟩
  exact ((measured_iff_closesAt other .selector _).2 7).1.mp measured

end CssSyntax
