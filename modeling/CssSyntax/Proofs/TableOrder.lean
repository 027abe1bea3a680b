/-
This file says how much the order of the at-rule table matters.

Nine of the at-rules are found by a keyword right behind the at-sign. No such keyword is the
beginning of another one, so at most one of the nine is ahead, and in which order they are tried is
of no account. `@keyframes` and `@document` are found anywhere in the word behind the at-sign, and
there another keyword may stand in front of theirs. So a table is as good as any other when it keeps
three things: `@keyframes` comes first, the at-rules that win over `@document` come before it, and
those that lose to it come behind it. What is tried without success changes nothing, so it is enough
to know which at-rule of those ahead is tried first.
-/

import CssSyntax.Proofs.Roundtrip

namespace CssSyntax

open Grammar Pattern

namespace AtKeyword

/-! ### Orders of the table -/

/-- The at-rules that win over `@document`. -/
def beforeDocument : List AtKeyword :=
  [.media, .customMedia, .supports, .importRule, .charset, .namespaceRule]

/-- The at-rules that lose to `@document`. -/
def behindDocument : List AtKeyword := [.page, .host, .fontFace]

/-- The at-rules without a vendor. Their keywords stand right behind the at-sign. -/
def unprefixed : List AtKeyword := beforeDocument ++ behindDocument

/-- The names are those of the table, in an order that keeps the places of `@keyframes` and
`@document`. -/
structure IsOrder (names : List AtKeyword) : Prop where
  perm : names.Perm table
  first : names.head? = some .keyframes
  before : ∀ name ∈ beforeDocument, names.idxOf name < names.idxOf .document
  behind : ∀ name ∈ behindDocument, names.idxOf .document < names.idxOf name

variable {name other : AtKeyword} {names : List AtKeyword} {input : List Char}

theorem isOrder_table : IsOrder table where
  perm := .refl _
  first := rfl
  before := by decide
  behind := by decide

/-- The at-rules by the order in which every order of the table has them. Those with the same number
may come in any order. -/
def turn : AtKeyword → Nat
  | .keyframes => 0
  | .media | .customMedia | .supports | .importRule | .charset | .namespaceRule => 1
  | .document => 2
  | .page | .host | .fontFace => 3

theorem turn_cases (name : AtKeyword) :
    name = .keyframes ∧ name.turn = 0 ∨ name ∈ beforeDocument ∧ name.turn = 1 ∨
      name = .document ∧ name.turn = 2 ∨ name ∈ behindDocument ∧ name.turn = 3 := by
  cases name <;> decide

theorem mem_table (name : AtKeyword) : name ∈ table := by
  cases name <;> decide

theorem IsOrder.mem (order : IsOrder names) (name : AtKeyword) : name ∈ names :=
  order.perm.mem_iff.mpr (mem_table name)

theorem IsOrder.idxOf_keyframes (order : IsOrder names) : names.idxOf .keyframes = 0 := by
  obtain ⟨others, rfl⟩ := List.head?_eq_some_iff.mp order.first
  exact List.idxOf_cons_self

theorem IsOrder.idxOf_le (order : IsOrder names) (less : name.turn < other.turn) :
    names.idxOf name ≤ names.idxOf other := by
  rcases turn_cases name with ⟨rfl, -⟩ | ⟨former, turn⟩ | ⟨rfl, turn⟩ | ⟨former, turn⟩
  · rw [order.idxOf_keyframes]
    exact Nat.zero_le _
  · have early := order.before name former
    rcases turn_cases other with ⟨-, later⟩ | ⟨-, later⟩ | ⟨rfl, -⟩ | ⟨latter, -⟩
    · omega
    · omega
    · exact Nat.le_of_lt early
    · exact Nat.le_of_lt (Nat.lt_trans early (order.behind other latter))
  · rcases turn_cases other with ⟨-, later⟩ | ⟨-, later⟩ | ⟨-, later⟩ | ⟨latter, -⟩
    · omega
    · omega
    · omega
    · exact Nat.le_of_lt (order.behind other latter)
  · rcases turn_cases other with ⟨-, later⟩ | ⟨-, later⟩ | ⟨-, later⟩ | ⟨-, later⟩ <;> omega

/-! ### At-rules that are ahead -/

theorem takesVendor_of_unprefixed : ∀ name ∈ unprefixed, name.takesVendor = false := by decide

theorem eq_of_prefix_written :
    ∀ name ∈ unprefixed, ∀ other ∈ unprefixed, name.written <+: other.written → name = other := by
  decide

/-- An at-rule without a vendor is ahead only where its keyword is. -/
theorem written_prefix_of_ahead (member : name ∈ unprefixed) (ahead : ¬ name.Absent input) :
    name.written <+: input := by
  refine Classical.byContradiction fun missing => ahead ?_
  exact absent_of_keyword (takesVendor_of_unprefixed name member) missing

/-- Of the at-rules without a vendor, at most one is ahead. -/
theorem eq_of_ahead (member : name ∈ unprefixed) (otherMember : other ∈ unprefixed)
    (ahead : ¬ name.Absent input) (otherAhead : ¬ other.Absent input) : name = other := by
  have start := written_prefix_of_ahead member ahead
  have otherStart := written_prefix_of_ahead otherMember otherAhead
  rcases List.prefix_or_prefix_of_prefix start otherStart with inside | inside
  · exact eq_of_prefix_written name member other otherMember inside
  · exact (eq_of_prefix_written other otherMember name member inside).symm

/-- Two at-rules that are ahead do not have the same turn. -/
theorem eq_of_turn_eq (ahead : ¬ name.Absent input) (otherAhead : ¬ other.Absent input)
    (same : name.turn = other.turn) : name = other := by
  -- `@keyframes` and `@document` have their turns to themselves.
  have cases : ∀ name ∈ table, ∀ other ∈ table, name.turn = other.turn →
      name = other ∨ name ∈ unprefixed ∧ other ∈ unprefixed := by decide
  rcases cases name (mem_table name) other (mem_table other) same with equal | ⟨member, otherMember⟩
  · exact equal
  · exact eq_of_ahead member otherMember ahead otherAhead

/-- If an at-rule is ahead, one of those that are has the first turn. -/
theorem exists_least (ahead : ¬ name.Absent input) :
    ∃ least : AtKeyword, ¬ least.Absent input ∧
      ∀ other : AtKeyword, ¬ other.Absent input → least.turn ≤ other.turn := by
  induction bound : name.turn using Nat.strongRecOn generalizing name with
  | ind turn inductionHypothesis =>
    by_cases least : ∀ other : AtKeyword, ¬ other.Absent input → name.turn ≤ other.turn
    · exact ⟨name, ahead, least⟩
    · simp only [Classical.not_forall] at least
      obtain ⟨other, otherAhead, late⟩ := least
      exact inductionHypothesis other.turn (by omega) otherAhead rfl

/-- A hyphen behind the at-sign begins a vendor. -/
theorem absent_of_hyphen (hyphen : ['@', '-'] <+: input) (member : name ∈ unprefixed) :
    name.Absent input := by
  refine Classical.byContradiction fun ahead => ?_
  have start := written_prefix_of_ahead member ahead
  have never : ∀ name ∈ unprefixed, ¬ ['@', '-'] <+: name.written ∧ ¬ name.written <+: ['@', '-'] := by
    decide
  rcases List.prefix_or_prefix_of_prefix hyphen start with inside | inside
  · exact (never name member).1 inside
  · exact (never name member).2 inside

/-- `@keyframes` is ahead where its keyword stands in the word behind the at-sign. -/
theorem absent_keyframes_iff {word : List Char} :
    AtKeyword.keyframes.Absent ('@' :: word) ↔
      ¬ AtKeyword.keyframes.text.toList <:+: word.takeWhile isIdentifierChar := by
  refine read_spaced_eq_none.trans (read_vendorKeyword_eq_none_iff.trans ?_)
  constructor
  · exact fun never => never word rfl
  · intro never ahead parts
    obtain ⟨-, rfl⟩ := List.cons.inj parts
    exact never

end AtKeyword

namespace Grammar

open AtKeyword

variable {nested : Parser (List Node)} {name : AtKeyword} {names : List AtKeyword}
  {options : Options} {state : State}

/-! ### The at-rule that is tried with success -/

/-- The parser does anything but call its construct absent: it reads it or gives it up. -/
def Answers {α : Type} (parser : Parser (Option α)) (options : Options) (state : State) : Prop :=
  ∀ last, parser options state ≠ .ok none last

theorem answers_atRule_iff :
    Answers (atRule nested name) options state ↔ ¬ name.Absent state.cursor.rest := by
  constructor
  · exact fun answers absent => answers state (atRule_of_absent absent)
  · exact fun ahead last run => ahead (absent_of_atRule run)

/-- At-rules that are not ahead can be taken out of the table. -/
theorem firstAtRule_append_of_absent {passed : List AtKeyword}
    (absent : ∀ name ∈ passed, name.Absent state.cursor.rest) :
    firstAtRule nested (passed ++ names) options state =
      firstAtRule nested names options state := by
  induction passed with
  | nil => rfl
  | cons name passed inductionHypothesis =>
    obtain ⟨here, later⟩ := List.forall_mem_cons.mp absent
    rw [List.cons_append, firstAtRule, bind_run, atRule_of_absent here]
    exact inductionHypothesis later

/-- Nothing is tried behind an at-rule that is ahead. -/
theorem firstAtRule_cons_of_ahead (ahead : ¬ name.Absent state.cursor.rest) :
    firstAtRule nested (name :: names) options state =
      firstAtRule nested [name] options state := by
  rw [firstAtRule, firstAtRule, bind_run, bind_run]
  cases run : atRule nested name options state with
  | error halt last => rfl
  | ok found last =>
    cases found with
    | some node => rfl
    | none => exact absurd (absent_of_atRule run) ahead

/-- The at-rule ahead whose turn comes first decides what comes of the table. -/
theorem firstAtRule_of_least (order : IsOrder names) (ahead : ¬ name.Absent state.cursor.rest)
    (least : ∀ other : AtKeyword, ¬ other.Absent state.cursor.rest → name.turn ≤ other.turn) :
    firstAtRule nested names options state = firstAtRule nested [name] options state := by
  obtain ⟨passed, others, rfl, new⟩ := List.eq_append_cons_of_mem (order.mem name)
  have absent : ∀ other ∈ passed, other.Absent state.cursor.rest := by
    intro other inside
    refine Classical.byContradiction fun otherAhead => ?_
    have less : name.turn < other.turn := by
      refine Nat.lt_of_le_of_ne (least other otherAhead) fun same => new ?_
      rwa [eq_of_turn_eq ahead otherAhead same]
    have late := order.idxOf_le less
    have early := List.idxOf_lt_length_of_mem inside
    rw [List.idxOf_append, List.idxOf_append, if_neg new, if_pos inside, List.idxOf_cons_self]
      at late
    omega
  rw [firstAtRule_append_of_absent absent, firstAtRule_cons_of_ahead ahead]

/-- Every order of the table gives what the table gives. -/
theorem firstAtRule_of_order (order : IsOrder names) :
    firstAtRule nested names options state = firstAtRule nested table options state := by
  by_cases ahead : ∃ name : AtKeyword, ¬ name.Absent state.cursor.rest
  · obtain ⟨name, ahead⟩ := ahead
    obtain ⟨least, leastAhead, least_le⟩ := exists_least ahead
    rw [firstAtRule_of_least order leastAhead least_le,
      firstAtRule_of_least isOrder_table leastAhead least_le]
  · have nothing : ∀ names : List AtKeyword,
        firstAtRule nested names options state = firstAtRule nested [] options state := by
      intro names
      rw [← List.append_nil names]
      refine firstAtRule_append_of_absent fun name _ => ?_
      exact Classical.byContradiction fun here => ahead ⟨name, here⟩
    rw [nothing names, nothing table]

/-- An at-rule without a vendor that answers leaves nothing to the others without one, and behind
`@-` none of them answers. The one for `@keyframes` answers where its keyword stands in the word
behind the at-sign. So only the places of `@keyframes` and `@document` in the table matter. -/
theorem firstAtRule_any_order (nested : Parser (List Node)) (options : Options) (state : State) :
    (∀ name ∈ unprefixed, Answers (atRule nested name) options state →
      ∀ other ∈ unprefixed, other ≠ name → atRule nested other options state = .ok none state) ∧
    (['@', '-'] <+: state.cursor.rest →
      ∀ name ∈ unprefixed, atRule nested name options state = .ok none state) ∧
    (∀ word, state.cursor.rest = '@' :: word →
      (Answers (atRule nested .keyframes) options state ↔
        AtKeyword.keyframes.text.toList <:+: word.takeWhile isIdentifierChar)) ∧
    ∀ names, IsOrder names →
      firstAtRule nested names options state = firstAtRule nested table options state := by
  refine ⟨fun name member answers other otherMember different => ?alone,
    fun hyphen name member => atRule_of_absent (absent_of_hyphen hyphen member), ?keyframes,
    fun names order => firstAtRule_of_order order⟩
  case alone =>
    refine atRule_of_absent (Classical.byContradiction fun ahead => different ?_)
    exact eq_of_ahead otherMember member ahead (answers_atRule_iff.mp answers)
  case keyframes =>
    intro word parts
    rw [answers_atRule_iff, parts, absent_keyframes_iff, Classical.not_not]

/-- The table with the at-rules around `@document` in the reverse order. -/
def turnedTable : List AtKeyword :=
  .keyframes :: beforeDocument.reverse ++ .document :: behindDocument.reverse

theorem isOrder_turnedTable : IsOrder turnedTable where
  perm := by decide
  first := rfl
  before := by decide
  behind := by decide

theorem firstAtRule_any_order_turnedTable :
    let nested : Parser (List Node) := pure []
    let paged := begun "@page-document a\x7b\x7d" {}
    let prefixed := begun "@-moz-keyframes a\x7b\x7d" {}
    (Answers (atRule nested .page) {} paged ∧ atRule nested .media {} paged = .ok none paged) ∧
      (['@', '-'] <+: prefixed.cursor.rest ∧
        atRule nested .page {} prefixed = .ok none prefixed) ∧
      Answers (atRule nested .keyframes) {} prefixed ∧
      (IsOrder turnedTable ∧
        firstAtRule nested turnedTable {} paged = firstAtRule nested table {} paged) := by
  intro nested paged prefixed
  obtain ⟨alone, -, -, same⟩ := firstAtRule_any_order nested {} paged
  obtain ⟨-, hyphen, found, -⟩ := firstAtRule_any_order nested {} prefixed
  have read : (pageOpening.read paged.cursor.rest).isSome := by decide +kernel
  have answers : Answers (atRule nested .page) {} paged :=
    answers_atRule_iff.mpr (Option.isSome_iff_ne_none.mp read)
  have start : ['@', '-'] <+: prefixed.cursor.rest := by decide
  have word : AtKeyword.keyframes.text.toList <:+:
      "-moz-keyframes a\x7b\x7d".toList.takeWhile isIdentifierChar := by decide +kernel
  exact ⟨⟨answers, alone .page (by decide) answers .media (by decide) (by decide)⟩,
    ⟨start, hyphen start .page (by decide)⟩, (found _ rfl).mpr word,
    isOrder_turnedTable, same _ isOrder_turnedTable⟩

end Grammar

end CssSyntax
