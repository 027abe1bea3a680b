/-
This file shows that faults are told truly.

A fault has a cause and a place, and what stands in the text at the place bears the cause out. This
is a property of the state that every step keeps. A construct that is given up leaves the cursor
somewhere inside it, and whatever is told next is told of the text ahead there, so nothing has to be
known about how the cursor came to be where it is. As the cursor only goes forward, the faults stand
in the order of the text.

An unterminated comment is met again by every list around it. What keeps it from being told twice is
one place kept in mind. That is enough because no comment told before begins behind that place and
the place is not ahead of the cursor: a comment that begins elsewhere begins behind all of them.
-/

import Mathlib
import CssSyntax.Proofs.Cuts
import CssSyntax.Proofs.Modes
import CssSyntax.Proofs.Readings

namespace CssSyntax

open Grammar

/-! ### True faults -/

/-- The text ahead bears the cause out. -/
def Cause.TrueOf : Cause → List Char → Prop
  | .unterminatedComment, ahead =>
    ∃ body, ahead = commentOpener ++ body ∧ ¬ commentCloser <:+: body
  | .missingSelector, ahead => ahead = [] ∨ ['{'] <+: ahead
  | .missingColon, ahead => ¬ [':'] <+: ahead
  | .missingOpenBrace _, ahead => ¬ ['{'] <+: ahead
  | .missingCloseBrace _, ahead => ¬ ['}'] <+: ahead
  | .missingKeyframesName, ahead => StopsAt isIdentifierChar ahead

/-- The fault has the location of a place in the text, and what stands there bears its cause out. -/
def Fault.TrueOf (fault : Fault) (text : List Char) : Prop :=
  ∃ offset ≤ text.length, fault.location = .ofPrefix (text.take offset) ∧
    fault.cause.TrueOf (text.drop offset)

/-- The faults are true of the text and stand in its order. No unterminated comment is among them
twice. -/
structure TrueAccount (text : List Char) (faults : List Fault) : Prop where
  each : ∀ fault ∈ faults, fault.TrueOf text
  ordered : faults.Pairwise fun former latter => former.location ≤ latter.location
  once : faults.Pairwise fun former latter => former.cause = .unterminatedComment →
    latter.cause = .unterminatedComment → former.location ≠ latter.location

theorem trueAccount_nil (text : List Char) : TrueAccount text [] :=
  ⟨List.forall_mem_nil _, .nil, .nil⟩

theorem TrueAccount.concat {text : List Char} {faults : List Fault} {last : Fault}
    (account : TrueAccount text faults) (holds : last.TrueOf text)
    (behind : ∀ fault ∈ faults, fault.location ≤ last.location)
    (fresh : last.cause = .unterminatedComment → ∀ fault ∈ faults,
      fault.cause = .unterminatedComment → fault.location ≠ last.location) :
    TrueAccount text (faults ++ [last]) where
  each := List.forall_mem_append.mpr ⟨account.each, List.forall_mem_singleton.mpr holds⟩
  ordered := by
    refine List.pairwise_append.mpr ⟨account.ordered, List.pairwise_singleton _ _, ?_⟩
    intro fault member latter same
    rw [List.mem_singleton.mp same]
    exact behind fault member
  once := by
    refine List.pairwise_append.mpr ⟨account.once, List.pairwise_singleton _ _, ?_⟩
    intro fault member latter same former later
    rw [List.mem_singleton.mp same] at later ⊢
    exact fresh later fault member former

namespace Grammar

open Pattern

variable {α β : Type} {text : List Char} {options : Options} {state : State}

/-! ### What a missing match says about the text -/

theorem trueOf_of_misses {pattern : Pattern (List Char)} {cause : Cause} {input : List Char}
    (misses : Misses pattern cause) (absent : pattern.read input = none) :
    cause.TrueOf input := by
  cases misses with
  | selector =>
    cases input with
    | nil => exact .inl rfl
    | cons first rest =>
      have stops : (first != '{') = false := read_run1_eq_none_iff.mp absent
      rw [bne_eq_false_iff_eq.mp stops]
      exact .inr (List.prefix_append ['{'] rest)
  | colon => exact read_exactly_eq_none.mp (read_spaced_eq_none.mp absent)
  | openBrace construct => exact read_exactly_eq_none.mp (read_spaced_eq_none.mp absent)
  | closeBrace construct => exact read_exactly_eq_none.mp absent
  | name => exact read_run1_eq_none_iff.mp (read_spaced_eq_none.mp absent)

theorem ne_unterminatedComment_of_misses {pattern : Pattern (List Char)} {cause : Cause}
    (misses : Misses pattern cause) : cause ≠ .unterminatedComment := by
  cases misses <;> rintro ⟨⟩

theorem unterminated_of_commentBody {input : List Char} (opened : commentOpener <+: input)
    (absent : commentBody.read input = none) : Cause.unterminatedComment.TrueOf input := by
  obtain ⟨body, rfl⟩ := opened
  refine ⟨body, rfl, ?_⟩
  cases found : cut? commentCloser body with
  | none => exact cut?_eq_none_iff.mp found
  | some sides =>
    obtain ⟨parts, earliest⟩ := cut?_eq_some_iff.mp found
    have unclosed := (firstCut_pair_iff (by decide)).mp earliest
    have takes : commentBody.Takes sides.1 _ sides.2 := takes_commentBody.mpr ⟨rfl, unclosed⟩
    have whole : commentOpener ++ body = commentOpener ++ sides.1 ++ commentCloser ++ sides.2 := by
      rw [parts]
      simp only [List.append_assoc]
    rw [whole] at absent
    exact absurd absent (read_ne_none_of_takes takes)

/-! ### States that give a true account -/

/-- The cursor is at a place of the text, and the faults noted so far are a true account that reaches
no further than the cursor. No unterminated comment that was told begins behind the one kept in
mind. -/
structure State.Accounts (text : List Char) (state : State) : Prop where
  place : ∃ former, text = former ++ state.cursor.rest ∧ state.cursor.location = .ofPrefix former
  account : TrueAccount text state.faults
  behind : ∀ fault ∈ state.faults, fault.location ≤ state.cursor.location
  known : ∀ fault ∈ state.faults, fault.cause = .unterminatedComment →
    ∃ start ∈ state.openComment, fault.location ≤ start
  passed : ∀ start ∈ state.openComment, start ≤ state.cursor.location

namespace State.Accounts

theorem begun (css : String) (options : Options) : (begun css options).Accounts css.toList where
  place := ⟨[], rfl, rfl⟩
  account := trueAccount_nil _
  behind := List.forall_mem_nil _
  known := List.forall_mem_nil _
  passed := fun start absurdity => absurd absurdity (Option.not_mem_none start)

theorem past {pattern : Pattern α} {found : Match α} (accounts : state.Accounts text)
    (present : pattern.read state.cursor.rest = some found) : (state.past found).Accounts text where
  place := by
    obtain ⟨former, parts, location⟩ := accounts.place
    refine ⟨former ++ found.taken, ?_, ?_⟩
    · rw [parts, ← pattern.taken_append_rest present, List.append_assoc]
      rfl
    · rw [← Location.after_ofPrefix, ← location]
      rfl
  account := accounts.account
  behind fault member := Location.le_trans (accounts.behind fault member) (Location.le_after _ _)
  known := accounts.known
  passed start kept := Location.le_trans (accounts.passed start kept) (Location.le_after _ _)

theorem trueOf {cause : Cause} (accounts : state.Accounts text)
    (holds : cause.TrueOf state.cursor.rest) (source : Option String) :
    Fault.TrueOf ⟨cause, source, state.cursor.location⟩ text := by
  obtain ⟨former, parts, location⟩ := accounts.place
  refine ⟨former.length, ?_, ?_, ?_⟩
  · rw [parts, List.length_append]
    exact Nat.le_add_right _ _
  · rw [parts, List.take_left]
    exact location
  · rw [parts, List.drop_left]
    exact holds

/-- A fault is noted. It is an unterminated comment only if none is in mind that begins there. -/
theorem noting {cause : Cause} (accounts : state.Accounts text)
    (holds : cause.TrueOf state.cursor.rest) (source : Option String)
    (fresh : cause = .unterminatedComment → state.openComment ≠ some state.cursor.location) :
    TrueAccount text (state.faults ++ [⟨cause, source, state.cursor.location⟩]) := by
  refine accounts.account.concat (accounts.trueOf holds source) accounts.behind ?_
  intro comment fault member other same
  obtain ⟨start, kept, behind⟩ := accounts.known fault member other
  rw [same] at behind
  have equal := Location.le_antisymm behind (accounts.passed start kept)
  exact fresh comment (by rw [kept, ← equal])

theorem behind_noting (accounts : state.Accounts text) (cause : Cause) (source : Option String) :
    ∀ fault ∈ state.faults ++ [⟨cause, source, state.cursor.location⟩],
      fault.location ≤ state.cursor.location :=
  List.forall_mem_append.mpr
    ⟨accounts.behind, List.forall_mem_singleton.mpr (Location.le_refl _)⟩

end State.Accounts

/-! ### Outcomes -/

/-- The outcome is a state that gives a true account, or a raised fault that is true. -/
def Accounted (text : List Char) : EStateM.Result Halt State α → Prop
  | .ok _ last => last.Accounts text
  | .error .noted last => last.Accounts text
  | .error (.raised fault) _ => fault.TrueOf text

/-- From a state that gives a true account, the parser tells true faults only. -/
def Accounts (text : List Char) (α : Type) (parser : Parser α) : Prop :=
  ∀ (options : Options) (state : State), state.Accounts text → Accounted text (parser options state)

theorem accounts_bind {first : Parser α} {next : α → Parser β} (former : Accounts text α first)
    (latter : ∀ value, Accounts text β (next value)) : Accounts text β (first >>= next) := by
  intro options state accounts
  have start := former options state accounts
  rw [bind_run]
  cases outcome : first options state with
  | ok value later =>
    rw [outcome] at start
    exact latter value options later start
  | error halt later =>
    rw [outcome] at start
    cases halt <;> exact start

theorem accounts_accept (pattern : Pattern α) : Accounts text (Option α) (accept pattern) := by
  intro options state accounts
  cases present : pattern.read state.cursor.rest with
  | none =>
    rw [accept_none present]
    exact accounts
  | some found =>
    rw [accept_some present]
    exact accounts.past present

theorem accounts_attempt {parser : Parser (Option α)} (holds : Accounts text (Option α) parser) :
    Accounts text (Option α) (attempt parser) := by
  intro options state accounts
  have start := holds options state accounts
  unfold attempt
  split
  · rename_i outcome
    rw [outcome] at start
    exact start
  · exact start

theorem accounts_collect {item : Parser (Option α)} (holds : Accounts text (Option α) item) :
    Accounts text (List α) (collect item) := by
  intro options state accounts
  fun_induction collect item options state with
  | case1 state later outcome | case2 state later outcome | case3 state fault later outcome
  | case6 state value later outcome more =>
    have start := holds options state accounts
    rw [outcome] at start
    exact start
  | case4 state value later outcome less values last rest inductionHypothesis =>
    have start := holds options state accounts
    rw [outcome] at start
    have others := inductionHypothesis start
    rw [rest] at others
    exact others
  | case5 state value later outcome less halt last rest inductionHypothesis =>
    have start := holds options state accounts
    rw [outcome] at start
    have others := inductionHypothesis start
    rw [rest] at others
    cases halt <;> exact others

theorem quiet_accounts : Quiet (Accounts text) where
  pure _ _ _ accounts := accounts
  bind := accounts_bind
  look _ _ _ accounts := accounts
  accept := accounts_accept
  sourceName _ _ accounts := accounts
  record _ _ _ _ accounts := ⟨accounts.place, accounts.account, accounts.behind, accounts.known,
    accounts.passed⟩
  attempt := accounts_attempt
  collect := accounts_collect
  byLeft holds options state := holds state.left options state

/-! ### Faults -/

theorem accounted_report {cause : Cause} (accounts : state.Accounts text)
    (holds : cause.TrueOf state.cursor.rest) (other : cause ≠ .unterminatedComment) :
    Accounted text (report cause options state) := by
  obtain ⟨source, mode⟩ := options
  cases mode with
  | strict => exact accounts.trueOf holds source
  | tolerant =>
    rw [report_tolerant]
    have account := accounts.noting holds source fun same => absurd same other
    refine ⟨accounts.place, account, accounts.behind_noting cause source, ?_, accounts.passed⟩
    exact List.forall_mem_append.mpr
      ⟨accounts.known, List.forall_mem_singleton.mpr fun same => absurd same other⟩

theorem accounted_fail {cause : Cause} (accounts : state.Accounts text)
    (holds : cause.TrueOf state.cursor.rest) (other : cause ≠ .unterminatedComment) :
    Accounted text ((fail cause : Parser α) options state) := by
  have told : Accounted text (report cause options state) :=
    accounted_report accounts holds other
  rw [fail, bind_run]
  cases outcome : report cause options state with
  | ok nothing later =>
    rw [outcome] at told
    exact told
  | error halt later =>
    rw [outcome] at told
    cases halt <;> exact told

/-- The place kept in mind moves to the comment that is told, behind all that were told before. -/
theorem accounted_tellOpen (accounts : state.Accounts text)
    (holds : Cause.unterminatedComment.TrueOf state.cursor.rest) :
    Accounted text (tellOpen state.cursor.location options state) := by
  rw [tellOpen_eq]
  split
  · exact accounts
  · rename_i fresh
    obtain ⟨source, mode⟩ := options
    cases mode with
    | strict => exact accounts.trueOf holds source
    | tolerant =>
      have account := accounts.noting holds source fun _ => fresh
      have behind := accounts.behind_noting .unterminatedComment source
      refine ⟨accounts.place, account, behind, ?_, ?_⟩
      · exact fun fault member _ => ⟨_, rfl, behind fault member⟩
      · rintro start ⟨⟩
        exact Location.le_refl _

theorem accounts_comment : Accounts text (Option Node) comment := by
  intro options state accounts
  rw [comment, here_bind, startsWith_bind]
  by_cases opened : state.cursor.startsWith commentOpener = true
  · rw [if_pos opened]
    cases present : commentBody.read state.cursor.rest with
    | none =>
      rw [accept_bind_none present]
      have ahead := List.isPrefixOf_iff_prefix.mp opened
      exact accounted_tellOpen accounts (unterminated_of_commentBody ahead present)
    | some found =>
      rw [accept_bind_some present]
      refine accounts_bind (quiet_accounts.spanFrom _) (fun span => ?_) options _
        (accounts.past present)
      exact quiet_accounts.pure _
  · rw [if_neg opened]
    exact accounts

/-- The grammar tells true faults only. -/
theorem closed_accounts : Closed (Accounts text) where
  toQuiet := quiet_accounts
  comment := accounts_comment
  demand := by
    intro β pattern cause next misses nothing others options state accounts
    cases present : pattern.read state.cursor.rest with
    | none =>
      rw [accept_bind_none present, nothing]
      exact accounted_fail accounts (trueOf_of_misses misses present)
        (ne_unterminatedComment_of_misses misses)
    | some found =>
      rw [accept_bind_some present]
      exact others _ options _ (accounts.past present)
  expect := by
    intro β pattern cause next rest misses nothing holds others options state accounts
    cases present : pattern.read state.cursor.rest with
    | none =>
      have told : Accounted text (report cause options state) :=
        accounted_report accounts (trueOf_of_misses misses present)
          (ne_unterminatedComment_of_misses misses)
      rw [accept_bind_none present, nothing, bind_run]
      cases outcome : report cause options state with
      | ok nothing later =>
        rw [outcome] at told
        exact holds options later told
      | error halt later =>
        rw [outcome] at told
        cases halt <;> exact told
    | some found =>
      rw [accept_bind_some present]
      exact others _ options _ (accounts.past present)

end Grammar

/-! ### Whole parses -/

variable {css : String} {options : Options}

theorem accounted_rules (css : String) (options : Options) :
    Accounted css.toList (rules options (begun css options)) :=
  closed_accounts.rules options _ (.begun css options)

theorem trueAccount_of_ok {sheet : Stylesheet} (read : parseWith css options = .ok sheet) :
    TrueAccount css.toList sheet.faults := by
  obtain ⟨nodes, last, run, rfl⟩ := ok_of_parseWith read
  have accounted := accounted_rules css options
  rw [run] at accounted
  exact accounted.account

theorem trueOf_of_error {fault : Fault} (failed : parseWith css options = .error fault) :
    fault.TrueOf css.toList := by
  obtain ⟨last, run⟩ := error_of_parseWith failed
  have accounted := accounted_rules css options
  rw [run] at accounted
  exact accounted

/-- A tolerant parse gives a true account of the text, and the fault that a strict parse ends with is
true of it. -/
theorem trueAccount_of_parse (css : String) (source : Option String) :
    ∃ sheet, parseWith css ⟨source, .tolerant⟩ = .ok sheet ∧
      TrueAccount css.toList sheet.faults ∧
      ∀ fault, parseWith css ⟨source, .strict⟩ = .error fault → fault.TrueOf css.toList := by
  obtain ⟨sheet, read, -⟩ := parse_modes css source
  exact ⟨sheet, read, trueAccount_of_ok read, fun fault => trueOf_of_error⟩

/-- What is left of a comment that is never closed in two blocks that are not closed either. Three
lists meet the comment. -/
def openCommentSheet : Stylesheet :=
  .ofRules none []
    [⟨.unterminatedComment, none, ⟨1, 12⟩⟩, ⟨.missingCloseBrace .block, none, ⟨1, 12⟩⟩,
      ⟨.missingCloseBrace (.atRule "media"), none, ⟨1, 12⟩⟩,
      ⟨.missingOpenBrace .block, none, ⟨1, 15⟩⟩]

theorem trueAccount_openCommentSheet :
    parseWith "@media a\x7bb\x7b/*c" ⟨none, .tolerant⟩ = .ok openCommentSheet ∧
      TrueAccount "@media a\x7bb\x7b/*c".toList openCommentSheet.faults ∧
      Fault.TrueOf ⟨.unterminatedComment, none, ⟨1, 12⟩⟩ "@media a\x7bb\x7b/*c".toList := by
  have read : parseWith "@media a\x7bb\x7b/*c" ⟨none, .tolerant⟩ = .ok openCommentSheet := by cbv
  have failed : parseWith "@media a\x7bb\x7b/*c" ⟨none, .strict⟩ =
      .error ⟨.unterminatedComment, none, ⟨1, 12⟩⟩ := by cbv
  obtain ⟨sheet, same, account, first⟩ := trueAccount_of_parse "@media a\x7bb\x7b/*c" none
  rw [read] at same
  cases same
  exact ⟨read, account, first _ failed⟩

end CssSyntax
