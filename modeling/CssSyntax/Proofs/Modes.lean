/-
This file compares a strict parse of a text with a tolerant one.

The two runs go the same way until the first fault. There the strict parse raises it, which ends the
run, and the tolerant one notes it and goes on. So the simulation has two halves. Before the first
fault, states agree in all but the record they began with, and so do the outcomes. After it, only
the tolerant run moves, and all that has to be known about it is that it goes forward: the fault
that was noted first stays first.
-/

import CssSyntax.Parse
import CssSyntax.Proofs.Steps

namespace CssSyntax.Grammar

variable {α β : Type} {strictLog tolerantLog : List Event}

/-! ### A tolerant parse raises nothing -/

/-- The parser raises no fault when faults are to be noted. -/
def Lenient (α : Type) (parser : Parser α) : Prop :=
  ∀ (source : Option String) (state : State) (fault : Fault) (last : State),
    parser ⟨source, .tolerant⟩ state ≠ .error (.raised fault) last

theorem lenient_bind {first : Parser α} {next : α → Parser β} (former : Lenient α first)
    (latter : ∀ value, Lenient β (next value)) : Lenient β (first >>= next) := by
  intro source state fault last
  rw [bind_run]
  cases outcome : first ⟨source, .tolerant⟩ state with
  | ok value later => exact latter value source later fault last
  | error halt later =>
    rintro raised
    injection raised with raised same
    exact former source state fault later (by rw [outcome, raised])

theorem lenient_accept (pattern : Pattern α) : Lenient (Option α) (accept pattern) := by
  intro source state fault last
  cases present : pattern.read state.cursor.rest with
  | none => rw [accept_none present]; exact ok_ne_error
  | some found => rw [accept_some present]; exact ok_ne_error

theorem lenient_attempt {parser : Parser (Option α)} (lenient : Lenient (Option α) parser) :
    Lenient (Option α) (attempt parser) := by
  intro source state fault last
  unfold attempt
  split
  · exact ok_ne_error
  · exact lenient source state fault last

theorem lenient_collect {item : Parser (Option α)} (lenient : Lenient (Option α) item) :
    Lenient (List α) (collect item) := by
  intro source state fault last
  fun_induction collect item ⟨source, .tolerant⟩ state with
  | case1 | case2 | case4 | case6 => exact ok_ne_error
  | case3 state raised later outcome => exact absurd outcome (lenient source state raised later)
  | case5 state value later outcome less halt final rest inductionHypothesis =>
    rw [rest] at inductionHypothesis
    rintro raised
    injection raised with raised same
    exact inductionHypothesis (by rw [raised, same])

theorem stepwise_lenient : Stepwise Lenient where
  pure _ _ _ _ _ := ok_ne_error
  bind := lenient_bind
  look _ _ _ _ _ := ok_ne_error
  accept := lenient_accept
  sourceName _ _ _ _ := ok_ne_error
  recallOpen _ _ _ _ := ok_ne_error
  rememberOpen _ _ _ _ _ := ok_ne_error
  record _ _ _ _ _ _ := ok_ne_error
  report _ _ _ _ _ := ok_ne_error
  halt _ _ _ _ := by rintro ⟨⟩
  attempt := lenient_attempt
  collect := lenient_collect
  byLeft lenient source state := lenient state.left source state

theorem closed_lenient : Closed Lenient := stepwise_lenient.closed

/-! ### Lists are never given up -/

/-- The parser never halts for a noted fault. -/
def Completes (parser : Parser α) : Prop :=
  ∀ (options : Options) (state last : State), parser options state ≠ .error .noted last

theorem completes_accept_bind {pattern : Pattern α} {next : Option α → Parser β}
    (completes : ∀ found, Completes (next found)) : Completes (accept pattern >>= next) := by
  intro options state last
  cases present : pattern.read state.cursor.rest with
  | none =>
    rw [accept_bind_none present]
    exact completes none options state last
  | some found =>
    rw [accept_bind_some present]
    exact completes (some found.value) options (state.past found) last

theorem completes_collect (item : Parser (Option α)) : Completes (collect item) := by
  intro options state last
  fun_induction collect item options state with
  | case1 | case2 | case3 | case4 | case6 => rintro ⟨⟩
  | case5 state value later outcome less halt last' rest inductionHypothesis =>
    rintro ⟨⟩
    exact inductionHypothesis rest

/-- Where an item is given up, the list keeps what it has. -/
theorem completes_rules : Completes rules := by
  intro options state last
  rw [rules_eq]
  exact completes_accept_bind (fun _ => completes_collect _) options state last

/-! ### States before and after the first fault -/

/-- States of a strict and of a tolerant parse that have met no fault. They differ in no more than
the records with which the two parses began. -/
structure Alike (strictLog tolerantLog : List Event) (strict tolerant : State) : Prop where
  cursor : strict.cursor = tolerant.cursor
  openComment : strict.openComment = tolerant.openComment
  strictClean : strict.faults = []
  tolerantClean : tolerant.faults = []
  events : ∃ middle, strict.events = strictLog ++ middle ∧ tolerant.events = tolerantLog ++ middle ∧
    ∀ event ∈ middle, event.level ≠ .warn

theorem Alike.left_eq {strict tolerant : State}
    (alike : Alike strictLog tolerantLog strict tolerant) : tolerant.left = strict.left := by
  rw [State.left, ← alike.cursor, State.left]

/-- The strict parse has ended with a fault that is the first one of the tolerant parse. The records
agree up to the event in which the tolerant parse noted it. -/
structure Parted (strictLog tolerantLog : List Event) (fault : Fault) (strict tolerant : State) :
    Prop where
  first : [fault] <+: tolerant.faults
  events : ∃ middle, strict.events = strictLog ++ middle ∧
    tolerantLog ++ middle ++ [.noted fault] <+: tolerant.events ∧
    ∀ event ∈ middle, event.level ≠ .warn

/-- Once the parses have parted, the tolerant one may go on as it likes. -/
theorem Parted.later {fault : Fault} {strict tolerant later : State}
    (parted : Parted strictLog tolerantLog fault strict tolerant)
    (precedes : tolerant.Precedes later) : Parted strictLog tolerantLog fault strict later where
  first := parted.first.trans precedes.faults
  events := by
    obtain ⟨middle, strictEvents, tolerantEvents, quiet⟩ := parted.events
    exact ⟨middle, strictEvents, tolerantEvents.trans precedes.events, quiet⟩

/-- Outcomes of the same parser in a strict and in a tolerant parse. -/
inductive Agree (strictLog tolerantLog : List Event) {α : Type} :
    EStateM.Result Halt State α → EStateM.Result Halt State α → Prop
  | ok (value : α) {strict tolerant : State} (alike : Alike strictLog tolerantLog strict tolerant) :
    Agree strictLog tolerantLog (.ok value strict) (.ok value tolerant)
  | noted {strict tolerant : State} (alike : Alike strictLog tolerantLog strict tolerant) :
    Agree strictLog tolerantLog (.error .noted strict) (.error .noted tolerant)
  | parted {fault : Fault} {strict : State} {outcome : EStateM.Result Halt State α}
    (parted : Parted strictLog tolerantLog fault strict (reached outcome)) :
    Agree strictLog tolerantLog (.error (.raised fault) strict) outcome

/-- From states that are alike, the two modes lead to outcomes that agree. -/
structure Tracks (strictLog tolerantLog : List Event) (α : Type) (parser : Parser α) : Prop where
  forward : Forward α parser
  agree : ∀ (source : Option String) {strict tolerant : State},
    Alike strictLog tolerantLog strict tolerant →
    Agree strictLog tolerantLog (parser ⟨source, .strict⟩ strict)
      (parser ⟨source, .tolerant⟩ tolerant)

/-! ### The steps agree -/

theorem tracks_bind {first : Parser α} {next : α → Parser β}
    (former : Tracks strictLog tolerantLog α first)
    (latter : ∀ value, Tracks strictLog tolerantLog β (next value)) :
    Tracks strictLog tolerantLog β (first >>= next) where
  forward := forward_bind former.forward fun value => (latter value).forward
  agree := by
    intro source strict tolerant alike
    have both := former.agree source alike
    rw [bind_run, bind_run]
    generalize first ⟨source, .strict⟩ strict = strictOutcome at both ⊢
    generalize first ⟨source, .tolerant⟩ tolerant = tolerantOutcome at both ⊢
    cases both with
    | ok value alike => exact (latter value).agree _ alike
    | noted alike => exact .noted alike
    | parted parted =>
      refine .parted (parted.later ?_)
      cases tolerantOutcome with
      | ok value later => exact (latter value).forward _ later
      | error halt later => exact .refl later

theorem tracks_accept (pattern : Pattern α) :
    Tracks strictLog tolerantLog (Option α) (accept pattern) where
  forward := forward_accept pattern
  agree := by
    intro source strict tolerant alike
    cases present : pattern.read strict.cursor.rest with
    | none =>
      rw [accept_none present, accept_none (alike.cursor ▸ present)]
      exact .ok none alike
    | some found =>
      rw [accept_some present, accept_some (alike.cursor ▸ present)]
      refine .ok _ ⟨?_, alike.openComment, alike.strictClean, alike.tolerantClean, alike.events⟩
      simp only [State.past, alike.cursor]

theorem tracks_record (keyword : AtKeyword) (start : Location) :
    Tracks strictLog tolerantLog Unit (record (.readAtRule keyword start)) where
  forward := closed_forward.record keyword start
  agree := by
    intro source strict tolerant alike
    obtain ⟨middle, strictEvents, tolerantEvents, quiet⟩ := alike.events
    refine .ok () ⟨alike.cursor, alike.openComment, alike.strictClean, alike.tolerantClean,
      middle ++ [.readAtRule keyword start], ?_, ?_, ?_⟩
    · rw [← List.append_assoc, ← strictEvents]
    · rw [← List.append_assoc, ← tolerantEvents]
    · intro event member
      rcases List.mem_append.mp member with earlier | last
      · exact quiet event earlier
      · rw [List.mem_singleton.mp last]
        rintro ⟨⟩

/-- This is where the two parses part. -/
theorem tracks_report (cause : Cause) : Tracks strictLog tolerantLog Unit (report cause) where
  forward := forward_report cause
  agree := by
    intro source strict tolerant alike
    obtain ⟨middle, strictEvents, tolerantEvents, quiet⟩ := alike.events
    rw [report_strict, report_tolerant, alike.cursor]
    refine .parted ⟨?_, middle, strictEvents, ?_, quiet⟩
    · show _ <+: tolerant.faults ++ [_]
      rw [alike.tolerantClean]
      exact List.prefix_rfl
    · show _ <+: tolerant.events ++ [_]
      exact ⟨[], by rw [List.append_nil, tolerantEvents]⟩

theorem tracks_attempt {parser : Parser (Option α)}
    (tracks : Tracks strictLog tolerantLog (Option α) parser) :
    Tracks strictLog tolerantLog (Option α) (attempt parser) where
  forward := forward_attempt tracks.forward
  agree := by
    intro source strict tolerant alike
    have both := tracks.agree source alike
    unfold attempt
    generalize parser ⟨source, .strict⟩ strict = strictOutcome at both ⊢
    generalize parser ⟨source, .tolerant⟩ tolerant = tolerantOutcome at both ⊢
    cases both with
    | ok value alike => exact .ok value alike
    | noted alike => exact .ok none alike
    | parted parted =>
      refine .parted (parted.later ?_)
      split <;> exact .refl _

theorem tracks_collect {item : Parser (Option α)}
    (tracks : Tracks strictLog tolerantLog (Option α) item) :
    Tracks strictLog tolerantLog (List α) (collect item) where
  forward := forward_collect tracks.forward
  agree := by
    intro source strict tolerant alike
    -- the induction is on the text left, which is the same in both runs
    induction left : strict.left using Nat.strongRecOn generalizing strict tolerant with
    | ind size inductionHypothesis =>
      have both := tracks.agree source alike
      rw [collect_eq, collect_eq]
      generalize item ⟨source, .strict⟩ strict = strictOutcome at both ⊢
      generalize item ⟨source, .tolerant⟩ tolerant = tolerantOutcome at both ⊢
      cases both with
      | noted alike => exact .ok [] alike
      | parted parted => exact .parted (parted.later (forward_goOn tracks.forward _ _ _))
      | @ok value later later' alike' =>
        cases value with
        | none => exact .ok [] alike'
        | some value =>
          simp only [goOn, alike.left_eq, alike'.left_eq]
          by_cases less : later.left < strict.left
          · rw [if_pos less, if_pos less]
            have rest := inductionHypothesis later.left (left ▸ less) alike' rfl
            generalize collect item ⟨source, .strict⟩ later = strictOutcome at rest ⊢
            generalize collect item ⟨source, .tolerant⟩ later' = tolerantOutcome at rest ⊢
            cases rest with
            | ok values alike => exact .ok _ alike
            | noted alike => exact .noted alike
            | parted parted =>
              refine .parted (parted.later ?_)
              cases tolerantOutcome <;> exact .refl _
          · rw [if_neg less, if_neg less]
            exact .ok _ alike'

theorem stepwise_tracks : Stepwise (Tracks strictLog tolerantLog) where
  pure value := ⟨closed_forward.pure value, fun _ _ _ alike => .ok value alike⟩
  bind := tracks_bind
  look view := by
    refine ⟨closed_forward.look view, ?_⟩
    intro source strict tolerant alike
    show Agree _ _ (.ok (view strict.cursor) strict) (.ok (view tolerant.cursor) tolerant)
    rw [alike.cursor]
    exact .ok _ alike
  accept := tracks_accept
  sourceName := ⟨closed_forward.sourceName, fun _ _ _ alike => .ok _ alike⟩
  recallOpen := by
    refine ⟨stepwise_forward.recallOpen, ?_⟩
    intro source strict tolerant alike
    show Agree _ _ (.ok strict.openComment strict) (.ok tolerant.openComment tolerant)
    rw [alike.openComment]
    exact .ok _ alike
  rememberOpen start := by
    refine ⟨stepwise_forward.rememberOpen start, ?_⟩
    intro source strict tolerant alike
    exact .ok () ⟨alike.cursor, rfl, alike.strictClean, alike.tolerantClean, alike.events⟩
  record := tracks_record
  report := tracks_report
  halt := ⟨stepwise_forward.halt, fun _ _ _ alike => .noted alike⟩
  attempt := tracks_attempt
  collect := tracks_collect
  byLeft := by
    intro α parsers tracks
    refine ⟨closed_forward.byLeft fun left => (tracks left).forward, ?_⟩
    intro source strict tolerant alike
    unfold byLeft
    rw [alike.left_eq]
    exact (tracks strict.left).agree _ alike

theorem closed_tracks : Closed (Tracks strictLog tolerantLog) := stepwise_tracks.closed

end CssSyntax.Grammar

namespace CssSyntax

open Grammar

/-! ### Whole parses -/

/-- The state in which a parse of the text begins. -/
def begun (css : String) (options : Options) : State :=
  { cursor := .ofText css.toList, events := [.started options.source options.mode] }

/-- What a parse makes of the outcome of its list of rules. -/
def sheetOf (source : Option String) :
    EStateM.Result Halt State (List Node) → Except Fault Stylesheet
  | .ok nodes last => .ok (.ofRules source nodes last.faults)
  | .error .noted last => .ok (.ofRules source [] last.faults)
  | .error (.raised fault) _ => .error fault

theorem parseWith_eq (css : String) (options : Options) :
    parseWith css options = sheetOf options.source (rules options (begun css options)) := by
  have recorded : parseRecorded css options =
      match rules options (begun css options) with
      | .ok nodes last => (finish options nodes last).map .ok id
      | .error .noted last => (finish options [] last).map .ok id
      | .error (.raised fault) last => (.error fault, last.events) := rfl
  rw [parseWith, recorded]
  cases rules options (begun css options) with
  | ok nodes last => rfl
  | error halt last => cases halt <;> rfl

section

variable {css : String} {options : Options}

/-- A parse that gives a stylesheet has come to the end of its list of rules. -/
theorem ok_of_parseWith {sheet : Stylesheet} (read : parseWith css options = .ok sheet) :
    ∃ nodes last, rules options (begun css options) = .ok nodes last ∧
      sheet = .ofRules options.source nodes last.faults := by
  rw [parseWith_eq] at read
  cases outcome : rules options (begun css options) with
  | ok nodes last =>
    rw [outcome] at read
    cases read
    exact ⟨nodes, last, rfl, rfl⟩
  | error halt last =>
    rw [outcome] at read
    cases halt with
    | noted => exact absurd outcome (completes_rules options _ last)
    | raised fault => cases read

/-- A parse that ends with a fault has raised it. -/
theorem error_of_parseWith {fault : Fault} (failed : parseWith css options = .error fault) :
    ∃ last, rules options (begun css options) = .error (.raised fault) last := by
  rw [parseWith_eq] at failed
  cases outcome : rules options (begun css options) with
  | ok nodes last =>
    rw [outcome] at failed
    cases failed
  | error halt last =>
    rw [outcome] at failed
    cases halt with
    | noted => cases failed
    | raised told =>
      cases failed
      exact ⟨last, rfl⟩

end

theorem sheetOf_of_not_raised (source : Option String)
    (outcome : EStateM.Result Halt State (List Node))
    (lenient : ∀ fault last, outcome ≠ .error (.raised fault) last) :
    ∃ nodes, sheetOf source outcome = .ok (.ofRules source nodes (reached outcome).faults) := by
  cases outcome with
  | ok nodes last => exact ⟨nodes, rfl⟩
  | error halt last =>
    cases halt with
    | noted => exact ⟨[], rfl⟩
    | raised fault => exact absurd rfl (lenient fault last)

theorem rules_agree (css : String) (source : Option String) :
    Agree [.started source .strict] [.started source .tolerant]
      (rules ⟨source, .strict⟩ (begun css ⟨source, .strict⟩))
      (rules ⟨source, .tolerant⟩ (begun css ⟨source, .tolerant⟩)) := by
  refine closed_tracks.rules.agree source ⟨rfl, rfl, rfl, rfl, [], rfl, rfl, ?_⟩
  exact fun event absurdity => absurd absurdity List.not_mem_nil

/-- Either the tolerant parse noted nothing and the strict one gives the same stylesheet, or the
strict one ends with the fault that was noted first. -/
theorem parse_modes (css : String) (source : Option String) :
    ∃ sheet, parseWith css ⟨source, .tolerant⟩ = .ok sheet ∧
      (sheet.faults = [] ∧ parseWith css ⟨source, .strict⟩ = .ok sheet ∨
        ∃ fault, sheet.faults.head? = some fault ∧
          parseWith css ⟨source, .strict⟩ = .error fault) := by
  have both := rules_agree css source
  have lenient := closed_lenient.rules source (begun css ⟨source, .tolerant⟩)
  rw [parseWith_eq, parseWith_eq]
  generalize rules ⟨source, .strict⟩ (begun css ⟨source, .strict⟩) = strictOutcome at both ⊢
  generalize rules ⟨source, .tolerant⟩ (begun css ⟨source, .tolerant⟩) = tolerantOutcome
    at both lenient ⊢
  cases both with
  | ok nodes alike =>
    refine ⟨_, rfl, .inl ⟨alike.tolerantClean, ?_⟩⟩
    simp only [sheetOf, alike.strictClean, alike.tolerantClean]
  | noted alike =>
    refine ⟨_, rfl, .inl ⟨alike.tolerantClean, ?_⟩⟩
    simp only [sheetOf, alike.strictClean, alike.tolerantClean]
  | @parted fault strict _ parted =>
    obtain ⟨nodes, sheet⟩ := sheetOf_of_not_raised source tolerantOutcome lenient
    obtain ⟨others, faults⟩ := parted.first
    refine ⟨_, sheet, .inr ⟨fault, ?_, rfl⟩⟩
    rw [Stylesheet.ofRules, ← faults]
    rfl

/-- A tolerant parse always gives a stylesheet, and a strict parse of the same text says no more and
no less: it fails exactly when faults were noted, then with the first of them, and gives the very
same stylesheet exactly when none was. -/
theorem strict_agrees_with_tolerant (css : String) (source : Option String) :
    ∃ sheet, parseWith css ⟨source, .tolerant⟩ = .ok sheet ∧
      (∀ fault, parseWith css ⟨source, .strict⟩ = .error fault ↔
        sheet.faults.head? = some fault) ∧
      (parseWith css ⟨source, .strict⟩ = .ok sheet ↔ sheet.faults = []) := by
  obtain ⟨sheet, tolerant, ⟨clean, strict⟩ | ⟨first, noted, strict⟩⟩ := parse_modes css source
  · refine ⟨sheet, tolerant, fun fault => ?_, ?_⟩
    · rw [strict, clean]
      constructor <;> rintro ⟨⟩
    · exact ⟨fun _ => clean, fun _ => strict⟩
  · refine ⟨sheet, tolerant, fun fault => ?_, ?_⟩
    · rw [strict, noted, Except.error.injEq, Option.some.injEq]
    · rw [strict]
      refine ⟨by rintro ⟨⟩, fun clean => ?_⟩
      rw [clean] at noted
      cases noted

end CssSyntax
