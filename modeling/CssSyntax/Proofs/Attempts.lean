/-
This file shows that a failed attempt leaves no trace.

A construct that may be absent is looked for by its opening. Alternatives are tried one after
another on the same text with nothing to undo the attempts that failed, so an attempt that finds
its construct absent must have changed nothing: neither the cursor nor the faults, neither the
comment kept in mind nor the record. The proof is the same for all of them. The opening is one
match, and once it has been made the construct is never called absent any more: it is read or given
up.

Whatever comes of an attempt or of any other production of the grammar, the text that is left is
the end of the text that was ahead, and the faults begin with those that were noted before.
-/

import CssSyntax.Proofs.Steps

namespace CssSyntax.Grammar

variable {α β : Type}

/-! ### Constructs that are begun -/

/-- The parser never calls its construct absent. -/
def Commits (parser : Parser (Option α)) : Prop :=
  ∀ (options : Options) (state last : State), parser options state ≠ .ok none last

theorem commits_some (value : α) : Commits (pure (some value)) := by
  rintro options state last ⟨⟩

theorem commits_fail (cause : Cause) : Commits (fail cause : Parser (Option α)) :=
  fun _ _ _ => fail_ne_ok

theorem commits_tellOpen (start : Location) : Commits (tellOpen start) :=
  fun _ _ _ => tellOpen_ne_ok

theorem commits_bind {first : Parser α} {next : α → Parser (Option β)}
    (commits : ∀ value, Commits (next value)) : Commits (first >>= next) := by
  intro options state last run
  obtain ⟨value, later, -, run⟩ := ok_of_bind run
  exact commits value options later last run

theorem commits_demand {pattern : Pattern α} {next : Option α → Parser (Option β)} {cause : Cause}
    (missing : next none = fail cause) (commits : ∀ found, Commits (next (some found))) :
    Commits (accept pattern >>= next) := by
  refine commits_bind fun found => ?_
  cases found with
  | none =>
    rw [missing]
    exact commits_fail cause
  | some found => exact commits found

/-! ### Constructs that are absent -/

section

variable {options : Options} {state last : State}

/-- The construct is absent only where its opening is not ahead. -/
theorem absent_of_accept {pattern : Pattern α} {next : Option α → Parser (Option β)}
    (run : (accept pattern >>= next) options state = .ok none last)
    (absent : next none = pure none) (commits : ∀ found, Commits (next (some found))) :
    last = state ∧ pattern.read state.cursor.rest = none := by
  rcases ok_of_accept_bind run with ⟨missing, run⟩ | ⟨found, -, run⟩
  · rw [absent] at run
    cases run
    exact ⟨rfl, missing⟩
  · exact absurd run (commits _ options _ last)

theorem absent_of_comment (run : comment options state = .ok none last) :
    last = state ∧ ¬ commentOpener <+: state.cursor.rest := by
  rw [comment, here_bind, startsWith_bind] at run
  by_cases opened : state.cursor.startsWith commentOpener = true
  · rw [if_pos opened] at run
    rcases ok_of_accept_bind run with ⟨-, run⟩ | ⟨body, -, run⟩
    · exact absurd run (commits_tellOpen _ options _ last)
    · exact absurd run (commits_bind (fun _ => commits_some _) options _ last)
  · rw [if_neg opened] at run
    cases run
    exact ⟨rfl, fun start => opened (List.isPrefixOf_iff_prefix.mpr start)⟩

theorem absent_of_declaration (run : declaration options state = .ok none last) :
    last = state ∧ propertyName.read state.cursor.rest = none := by
  rw [declaration, here_bind] at run
  refine absent_of_accept run rfl fun property => commits_demand rfl fun mark => ?_
  exact commits_bind fun value => commits_bind fun span => commits_bind fun _ => commits_some _

theorem absent_of_keyframe (run : keyframe options state = .ok none last) :
    last = state ∧ offsets.nonempty.read state.cursor.rest = none := by
  rw [keyframe, here_bind] at run
  refine absent_of_accept run rfl fun found => ?_
  exact commits_bind fun children => commits_bind fun _ => commits_some _

theorem absent_of_keyframes (run : keyframes options state = .ok none last) :
    last = state ∧ (vendorKeyword .keyframes).spaced.read state.cursor.rest = none := by
  rw [keyframes, here_bind] at run
  refine absent_of_accept run rfl fun vendor => commits_demand rfl fun name => ?_
  exact commits_bind fun children => commits_bind fun _ => commits_some _

theorem absent_of_statement {opening : Pattern Leaf}
    (run : statement opening options state = .ok none last) :
    last = state ∧ opening.read state.cursor.rest = none := by
  rw [statement, here_bind] at run
  exact absent_of_accept run rfl fun content => commits_bind fun _ => commits_some _

theorem absent_of_conditional {name : AtKeyword} {opening : Pattern Header}
    {body : Parser (List Node)}
    (run : conditional name opening body options state = .ok none last) :
    last = state ∧ opening.read state.cursor.rest = none := by
  rw [conditional, here_bind] at run
  refine absent_of_accept run rfl fun header => ?_
  exact commits_bind fun children => commits_bind fun _ => commits_some _

end

/-- Where the construct is absent, the parser changes nothing. -/
def Traceless (parser : Parser (Option α)) : Prop :=
  ∀ (options : Options) (state last : State), parser options state = .ok none last → last = state

theorem traceless_comment : Traceless comment :=
  fun _ _ _ run => (absent_of_comment run).1

theorem traceless_declaration : Traceless declaration :=
  fun _ _ _ run => (absent_of_declaration run).1

theorem traceless_keyframe : Traceless keyframe :=
  fun _ _ _ run => (absent_of_keyframe run).1

theorem traceless_orComment {item : Parser (Option Node)} (traceless : Traceless item) :
    Traceless (orComment item) := by
  intro options state last run
  obtain ⟨found, later, first, second⟩ := ok_of_bind run
  cases found with
  | some comment => cases second
  | none =>
    obtain ⟨rfl, -⟩ := absent_of_comment first
    exact traceless options later last second

theorem traceless_atRule (nested : Parser (List Node)) (name : AtKeyword) :
    Traceless (atRule nested name) := by
  intro options state last run
  cases name with
  | keyframes => exact (absent_of_keyframes run).1
  | media | supports | document | host | page | fontFace => exact (absent_of_conditional run).1
  | customMedia | importRule | charset | namespaceRule => exact (absent_of_statement run).1

/-- The attempts at one at-rule after another leave no trace as long as all of them fail, and where
no at-rule is found, all of them have failed. -/
theorem absent_of_firstAtRule {nested : Parser (List Node)} {names : List AtKeyword}
    {options : Options} {state last : State}
    (run : firstAtRule nested names options state = .ok none last) :
    last = state ∧ ∀ name ∈ names, atRule nested name options state = .ok none state := by
  induction names with
  | nil =>
    cases run
    exact ⟨rfl, List.forall_mem_nil _⟩
  | cons name others inductionHypothesis =>
    obtain ⟨found, later, first, second⟩ := ok_of_bind run
    cases found with
    | some node => exact absurd second (commits_bind (fun _ => commits_some _) options _ last)
    | none =>
      obtain rfl := traceless_atRule nested name options state later first
      obtain ⟨same, absent⟩ := inductionHypothesis second
      exact ⟨same, List.forall_mem_cons.mpr ⟨first, absent⟩⟩

theorem traceless_firstAtRule (nested : Parser (List Node)) (names : List AtKeyword) :
    Traceless (firstAtRule nested names) :=
  fun _ _ _ run => (absent_of_firstAtRule run).1

/-! ### Attempts and productions -/

/-- A construct that may be absent. The blocks of at-rules are read by the parser given. -/
inductive Attempt where
  | comment
  | declaration
  | keyframe
  | atRule (nested : Parser (List Node)) (name : AtKeyword)
  /-- Any at-rule of the table. -/
  | anyAtRule (nested : Parser (List Node))

/-- The parser that looks for the construct. -/
def Attempt.parser : Attempt → Parser (Option Node)
  | .comment => Grammar.comment
  | .declaration => Grammar.declaration
  | .keyframe => Grammar.keyframe
  | .atRule nested name => Grammar.atRule nested name
  | .anyAtRule nested => firstAtRule nested AtKeyword.table

/-- The productions of the grammar, which are put together from one another, and the steps that they
share. -/
inductive Production : Type → Type 1 where
  | accept {α : Type} (pattern : Pattern α) : Production (Option α)
  | spanFrom (start : Location) : Production Span
  | report (cause : Cause) : Production Unit
  | fail {α : Type} (cause : Cause) : Production α
  | comment : Production (Option Node)
  | declaration : Production (Option Node)
  | orComment (other : Production (Option Node)) : Production (Option Node)
  | attempt (construct : Production (Option Node)) : Production (Option Node)
  | collect (listed : Production (Option Node)) : Production (List Node)
  | atBlock (name : AtKeyword) (body : Production (List Node)) : Production (List Node)
  | plainBlock : Production (List Node)
  | keyframe : Production (Option Node)
  | keyframes : Production (Option Node)
  | statement (opening : Pattern Leaf) : Production (Option Node)
  | conditional (name : AtKeyword) (opening : Pattern Header) (body : Production (List Node)) :
    Production (Option Node)
  | atRule (nested : Production (List Node)) (name : AtKeyword) : Production (Option Node)
  | firstAtRule (nested : Production (List Node)) (names : List AtKeyword) :
    Production (Option Node)
  | rule : Production (Option Node)
  | ruleOrAtRule (nested : Production (List Node)) : Production (Option Node)
  | item (nested : Production (List Node)) : Production (Option Node)
  | rules : Production (List Node)
  | rulesBelow (bound : Nat) : Production (List Node)

/-- The parser that a production stands for. -/
def Production.parser {α : Type} : Production α → Parser α
  | .accept pattern => Grammar.accept pattern
  | .spanFrom start => Grammar.spanFrom start
  | .report cause => Grammar.report cause
  | .fail cause => Grammar.fail cause
  | .comment => Grammar.comment
  | .declaration => Grammar.declaration
  | .orComment other => Grammar.orComment other.parser
  | .attempt construct => Grammar.attempt construct.parser
  | .collect listed => Grammar.collect listed.parser
  | .atBlock name body => Grammar.atBlock name body.parser
  | .plainBlock => Grammar.plainBlock
  | .keyframe => Grammar.keyframe
  | .keyframes => Grammar.keyframes
  | .statement opening => Grammar.statement opening
  | .conditional name opening body => Grammar.conditional name opening body.parser
  | .atRule nested name => Grammar.atRule nested.parser name
  | .firstAtRule nested names => Grammar.firstAtRule nested.parser names
  | .rule => Grammar.rule
  | .ruleOrAtRule nested => Grammar.ruleOrAtRule nested.parser
  | .item nested => Grammar.item nested.parser
  | .rules => Grammar.rules
  | .rulesBelow bound => Grammar.rulesBelow bound

theorem forward_production (production : Production α) : Forward α production.parser := by
  induction production with
  | accept pattern => exact forward_accept pattern
  | spanFrom start => exact closed_forward.spanFrom start
  | report cause => exact forward_report cause
  | fail cause => exact stepwise_forward.fail cause
  | comment => exact closed_forward.comment
  | declaration => exact closed_forward.declaration
  | orComment other forward => exact closed_forward.orComment forward
  | attempt construct forward => exact closed_forward.attempt forward
  | collect listed forward => exact closed_forward.collect forward
  | atBlock name body forward => exact closed_forward.atBlock name forward
  | plainBlock => exact closed_forward.plainBlock
  | keyframe => exact closed_forward.keyframe
  | keyframes => exact closed_forward.keyframes
  | statement opening => exact closed_forward.statement opening
  | conditional name opening body forward => exact closed_forward.conditional name opening forward
  | atRule nested name forward => exact closed_forward.atRule forward name
  | firstAtRule nested names forward => exact closed_forward.firstAtRule forward names
  | rule => exact closed_forward.rule
  | ruleOrAtRule nested forward => exact closed_forward.ruleOrAtRule forward
  | item nested forward => exact closed_forward.item forward
  | rules => exact closed_forward.rules
  | rulesBelow bound => exact closed_forward.rulesBelow bound

/-- Whatever the outcome, the text left is a suffix of the text that was ahead, and the faults are
those noted before and perhaps more. -/
def Onward (parser : Parser α) : Prop :=
  ∀ (options : Options) (state : State),
    (reached (parser options state)).cursor.rest <:+ state.cursor.rest ∧
      state.faults <+: (reached (parser options state)).faults

/-- An attempt that finds its construct absent leaves the state as it was, and every production, as
it may end, goes onward. -/
theorem attempts_leave_no_trace :
    (∀ attempt : Attempt, Traceless attempt.parser) ∧
      ∀ {α : Type} (production : Production α), Onward production.parser := by
  refine ⟨fun attempt => ?_, fun production options state => ?_⟩
  · cases attempt with
    | comment => exact traceless_comment
    | declaration => exact traceless_declaration
    | keyframe => exact traceless_keyframe
    | atRule nested name => exact traceless_atRule nested name
    | anyAtRule nested => exact traceless_firstAtRule nested _
  · have onward := forward_production production options state
    obtain ⟨taken, rest, -⟩ := onward.text
    exact ⟨⟨taken, rest.symm⟩, onward.faults⟩

/-- The keyword and the name are there, and only behind them the query is missing. -/
example (options : Options) :
    atRule rules .customMedia options { cursor := .ofText "@custom-media --wide".toList } =
      .ok none { cursor := .ofText "@custom-media --wide".toList } := by
  rfl

end CssSyntax.Grammar
