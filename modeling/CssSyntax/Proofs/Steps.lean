/-
This file says what the grammar is made of.

Every parser of the grammar is put together from a few steps: a look at the cursor, a match, a
fault, an event, and the unterminated comment that is kept in mind. Steps are joined by sequence,
by lists, by attempts and by a choice that depends on how much text is left. The last one is how a
list of rules reads the blocks inside it.

A property of parsers that holds of the steps and is kept by the joints therefore holds of the whole
grammar. `Closed` says that of a property, and `Closed.rules` is the conclusion. The mutual
recursion of the grammar is dealt with there, once. Properties differ in what they ask of a fault.
`Closed` asks least: a fault is one step together with the match that found nothing, so a property
may depend on the text that the fault is told of. `Faultwise` is the demand on a property that holds
of a fault anywhere, and `Stepwise` on one that holds of the report alone and of the halt behind it.
The first property is that no parser goes back: what is left of the text is a suffix of what was
left, noted faults and events stay, and new faults lie on the way.
-/

import CssSyntax.Grammar.Forest
import CssSyntax.Proofs.Locations

namespace CssSyntax.Grammar

variable {α β : Type}

/-! ### Running a parser -/

theorem bind_run (first : Parser α) (next : α → Parser β) (options : Options) (state : State) :
    (first >>= next) options state =
      match first options state with
      | .ok value later => next value options later
      | .error halt later => .error halt later := by
  show EStateM.bind (first options) (fun value => next value options) state = _
  rw [EStateM.bind]
  cases first options state <;> rfl

/-- The state in which an outcome leaves the parse. -/
def reached : EStateM.Result Halt State α → State
  | .ok _ state => state
  | .error _ state => state

/-! ### Steps -/

/-- What a function finds out about the cursor. -/
def look (view : Cursor → α) : Parser α := do
  return view (← get).cursor

/-- The name of the source. -/
def sourceName : Parser (Option String) := do
  return (← read).source

/-- Where the unterminated comment noted last begins. -/
def recallOpen : Parser (Option Location) := do
  return (← get).openComment

/-- Keeps in mind where an unterminated comment begins. -/
def rememberOpen (start : Location) : Parser Unit :=
  modify fun state => { state with openComment := some start }

/-- Tells an unterminated comment, unless it is the one that was told last, and gives up. -/
def tellOpen (start : Location) : Parser (Option Node) := do
  if (← recallOpen) = some start then throw .noted
  else
    rememberOpen start
    fail .unterminatedComment

/-- The parser that the number of characters left selects. -/
def byLeft (parsers : Nat → Parser α) : Parser α := fun options state =>
  parsers state.left options state

/-- A list of rules whose blocks are read by `nested`. -/
def ruleList (nested : Parser (List Node)) : Parser (List Node) := do
  let _ ← accept .blanks
  collect (item nested)

/-- A list of rules where less text than the bound is left, and an empty list elsewhere. -/
def rulesBelow (bound : Nat) : Parser (List Node) := fun options state =>
  if state.left < bound then rules options state else .ok [] state

theorem rules_eq : rules = byLeft fun left => ruleList (rulesBelow left) := by
  funext options state
  rw [rules]
  rfl

theorem rulesBelow_eq (bound : Nat) :
    rulesBelow bound = byLeft fun left =>
      if left < bound then ruleList (rulesBelow left) else pure [] := by
  funext options state
  by_cases less : state.left < bound
  · rw [rulesBelow, if_pos less, byLeft, if_pos less, rules_eq, byLeft]
  · rw [rulesBelow, if_neg less, byLeft, if_neg less]
    rfl

/-! ### Properties that the steps have and the joints keep -/

/-- The cause is told where the pattern finds nothing. -/
inductive Misses : Pattern (List Char) → Cause → Prop where
  | selector : Misses selectorText .missingSelector
  | colon : Misses colon .missingColon
  | openBrace (construct : Construct) : Misses openBrace (.missingOpenBrace construct)
  | closeBrace (construct : Construct) : Misses closeBrace (.missingCloseBrace construct)
  | name : Misses identifier.spaced .missingKeyframesName

/-- A property of parsers that holds of every step without a fault and is kept by every joint. -/
structure Quiet (Holds : ∀ α : Type, Parser α → Prop) : Prop where
  pure : ∀ {α : Type} (value : α), Holds α (pure value)
  bind : ∀ {α β : Type} {first : Parser α} {next : α → Parser β},
    Holds α first → (∀ value, Holds β (next value)) → Holds β (first >>= next)
  look : ∀ {α : Type} (view : Cursor → α), Holds α (look view)
  accept : ∀ {α : Type} (pattern : Pattern α), Holds (Option α) (accept pattern)
  sourceName : Holds (Option String) sourceName
  record : ∀ keyword start, Holds Unit (record (.readAtRule keyword start))
  attempt : ∀ {α : Type} {parser : Parser (Option α)},
    Holds (Option α) parser → Holds (Option α) (attempt parser)
  collect : ∀ {α : Type} {item : Parser (Option α)},
    Holds (Option α) item → Holds (List α) (collect item)
  byLeft : ∀ {α : Type} {parsers : Nat → Parser α},
    (∀ left, Holds α (parsers left)) → Holds α (byLeft parsers)

namespace Quiet

variable {Holds : ∀ α : Type, Parser α → Prop} (quiet : Quiet Holds)
include quiet

theorem here : Holds Location here := quiet.look Cursor.location

theorem startsWith (word : List Char) : Holds Bool (startsWith word) :=
  quiet.look fun cursor => cursor.startsWith word

theorem atEnd : Holds Bool atEnd := quiet.look Cursor.atEnd

theorem spanFrom (start : Location) : Holds Span (spanFrom start) := by
  have steps : Grammar.spanFrom start = (do
      let stop ← Grammar.here
      let source ← Grammar.sourceName
      let _ ← Grammar.accept .blanks
      return ⟨start, stop, source⟩) := rfl
  rw [steps]
  refine quiet.bind quiet.here fun stop => ?_
  refine quiet.bind quiet.sourceName fun source => ?_
  exact quiet.bind (quiet.accept _) fun _ => quiet.pure _

end Quiet

/-- A property of parsers that holds of every step, a fault being told where it is true, and is kept
by every joint. -/
structure Closed (Holds : ∀ α : Type, Parser α → Prop) : Prop extends Quiet Holds where
  comment : Holds (Option Node) comment
  /-- A match without which the construct is given up. -/
  demand : ∀ {β : Type} {pattern : Pattern (List Char)} {cause : Cause}
    {next : Option (List Char) → Parser β}, Misses pattern cause → next none = fail cause →
    (∀ found, Holds β (next (some found))) → Holds β (Grammar.accept pattern >>= next)
  /-- A match without which the construct goes on. -/
  expect : ∀ {β : Type} {pattern : Pattern (List Char)} {cause : Cause}
    {next : Option (List Char) → Parser β} {others : Parser β}, Misses pattern cause →
    (next none = do report cause; others) → Holds β others →
    (∀ found, Holds β (next (some found))) → Holds β (Grammar.accept pattern >>= next)

namespace Closed

variable {Holds : ∀ α : Type, Parser α → Prop} (closed : Closed Holds)
include closed

/-! ### Comments, declarations and blocks -/

theorem declaration : Holds (Option Node) declaration := by
  refine closed.bind closed.here fun start => ?_
  refine closed.bind (closed.accept _) fun property => ?_
  cases property with
  | none => exact closed.pure _
  | some property =>
    refine closed.demand .colon rfl fun mark => ?_
    refine closed.bind (closed.accept _) fun value => ?_
    refine closed.bind (closed.spanFrom _) fun span => ?_
    exact closed.bind (closed.accept _) fun _ => closed.pure _

theorem orComment {item : Parser (Option Node)} (holds : Holds (Option Node) item) :
    Holds (Option Node) (orComment item) := by
  refine closed.bind closed.comment fun found => ?_
  cases found with
  | some node => exact closed.pure _
  | none => exact holds

theorem declarations : Holds (List Node) declarations :=
  closed.collect (closed.orComment closed.declaration)

theorem atBlock (name : AtKeyword) {body : Parser (List Node)} (holds : Holds (List Node) body) :
    Holds (List Node) (atBlock name body) := by
  refine closed.demand (.openBrace _) rfl fun mark => ?_
  refine closed.bind holds fun children => ?_
  exact closed.demand (.closeBrace _) rfl fun mark => closed.pure _

theorem plainBlock : Holds (List Node) plainBlock := by
  refine closed.demand (.openBrace _) rfl fun mark => ?_
  refine closed.bind closed.declarations fun children => ?_
  exact closed.expect (.closeBrace _) rfl (closed.pure _) fun mark => closed.pure _

/-! ### At-rules -/

theorem keyframe : Holds (Option Node) keyframe := by
  refine closed.bind closed.here fun start => ?_
  refine closed.bind (closed.accept _) fun found => ?_
  cases found with
  | none => exact closed.pure _
  | some found =>
    refine closed.bind closed.plainBlock fun children => ?_
    exact closed.bind (closed.spanFrom _) fun _ => closed.pure _

theorem keyframes : Holds (Option Node) keyframes := by
  refine closed.bind closed.here fun start => ?_
  refine closed.bind (closed.accept _) fun vendor => ?_
  cases vendor with
  | none => exact closed.pure _
  | some vendor =>
    refine closed.demand .name rfl fun name => ?_
    have body := closed.collect (closed.orComment closed.keyframe)
    refine closed.bind (closed.atBlock _ body) fun children => ?_
    exact closed.bind (closed.spanFrom _) fun _ => closed.pure _

theorem statement (opening : Pattern Leaf) : Holds (Option Node) (statement opening) := by
  refine closed.bind closed.here fun start => ?_
  refine closed.bind (closed.accept _) fun content => ?_
  cases content with
  | none => exact closed.pure _
  | some content => exact closed.bind (closed.spanFrom _) fun _ => closed.pure _

theorem conditional (name : AtKeyword) (opening : Pattern Header) {body : Parser (List Node)}
    (holds : Holds (List Node) body) : Holds (Option Node) (conditional name opening body) := by
  refine closed.bind closed.here fun start => ?_
  refine closed.bind (closed.accept _) fun header => ?_
  cases header with
  | none => exact closed.pure _
  | some header =>
    refine closed.bind (closed.atBlock _ holds) fun children => ?_
    exact closed.bind (closed.spanFrom _) fun _ => closed.pure _

variable {nested : Parser (List Node)}

theorem atRule (holds : Holds (List Node) nested) (name : AtKeyword) :
    Holds (Option Node) (atRule nested name) := by
  cases name with
  | keyframes => exact closed.keyframes
  | media | supports | document | host => exact closed.conditional _ _ holds
  | page | fontFace => exact closed.conditional _ _ closed.declarations
  | customMedia | importRule | charset | namespaceRule => exact closed.statement _

theorem firstAtRule (holds : Holds (List Node) nested) (names : List AtKeyword) :
    Holds (Option Node) (firstAtRule nested names) := by
  induction names with
  | nil => exact closed.pure _
  | cons name others inductionHypothesis =>
    refine closed.bind (closed.atRule holds name) fun found => ?_
    cases found with
    | some node => exact closed.bind (closed.record _ _) fun _ => closed.pure _
    | none => exact inductionHypothesis

/-! ### Rules -/

theorem rule : Holds (Option Node) rule := by
  refine closed.bind closed.here fun start => ?_
  refine closed.demand .selector rfl fun text => ?_
  refine closed.bind closed.plainBlock fun children => ?_
  exact closed.bind (closed.spanFrom _) fun _ => closed.pure _

theorem ruleOrAtRule (holds : Holds (List Node) nested) :
    Holds (Option Node) (ruleOrAtRule nested) := by
  refine closed.bind (closed.attempt (closed.firstAtRule holds _)) fun found => ?_
  cases found with
  | some node => exact closed.pure _
  | none => exact closed.rule

theorem item (holds : Holds (List Node) nested) : Holds (Option Node) (item nested) := by
  refine closed.orComment ?_
  refine closed.bind closed.atEnd fun ended => ?_
  refine closed.bind (closed.startsWith _) fun braced => ?_
  split
  · exact closed.pure _
  · exact closed.ruleOrAtRule holds

theorem ruleList (holds : Holds (List Node) nested) : Holds (List Node) (ruleList nested) :=
  closed.bind (closed.accept _) fun _ => closed.collect (closed.item holds)

/-- Lists of rules in blocks are read where less text is left, so the property climbs along the
bound on the text left. -/
theorem rulesBelow (bound : Nat) : Holds (List Node) (rulesBelow bound) := by
  induction bound using Nat.strongRecOn with
  | ind bound inductionHypothesis =>
    rw [rulesBelow_eq]
    refine closed.byLeft fun left => ?_
    split
    · exact closed.ruleList (inductionHypothesis left ‹_›)
    · exact closed.pure _

/-- A property that the steps have and the joints keep holds of lists of rules. -/
theorem rules : Holds (List Node) rules := by
  rw [rules_eq]
  exact closed.byLeft fun left => closed.ruleList (closed.rulesBelow left)

end Closed

/-! ### Properties of faults -/

/-- A property that holds of a fault wherever it is told. -/
structure Faultwise (Holds : ∀ α : Type, Parser α → Prop) : Prop extends Quiet Holds where
  report : ∀ cause, Holds Unit (report cause)
  fail : ∀ {α : Type} (cause : Cause), Holds α (fail cause)
  tellOpen : ∀ start, Holds (Option Node) (tellOpen start)

namespace Faultwise

variable {Holds : ∀ α : Type, Parser α → Prop} (faultwise : Faultwise Holds)
include faultwise

theorem comment : Holds (Option Node) comment := by
  refine faultwise.bind faultwise.here fun start => ?_
  refine faultwise.bind (faultwise.startsWith _) fun opened => ?_
  split
  · refine faultwise.bind (faultwise.accept _) fun found => ?_
    cases found with
    | some body => exact faultwise.bind (faultwise.spanFrom _) fun _ => faultwise.pure _
    | none => exact faultwise.tellOpen start
  · exact faultwise.pure _

theorem closed : Closed Holds where
  toQuiet := faultwise.toQuiet
  comment := faultwise.comment
  demand := by
    intro β pattern cause next misses absent present
    refine faultwise.bind (faultwise.accept pattern) fun found => ?_
    cases found with
    | none =>
      rw [absent]
      exact faultwise.fail cause
    | some found => exact present found
  expect := by
    intro β pattern cause next others misses absent holds present
    refine faultwise.bind (faultwise.accept pattern) fun found => ?_
    cases found with
    | none =>
      rw [absent]
      exact faultwise.bind (faultwise.report cause) fun _ => holds
    | some found => exact present found

end Faultwise

/-- A property that holds of the parts of a fault as well: of what is kept in mind about comments, of
the report and of the halt. -/
structure Stepwise (Holds : ∀ α : Type, Parser α → Prop) : Prop extends Quiet Holds where
  recallOpen : Holds (Option Location) recallOpen
  rememberOpen : ∀ start, Holds Unit (rememberOpen start)
  report : ∀ cause, Holds Unit (report cause)
  halt : ∀ {α : Type}, Holds α (throw .noted)

namespace Stepwise

variable {Holds : ∀ α : Type, Parser α → Prop} (stepwise : Stepwise Holds)
include stepwise

theorem fail (cause : Cause) : Holds α (fail cause) :=
  stepwise.bind (stepwise.report cause) fun _ => stepwise.halt

theorem tellOpen (start : Location) : Holds (Option Node) (tellOpen start) := by
  refine stepwise.bind stepwise.recallOpen fun place => ?_
  split
  · exact stepwise.halt
  · exact stepwise.bind (stepwise.rememberOpen _) fun _ => stepwise.fail _

theorem closed : Closed Holds :=
  Faultwise.closed ⟨stepwise.toQuiet, stepwise.report, stepwise.fail, stepwise.tellOpen⟩

end Stepwise

/-! ### What one step does -/

theorem accept_none {pattern : Pattern α} {state : State}
    (absent : pattern.read state.cursor.rest = none) (options : Options) :
    accept pattern options state = .ok none state := by
  show EStateM.Result.ok _ _ = _
  simp only [absent]

/-- The state behind the text that a match takes. -/
def State.past (state : State) (found : Match α) : State :=
  { state with cursor := ⟨found.rest, state.cursor.location.after found.taken⟩ }

theorem accept_some {pattern : Pattern α} {state : State} {found : Match α}
    (present : pattern.read state.cursor.rest = some found) (options : Options) :
    accept pattern options state = .ok (some found.value) (state.past found) := by
  show EStateM.Result.ok _ _ = _
  simp only [present]
  rfl

theorem here_bind {next : Location → Parser β} {options : Options} {state : State} :
    (here >>= next) options state = next state.cursor.location options state := rfl

theorem startsWith_bind {word : List Char} {next : Bool → Parser β} {options : Options}
    {state : State} :
    (startsWith word >>= next) options state =
      next (state.cursor.startsWith word) options state := rfl

theorem accept_bind_none {pattern : Pattern α} {next : Option α → Parser β} {options : Options}
    {state : State} (absent : pattern.read state.cursor.rest = none) :
    (accept pattern >>= next) options state = next none options state := by
  rw [bind_run, accept_none absent]

theorem accept_bind_some {pattern : Pattern α} {next : Option α → Parser β} {options : Options}
    {state : State} {found : Match α} (present : pattern.read state.cursor.rest = some found) :
    (accept pattern >>= next) options state =
      next (some found.value) options (state.past found) := by
  rw [bind_run, accept_some present]

theorem spanFrom_bind {start : Location} {next : Span → Parser β} {options : Options}
    {state : State} :
    (spanFrom start >>= next) options state =
      (accept .blanks >>= fun _ => next ⟨start, state.cursor.location, options.source⟩)
        options state := by
  have steps : spanFrom start options state =
      (accept .blanks >>= fun _ => pure ⟨start, state.cursor.location, options.source⟩)
        options state := rfl
  rw [bind_run, steps, bind_run, bind_run]
  cases accept .blanks options state <;> rfl

/-- The state with one more fault noted and recorded. -/
def State.noting (state : State) (fault : Fault) : State :=
  { state with faults := state.faults ++ [fault], events := state.events ++ [.noted fault] }

theorem report_strict (cause : Cause) (source : Option String) (state : State) :
    report cause ⟨source, .strict⟩ state =
      .error (.raised ⟨cause, source, state.cursor.location⟩) state := rfl

theorem report_tolerant (cause : Cause) (source : Option String) (state : State) :
    report cause ⟨source, .tolerant⟩ state =
      .ok () (state.noting ⟨cause, source, state.cursor.location⟩) := rfl

theorem tellOpen_eq (start : Location) (options : Options) (state : State) :
    tellOpen start options state =
      (if state.openComment = some start then throw .noted
        else do
          rememberOpen start
          fail .unterminatedComment : Parser (Option Node)) options state := rfl

theorem ok_ne_error {value : α} {halt : Halt} {state last : State} :
    (.ok value state : EStateM.Result Halt State α) ≠ .error halt last := by
  rintro ⟨⟩

theorem fail_ne_ok {cause : Cause} {options : Options} {state last : State} {value : α} :
    (fail cause : Parser α) options state ≠ .ok value last := by
  obtain ⟨source, mode⟩ := options
  cases mode <;> rintro ⟨⟩

/-! ### What a run that ended well has done -/

theorem ok_of_report {cause : Cause} {options : Options} {state last : State}
    (run : report cause options state = .ok () last) :
    last = state.noting ⟨cause, options.source, state.cursor.location⟩ := by
  obtain ⟨source, mode⟩ := options
  cases mode with
  | strict => cases run
  | tolerant =>
    rw [report_tolerant] at run
    injection run with _ same
    exact same.symm

theorem ok_of_bind {first : Parser α} {next : α → Parser β} {options : Options}
    {state last : State} {value : β} (run : (first >>= next) options state = .ok value last) :
    ∃ found later, first options state = .ok found later ∧
      next found options later = .ok value last := by
  rw [bind_run] at run
  cases outcome : first options state with
  | ok found later =>
    rw [outcome] at run
    exact ⟨found, later, rfl, run⟩
  | error halt later =>
    rw [outcome] at run
    cases run

theorem tellOpen_ne_ok {start : Location} {options : Options} {state last : State}
    {found : Option Node} : tellOpen start options state ≠ .ok found last := by
  intro run
  obtain ⟨known, same, -, run⟩ := ok_of_bind run
  split at run
  · cases run
  · obtain ⟨remembered, kept, -, run⟩ := ok_of_bind run
    exact fail_ne_ok run

theorem ok_of_accept_bind {pattern : Pattern α} {next : Option α → Parser β} {options : Options}
    {state last : State} {value : β}
    (run : (accept pattern >>= next) options state = .ok value last) :
    (pattern.read state.cursor.rest = none ∧ next none options state = .ok value last) ∨
      ∃ found, pattern.read state.cursor.rest = some found ∧
        next (some found.value) options (state.past found) = .ok value last := by
  cases present : pattern.read state.cursor.rest with
  | none =>
    rw [accept_bind_none present] at run
    exact .inl ⟨rfl, run⟩
  | some found =>
    rw [accept_bind_some present] at run
    exact .inr ⟨found, rfl, run⟩

/-! ### Lists, item by item -/

/-- What a list makes of the outcome of its first item. -/
def goOn (item : Parser (Option α)) (options : Options) (state : State) :
    EStateM.Result Halt State (Option α) → EStateM.Result Halt State (List α)
  | .ok none later => .ok [] later
  | .error .noted later => .ok [] later
  | .error (.raised fault) later => .error (.raised fault) later
  | .ok (some value) later =>
    if later.left < state.left then
      match collect item options later with
      | .ok values last => .ok (value :: values) last
      | .error halt last => .error halt last
    else .ok [value] later

theorem collect_eq (item : Parser (Option α)) (options : Options) (state : State) :
    collect item options state = goOn item options state (item options state) := by
  rw [collect]
  cases item options state with
  | ok value later => cases value <;> rfl
  | error halt later => cases halt <;> rfl

/-! ### No parser goes back -/

/-- A later state of a parse: more of the text is behind it, nothing noted or recorded is lost, and
what was noted since came to light on the way. -/
structure State.Precedes (first later : State) : Prop where
  text : ∃ taken, first.cursor.rest = taken ++ later.cursor.rest ∧
    later.cursor.location = first.cursor.location.after taken
  faults : first.faults <+: later.faults
  events : first.events <+: later.events
  told : ∀ fault ∈ later.faults, fault ∈ first.faults ∨ fault.location ≤ later.cursor.location

namespace State.Precedes

/-- A step that notes no fault. -/
theorem of_quiet {first later : State}
    (text : ∃ taken, first.cursor.rest = taken ++ later.cursor.rest ∧
      later.cursor.location = first.cursor.location.after taken)
    (faults : later.faults = first.faults) (events : first.events <+: later.events) :
    first.Precedes later where
  text := text
  faults := faults ▸ List.prefix_rfl
  events := events
  told := fun _ member => .inl (faults ▸ member)

theorem refl (state : State) : state.Precedes state :=
  of_quiet ⟨[], rfl, rfl⟩ rfl List.prefix_rfl

theorem trans {first second third : State} (former : first.Precedes second)
    (latter : second.Precedes third) : first.Precedes third where
  text := by
    obtain ⟨taken, rest, location⟩ := former.text
    obtain ⟨taken', rest', location'⟩ := latter.text
    refine ⟨taken ++ taken', ?_, ?_⟩
    · rw [rest, rest', List.append_assoc]
    · rw [location', location, Location.after_append]
  faults := former.faults.trans latter.faults
  events := former.events.trans latter.events
  told := by
    intro fault member
    rcases latter.told fault member with earlier | behind
    · rcases former.told fault earlier with first | behind
      · exact .inl first
      · obtain ⟨taken, -, location⟩ := latter.text
        exact .inr (Location.le_trans behind (location ▸ Location.le_after _ taken))
    · exact .inr behind

theorem left_le {first later : State} (precedes : first.Precedes later) :
    later.left ≤ first.left := by
  obtain ⟨taken, rest, -⟩ := precedes.text
  rw [State.left, State.left, Cursor.left, Cursor.left, rest, List.length_append]
  exact Nat.le_add_left _ _

end State.Precedes

/-- The parser only ever leads to later states, whatever its outcome. -/
def Forward (α : Type) (parser : Parser α) : Prop :=
  ∀ (options : Options) (state : State), state.Precedes (reached (parser options state))

theorem forward_bind {first : Parser α} {next : α → Parser β} (former : Forward α first)
    (latter : ∀ value, Forward β (next value)) : Forward β (first >>= next) := by
  intro options state
  have start := former options state
  rw [bind_run]
  cases outcome : first options state with
  | ok value later =>
    rw [outcome] at start
    exact start.trans (latter value options later)
  | error halt later =>
    rw [outcome] at start
    exact start

theorem forward_accept (pattern : Pattern α) : Forward (Option α) (accept pattern) := by
  intro options state
  cases present : pattern.read state.cursor.rest with
  | none =>
    rw [accept_none present]
    exact .refl state
  | some found =>
    rw [accept_some present]
    refine .of_quiet ⟨found.taken, ?_, rfl⟩ rfl List.prefix_rfl
    exact (pattern.taken_append_rest present).symm

theorem forward_report (cause : Cause) : Forward Unit (report cause) := by
  rintro ⟨source, mode⟩ state
  cases mode with
  | strict =>
    rw [report_strict]
    exact .refl state
  | tolerant =>
    rw [report_tolerant]
    refine ⟨⟨[], rfl, rfl⟩, List.prefix_append _ _, List.prefix_append _ _, ?_⟩
    intro fault member
    rcases List.mem_append.mp member with earlier | last
    · exact .inl earlier
    · rw [List.mem_singleton.mp last]
      exact .inr (Location.le_refl _)

theorem forward_attempt {parser : Parser (Option α)} (forward : Forward (Option α) parser) :
    Forward (Option α) (attempt parser) := by
  intro options state
  have start := forward options state
  unfold attempt
  split
  · rename_i outcome
    rw [outcome] at start
    exact start
  · exact start

theorem forward_collect {item : Parser (Option α)} (forward : Forward (Option α) item) :
    Forward (List α) (collect item) := by
  intro options state
  have start := forward options
  fun_induction collect item options state with
  | case1 state later outcome | case2 state later outcome | case3 state fault later outcome
  | case6 state value later outcome more =>
    have step := start state
    rw [outcome] at step
    exact step
  | case4 state value later outcome less values last rest inductionHypothesis
  | case5 state value later outcome less halt last rest inductionHypothesis =>
    have step := start state
    rw [outcome] at step
    rw [rest] at inductionHypothesis
    exact step.trans inductionHypothesis

theorem forward_goOn {item : Parser (Option α)} (forward : Forward (Option α) item)
    (options : Options) (state : State) (outcome : EStateM.Result Halt State (Option α)) :
    (reached outcome).Precedes (reached (goOn item options state outcome)) := by
  cases outcome with
  | error halt later => cases halt <;> exact .refl later
  | ok value later =>
    cases value with
    | none => exact .refl later
    | some value =>
      have rest := forward_collect forward options later
      by_cases less : later.left < state.left
      · simp only [goOn, if_pos less]
        cases outcome : collect item options later <;> rw [outcome] at rest <;> exact rest
      · simp only [goOn, if_neg less]
        exact .refl later

/-- What is left of the text is a suffix of what was left, and noted faults and events stay. -/
theorem stepwise_forward : Stepwise Forward where
  pure _ _ state := .refl state
  bind := forward_bind
  look _ _ state := .refl state
  accept := forward_accept
  sourceName _ state := .refl state
  recallOpen _ state := .refl state
  rememberOpen _ _ _ := .of_quiet ⟨[], rfl, rfl⟩ rfl List.prefix_rfl
  record _ _ _ _ := .of_quiet ⟨[], rfl, rfl⟩ rfl (List.prefix_append _ _)
  report := forward_report
  halt _ state := .refl state
  attempt := forward_attempt
  collect := forward_collect
  byLeft forward options state := forward state.left options state

theorem closed_forward : Closed Forward := stepwise_forward.closed

end CssSyntax.Grammar
