/-
This file says what a run of the grammar has done when it ends with a construct.

A parser is a short sequence of steps, and a run that ends well has gone through all of them. There
is one lemma for each production. It says what was matched and where, from which state to which the
parts ran, and which node was made of them. What is shown of the nodes that a parse ends with
starts from these lemmas and looks into no parser.
-/

import CssSyntax.Proofs.Attempts

namespace CssSyntax.Grammar

variable {α β : Type} {options : Options} {state last : State} {node : Node} {nodes : List Node}

/-! ### Runs of characters -/

/-- The accepted characters ahead were passed over, and nothing else was done. -/
def State.PassesOver (accepted : Char → Bool) (state last : State) : Prop :=
  ∃ found, (Pattern.run accepted).read state.cursor.rest = some found ∧ last = state.past found

theorem State.PassesOver.faults_eq {accepted : Char → Bool}
    (passed : state.PassesOver accepted last) : last.faults = state.faults := by
  obtain ⟨found, -, rfl⟩ := passed
  rfl

theorem State.PassesOver.openComment_eq {accepted : Char → Bool}
    (passed : state.PassesOver accepted last) : last.openComment = state.openComment := by
  obtain ⟨found, -, rfl⟩ := passed
  rfl

/-- A run of characters is never missing. -/
theorem ok_of_run_bind {accepted : Char → Bool} {next : Option (List Char) → Parser β} {value : β}
    (run : (accept (Pattern.run accepted) >>= next) options state = .ok value last) :
    ∃ found later, state.PassesOver accepted later ∧ next found options later = .ok value last := by
  rcases ok_of_accept_bind run with ⟨absent, run⟩ | ⟨found, present, run⟩
  · cases absent
  · exact ⟨_, _, ⟨found, present, rfl⟩, run⟩

/-- Behind a span the blanks are passed over. -/
theorem ok_of_spanFrom_bind {start : Location} {next : Span → Parser β} {value : β}
    (run : (spanFrom start >>= next) options state = .ok value last) :
    ∃ later, state.PassesOver isBlank later ∧
      next ⟨start, state.cursor.location, options.source⟩ options later = .ok value last := by
  rw [spanFrom_bind] at run
  obtain ⟨-, later, passed, run⟩ := ok_of_run_bind run
  exact ⟨later, passed, run⟩

/-! ### Leaves -/

theorem found_of_comment (run : comment options state = .ok (some node) last) :
    ∃ body, commentBody.read state.cursor.rest = some body ∧
      (state.past body).PassesOver isBlank last ∧
      node = .leaf (.comment (String.ofList body.value))
        ⟨state.cursor.location, (state.past body).cursor.location, options.source⟩ := by
  rw [comment, here_bind, startsWith_bind] at run
  split at run
  · rcases ok_of_accept_bind run with ⟨-, run⟩ | ⟨body, present, run⟩
    · exact absurd run tellOpen_ne_ok
    · obtain ⟨later, passed, ⟨⟩⟩ := ok_of_spanFrom_bind run
      exact ⟨body, present, passed, rfl⟩
  · cases run

theorem found_of_declaration (run : declaration options state = .ok (some node) last) :
    ∃ property mark value later middle, propertyName.read state.cursor.rest = some property ∧
      colon.read property.rest = some mark ∧
      accept declarationValue options ((state.past property).past mark) = .ok value later ∧
      later.PassesOver isBlank middle ∧
      middle.PassesOver (fun character => character == ';' || isBlank character) last ∧
      node = .leaf (.declaration (String.ofList (removeComments false property.value))
          (String.ofList (removeComments false (trim (value.getD [])))))
        ⟨state.cursor.location, later.cursor.location, options.source⟩ := by
  rw [declaration, here_bind] at run
  rcases ok_of_accept_bind run with ⟨-, run⟩ | ⟨property, named, run⟩
  · cases run
  rcases ok_of_accept_bind run with ⟨-, run⟩ | ⟨mark, marked, run⟩
  · exact absurd run fail_ne_ok
  obtain ⟨value, later, valued, run⟩ := ok_of_bind run
  obtain ⟨middle, blanks, run⟩ := ok_of_spanFrom_bind run
  obtain ⟨-, final, semicolons, ⟨⟩⟩ := ok_of_run_bind run
  exact ⟨property, mark, value, later, middle, named, marked, valued, blanks, semicolons, rfl⟩

theorem found_of_statement {opening : Pattern Leaf}
    (run : statement opening options state = .ok (some node) last) :
    ∃ found, opening.read state.cursor.rest = some found ∧
      (state.past found).PassesOver isBlank last ∧
      node = .leaf found.value
        ⟨state.cursor.location, (state.past found).cursor.location, options.source⟩ := by
  rw [statement, here_bind] at run
  rcases ok_of_accept_bind run with ⟨-, run⟩ | ⟨found, present, run⟩
  · cases run
  · obtain ⟨later, passed, ⟨⟩⟩ := ok_of_spanFrom_bind run
    exact ⟨found, present, passed, rfl⟩

/-- A comment is looked for first, and the other item only where none is ahead. -/
theorem found_of_orComment {item : Parser (Option Node)}
    (run : orComment item options state = .ok (some node) last) :
    comment options state = .ok (some node) last ∨
      ¬ commentOpener <+: state.cursor.rest ∧ item options state = .ok (some node) last := by
  obtain ⟨found, later, first, second⟩ := ok_of_bind run
  cases found with
  | some comment =>
    cases second
    exact .inl first
  | none =>
    obtain ⟨rfl, absent⟩ := absent_of_comment first
    exact .inr ⟨absent, second⟩

/-! ### Blocks -/

theorem ok_of_atBlock {name : AtKeyword} {body : Parser (List Node)}
    (run : atBlock name body options state = .ok nodes last) :
    ∃ opened later closed, openBrace.read state.cursor.rest = some opened ∧
      body options (state.past opened) = .ok nodes later ∧
      closeBrace.read later.cursor.rest = some closed ∧ last = later.past closed := by
  rcases ok_of_accept_bind run with ⟨-, run⟩ | ⟨opened, present, run⟩
  · exact absurd run fail_ne_ok
  obtain ⟨children, later, inner, run⟩ := ok_of_bind run
  rcases ok_of_accept_bind run with ⟨-, run⟩ | ⟨closed, ended, ⟨⟩⟩
  · exact absurd run fail_ne_ok
  · exact ⟨opened, later, closed, present, inner, ended, rfl⟩

/-- The closing brace was there, or it was told to be missing. -/
theorem ok_of_plainBlock (run : plainBlock options state = .ok nodes last) :
    ∃ opened later, openBrace.read state.cursor.rest = some opened ∧
      declarations options (state.past opened) = .ok nodes later ∧
      ((∃ closed, closeBrace.read later.cursor.rest = some closed ∧ last = later.past closed) ∨
        closeBrace.read later.cursor.rest = none ∧
          report (.missingCloseBrace .block) options later = .ok () last) := by
  rcases ok_of_accept_bind run with ⟨-, run⟩ | ⟨opened, present, run⟩
  · exact absurd run fail_ne_ok
  obtain ⟨children, later, inner, run⟩ := ok_of_bind run
  rcases ok_of_accept_bind run with ⟨absent, run⟩ | ⟨closed, ended, ⟨⟩⟩
  · obtain ⟨nothing, told, reported, ⟨⟩⟩ := ok_of_bind run
    exact ⟨opened, later, present, inner, .inr ⟨absent, reported⟩⟩
  · exact ⟨opened, later, present, inner, .inl ⟨closed, ended, rfl⟩⟩

/-- The block ran from the middle state on, and the node spans the text from the first state to the
end of the block. -/
def BlockFound (block : Parser (List Node)) (header : Header) (options : Options)
    (first middle last : State) (node : Node) : Prop :=
  ∃ children later, block options middle = .ok children later ∧ later.PassesOver isBlank last ∧
    node = .block header ⟨first.cursor.location, later.cursor.location, options.source⟩ children

theorem blockFound_of_bind {block : Parser (List Node)} {header : Header} {middle : State}
    (run : (block >>= fun children => spanFrom state.cursor.location >>= fun span =>
      pure (some (.block header span children))) options middle = .ok (some node) last) :
    BlockFound block header options state middle last node := by
  obtain ⟨children, later, inner, run⟩ := ok_of_bind run
  obtain ⟨final, passed, ⟨⟩⟩ := ok_of_spanFrom_bind run
  exact ⟨children, later, inner, passed, rfl⟩

theorem found_of_keyframe (run : keyframe options state = .ok (some node) last) :
    ∃ found, offsets.nonempty.read state.cursor.rest = some found ∧
      BlockFound plainBlock (.keyframe (found.value.map String.ofList)) options state
        (state.past found) last node := by
  rw [keyframe, here_bind] at run
  rcases ok_of_accept_bind run with ⟨-, run⟩ | ⟨found, present, run⟩
  · cases run
  · exact ⟨found, present, blockFound_of_bind run⟩

theorem found_of_keyframes (run : keyframes options state = .ok (some node) last) :
    ∃ vendor name, (vendorKeyword .keyframes).spaced.read state.cursor.rest = some vendor ∧
      identifier.spaced.read vendor.rest = some name ∧
      BlockFound (atBlock .keyframes (collect (orComment keyframe)))
        (.keyframes vendor.value (String.ofList name.value)) options state
        ((state.past vendor).past name) last node := by
  rw [keyframes, here_bind] at run
  rcases ok_of_accept_bind run with ⟨-, run⟩ | ⟨vendor, vendored, run⟩
  · cases run
  rcases ok_of_accept_bind run with ⟨-, run⟩ | ⟨name, named, run⟩
  · exact absurd run fail_ne_ok
  · exact ⟨vendor, name, vendored, named, blockFound_of_bind run⟩

theorem found_of_conditional {name : AtKeyword} {opening : Pattern Header}
    {body : Parser (List Node)}
    (run : conditional name opening body options state = .ok (some node) last) :
    ∃ found, opening.read state.cursor.rest = some found ∧
      BlockFound (atBlock name body) found.value options state (state.past found) last node := by
  rw [conditional, here_bind] at run
  rcases ok_of_accept_bind run with ⟨-, run⟩ | ⟨found, present, run⟩
  · cases run
  · exact ⟨found, present, blockFound_of_bind run⟩

theorem found_of_rule (run : rule options state = .ok (some node) last) :
    ∃ text, selectorText.read state.cursor.rest = some text ∧
      BlockFound plainBlock (.rule ((splitSelectors text.value).map String.ofList)) options state
        (state.past text) last node := by
  rw [rule, here_bind] at run
  rcases ok_of_accept_bind run with ⟨-, run⟩ | ⟨text, present, run⟩
  · exact absurd run fail_ne_ok
  · exact ⟨text, present, blockFound_of_bind run⟩

/-! ### Lists of rules -/

variable {nested : Parser (List Node)}

/-- The state with one more event recorded. -/
def State.recording (state : State) (event : Event) : State :=
  { state with events := state.events ++ [event] }

/-- The at-rules in front of the one that was found are absent. It is recorded where it began. -/
theorem found_of_firstAtRule {names : List AtKeyword}
    (run : firstAtRule nested names options state = .ok (some node) last) :
    ∃ passed name others later, names = passed ++ name :: others ∧
      (∀ other ∈ passed, atRule nested other options state = .ok none state) ∧
      atRule nested name options state = .ok (some node) later ∧
      last = later.recording (.readAtRule name node.span.start) := by
  induction names with
  | nil => cases run
  | cons name others inductionHypothesis =>
    obtain ⟨found, later, first, second⟩ := ok_of_bind run
    cases found with
    | some found =>
      obtain ⟨nothing, final, ⟨⟩, ⟨⟩⟩ := ok_of_bind second
      exact ⟨[], name, others, later, rfl, List.forall_mem_nil _, first, rfl⟩
    | none =>
      obtain rfl := traceless_atRule nested name options state later first
      obtain ⟨passed, found, behind, middle, rfl, absent, run, same⟩ := inductionHypothesis second
      refine ⟨name :: passed, found, behind, middle, rfl, ?_, run, same⟩
      exact List.forall_mem_cons.mpr ⟨first, absent⟩

theorem found_of_attempt {parser : Parser (Option α)} {value : α}
    (run : attempt parser options state = .ok (some value) last) :
    parser options state = .ok (some value) last := by
  unfold attempt at run
  split at run
  · cases run
  · exact run

/-- A plain rule is read where no at-rule was found, wherever the cursor was left. -/
theorem found_of_ruleOrAtRule (run : ruleOrAtRule nested options state = .ok (some node) last) :
    firstAtRule nested AtKeyword.table options state = .ok (some node) last ∨
      ∃ later, attempt (firstAtRule nested AtKeyword.table) options state = .ok none later ∧
        rule options later = .ok (some node) last := by
  obtain ⟨found, later, first, second⟩ := ok_of_bind run
  cases found with
  | some found =>
    cases second
    exact .inl (found_of_attempt first)
  | none => exact .inr ⟨later, first, second⟩

theorem found_of_item (run : item nested options state = .ok (some node) last) :
    comment options state = .ok (some node) last ∨
      ¬ commentOpener <+: state.cursor.rest ∧
        ¬ (state.cursor.atEnd || state.cursor.startsWith ['}']) = true ∧
        ruleOrAtRule nested options state = .ok (some node) last := by
  rcases found_of_orComment run with first | ⟨absent, run⟩
  · exact .inl first
  obtain ⟨ended, later, ⟨⟩, run⟩ := ok_of_bind run
  obtain ⟨braced, middle, ⟨⟩, run⟩ := ok_of_bind run
  split at run
  · cases run
  · exact .inr ⟨absent, ‹_›, run⟩

theorem commits_ruleOrAtRule (nested : Parser (List Node)) : Commits (ruleOrAtRule nested) := by
  refine commits_bind fun found => ?_
  cases found with
  | some node => exact commits_some node
  | none =>
    refine commits_bind fun start => commits_demand rfl fun text => ?_
    exact commits_bind fun children => commits_bind fun _ => commits_some _

/-- A list of rules has no item only where it may end. -/
theorem absent_of_item (run : item nested options state = .ok none last) :
    last = state ∧ (state.cursor.atEnd || state.cursor.startsWith ['}']) = true := by
  obtain ⟨found, later, first, second⟩ := ok_of_bind run
  cases found with
  | some comment => cases second
  | none =>
    obtain ⟨rfl, -⟩ := absent_of_comment first
    obtain ⟨ended, later, ⟨⟩, run⟩ := ok_of_bind second
    obtain ⟨braced, middle, ⟨⟩, run⟩ := ok_of_bind run
    split at run
    · cases run
      exact ⟨rfl, ‹_›⟩
    · exact absurd run (commits_ruleOrAtRule nested options _ last)

theorem traceless_item (nested : Parser (List Node)) : Traceless (item nested) :=
  fun _ _ _ run => (absent_of_item run).1

theorem ok_of_ruleList (run : ruleList nested options state = .ok nodes last) :
    ∃ later, state.PassesOver isBlank later ∧
      collect (item nested) options later = .ok nodes last := by
  obtain ⟨-, later, passed, run⟩ := ok_of_run_bind run
  exact ⟨later, passed, run⟩

end CssSyntax.Grammar
