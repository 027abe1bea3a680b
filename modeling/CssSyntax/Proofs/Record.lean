/-
This file compares the record of a parse with its result.

An at-rule is recorded when it has been read to its end, so the at-rules inside it are recorded
before it: the record goes through the tree with children in front of their parents. The tree can
say less than the record, because a block that is given up takes along what was read in it. Nothing
is given up in a strict parse, and there the tree and the record say the same. As long as a tolerant
parse has met no fault it goes the way of a strict one. Every fault that it notes is noted twice: in
the list of faults and, as a warning, in the record.
-/

import Mathlib
import CssSyntax.Proofs.Runs
import CssSyntax.Proofs.Soundness

namespace CssSyntax

/-! ### At-rules in the order of their ends -/

mutual

/-- The node and the nodes below it, children in front of their parents. -/
def Node.postorder : Node → List Node
  | .leaf content span => [.leaf content span]
  | .block header span children => postorderAll children ++ [.block header span children]

/-- The nodes and the nodes below them, children in front of their parents. -/
def Node.postorderAll : List Node → List Node
  | [] => []
  | first :: others => first.postorder ++ postorderAll others

end

/-- The event that the node leaves in the record, if it is an at-rule. -/
def Node.event? (node : Node) : Option Event :=
  match node.kind with
  | .atRule keyword => some (.readAtRule keyword node.span.start)
  | _ => none

/-- The events that the nodes and the nodes below them leave in the record. -/
def Node.eventsAll (nodes : List Node) : List Event := (postorderAll nodes).filterMap event?

theorem Node.eventsAll_cons (first : Node) (others : List Node) :
    eventsAll (first :: others) = eventsAll [first] ++ eventsAll others := by
  simp only [eventsAll, postorderAll, List.append_nil, List.filterMap_append]

/-- Below a node its events come first, and its own comes last. -/
theorem Node.eventsAll_singleton (node : Node) :
    eventsAll [node] = eventsAll node.children ++ node.event?.toList := by
  cases node with
  | leaf content span =>
    simp only [eventsAll, postorderAll, postorder, children, List.append_nil, List.filterMap_nil,
      List.nil_append, List.filterMap_cons]
    cases (leaf content span).event? <;> rfl
  | block header span below =>
    simp only [eventsAll, postorderAll, postorder, children, List.append_nil, List.filterMap_append,
      List.filterMap_cons, List.filterMap_nil]
    cases (block header span below).event? <;> rfl

/-- Whether the node is an at-rule. -/
def Node.isAtRule (node : Node) : Bool :=
  match node.kind with
  | .atRule _ => true
  | _ => false

/-- What the record of a parse says about an at-rule. -/
def Node.recordLine (node : Node) : String :=
  Level.trace.text ++ " " ++ ("@" ++ node.kind.text ++ " at " ++ node.span.start.text)

/-- What the record of a parse says about the at-rules among the nodes and below them. -/
def Node.recordLines (nodes : List Node) : List String :=
  ((postorderAll nodes).filter isAtRule).map recordLine

theorem Node.text_of_eventsAll (nodes : List Node) :
    (eventsAll nodes).map Event.text = recordLines nodes := by
  rw [eventsAll, recordLines]
  induction postorderAll nodes with
  | nil => rfl
  | cons first others inductionHypothesis =>
    cases kind : first.kind with
    | atRule keyword =>
      have event : first.event? = some (.readAtRule keyword first.span.start) := by
        rw [event?, kind]
      have atRule : first.isAtRule = true := by rw [isAtRule, kind]
      rw [List.filterMap_cons_some event, List.filter_cons_of_pos atRule, List.map_cons,
        List.map_cons, inductionHypothesis, recordLine, kind]
      rfl
    | stylesheet | rule | declaration | comment | keyframe =>
      have event : first.event? = none := by rw [event?, kind]
      have other : ¬ first.isAtRule = true := by rw [isAtRule, kind]; exact Bool.false_ne_true
      rw [List.filterMap_cons_none event, List.filter_cons_of_neg other, inductionHypothesis]

namespace Grammar

variable {α β : Type} {options : Options} {state middle last : State} {node : Node}
  {nodes : List Node} {told : List Event}

/-! ### What is recorded on the way -/

/-- What was recorded between the two states has the told events in it. A strict parse without an
unterminated comment in mind has recorded these events and no others. -/
def Said (options : Options) (told : List Event) (state last : State) : Prop :=
  ∃ said, last.events = state.events ++ said ∧ told.Sublist said ∧
    (options.mode = .strict → state.openComment = none → said = told ∧ last.openComment = none)

theorem Said.silent (events : last.events = state.events)
    (kept : last.openComment = state.openComment) : Said options [] state last :=
  ⟨[], by rw [events, List.append_nil], .slnil, fun _ fresh => ⟨rfl, kept.trans fresh⟩⟩

theorem Said.trans {first second : List Event} (former : Said options first state middle)
    (latter : Said options second middle last) : Said options (first ++ second) state last := by
  obtain ⟨said, events, inside, exact⟩ := former
  obtain ⟨more, later, within, precise⟩ := latter
  refine ⟨said ++ more, by rw [later, events, List.append_assoc], inside.append within, ?_⟩
  intro strict fresh
  obtain ⟨rfl, still⟩ := exact strict fresh
  obtain ⟨rfl, final⟩ := precise strict still
  exact ⟨rfl, final⟩

theorem Said.to_silent (said : Said options told state middle)
    (silent : Said options [] middle last) : Said options told state last := by
  have both := said.trans silent
  rwa [List.append_nil] at both

theorem said_past (found : Match α) : Said options [] state (state.past found) :=
  .silent rfl rfl

theorem said_of_passesOver {accepted : Char → Bool} (passed : state.PassesOver accepted last) :
    Said options [] state last := by
  obtain ⟨found, -, rfl⟩ := passed
  exact .silent rfl rfl

/-- Only a tolerant parse goes on behind a construct that was given up. -/
theorem said_of_givenUp {parser : Parser α} (forward : Forward α parser)
    (decides : Decides α parser) (run : parser options state = .error .noted last) :
    Said options [] state last := by
  have onward := forward options state
  rw [run] at onward
  obtain ⟨said, events⟩ := onward.events
  refine ⟨said, events.symm, List.nil_sublist said, fun strict fresh => ?_⟩
  obtain ⟨source, mode⟩ := options
  obtain rfl : mode = .strict := strict
  have decided := decides source state fresh
  rw [run] at decided
  exact decided.elim

/-- Only a tolerant parse goes on behind a fault. -/
theorem said_of_report {cause : Cause} (run : report cause options state = .ok () last) :
    Said options [] state last := by
  have same := ok_of_report run
  refine ⟨[.noted _], by rw [same]; rfl, List.nil_sublist _, fun strict fresh => ?_⟩
  obtain ⟨source, mode⟩ := options
  obtain rfl : mode = .strict := strict
  cases run

/-- With a node, the events of the node are recorded. -/
def SaysNode (parser : Parser (Option Node)) : Prop :=
  ∀ options state node last, parser options state = .ok (some node) last →
    Said options (Node.eventsAll [node]) state last

/-- With a node, the events below the node are recorded. Its own is left to the caller. -/
def SaysBelow (parser : Parser (Option Node)) : Prop :=
  ∀ options state node last, parser options state = .ok (some node) last →
    Said options (Node.eventsAll node.children) state last

/-- With a list of nodes, the events of the nodes are recorded. -/
def SaysAll (parser : Parser (List Node)) : Prop :=
  ∀ options state nodes last, parser options state = .ok nodes last →
    Said options (Node.eventsAll nodes) state last

theorem says_collect {item : Parser (Option Node)} (forward : Forward (Option Node) item)
    (decides : Decides (Option Node) item) (traceless : Traceless item) (holds : SaysNode item) :
    SaysAll (collect item) := by
  intro options state nodes last run
  fun_induction collect item options state generalizing nodes last with
  | case1 state later outcome =>
    cases run
    rw [traceless _ _ _ outcome]
    exact .silent rfl rfl
  | case2 state later outcome =>
    cases run
    exact said_of_givenUp forward decides outcome
  | case3 | case5 => cases run
  | case4 state node later outcome less nodes' last' rest inductionHypothesis =>
    cases run
    rw [Node.eventsAll_cons]
    exact (holds _ _ _ _ outcome).trans (inductionHypothesis _ _ rest)
  | case6 state node later outcome more =>
    cases run
    exact holds _ _ _ _ outcome

/-! ### Comments, declarations and blocks -/

theorem says_comment : SaysNode comment := by
  intro options state node last run
  obtain ⟨body, -, passed, rfl⟩ := found_of_comment run
  exact (said_past body).trans (said_of_passesOver passed)

theorem says_declaration : SaysNode declaration := by
  intro options state node last run
  obtain ⟨property, mark, value, later, middle, -, -, valued, blanks, semicolons, rfl⟩ :=
    found_of_declaration run
  have named : Said options [] state ((state.past property).past mark) :=
    (said_past property).trans (said_past mark)
  have passed : Said options [] later last :=
    (said_of_passesOver blanks).trans (said_of_passesOver semicolons)
  cases present : declarationValue.read ((state.past property).past mark).cursor.rest with
  | none =>
    rw [accept_none present] at valued
    cases valued
    exact named.trans passed
  | some found =>
    rw [accept_some present] at valued
    cases valued
    exact (named.trans (said_past found)).trans passed

theorem says_orComment {item : Parser (Option Node)} (holds : SaysNode item) :
    SaysNode (orComment item) := by
  intro options state node last run
  rcases found_of_orComment run with comment | ⟨-, run⟩
  · exact says_comment _ _ _ _ comment
  · exact holds _ _ _ _ run

theorem says_declarations : SaysAll declarations :=
  says_collect (closed_forward.orComment closed_forward.declaration)
    (closed_decides.orComment closed_decides.declaration)
    (traceless_orComment traceless_declaration) (says_orComment says_declaration)

theorem says_atBlock {name : AtKeyword} {body : Parser (List Node)} (holds : SaysAll body) :
    SaysAll (atBlock name body) := by
  intro options state nodes last run
  obtain ⟨opened, later, closed, -, inner, -, rfl⟩ := ok_of_atBlock run
  exact ((said_past opened).trans (holds _ _ _ _ inner)).to_silent (said_past closed)

theorem says_plainBlock : SaysAll plainBlock := by
  intro options state nodes last run
  obtain ⟨opened, later, -, inner, ending⟩ := ok_of_plainBlock run
  have body : Said options (Node.eventsAll nodes) state later :=
    (said_past opened).trans (says_declarations _ _ _ _ inner)
  rcases ending with ⟨closed, -, rfl⟩ | ⟨-, reported⟩
  · exact body.to_silent (said_past closed)
  · exact body.to_silent (said_of_report reported)

theorem said_of_blockFound {block : Parser (List Node)} {header : Header} {first : State}
    (holds : SaysAll block) (found : BlockFound block header options first middle last node) :
    Said options (Node.eventsAll node.children) middle last := by
  obtain ⟨children, later, inner, passed, rfl⟩ := found
  exact (holds _ _ _ _ inner).to_silent (said_of_passesOver passed)

/-- Rules and keyframes leave no event of their own. -/
theorem said_of_plainFound {header : Header} {first : State}
    (plain : header.isPlain = true)
    (found : BlockFound plainBlock header options first middle last node) :
    Said options (Node.eventsAll [node]) middle last := by
  have said := said_of_blockFound says_plainBlock found
  obtain ⟨children, later, -, -, rfl⟩ := found
  rw [Node.eventsAll_singleton]
  cases header <;> cases plain <;> rwa [Node.event?, Node.kind, Header.kind, Option.toList_none,
    List.append_nil]

/-! ### At-rules -/

theorem says_keyframe : SaysNode keyframe := by
  intro options state node last run
  obtain ⟨found, -, block⟩ := found_of_keyframe run
  exact (said_past found).trans (said_of_plainFound rfl block)

theorem says_keyframes : SaysBelow keyframes := by
  intro options state node last run
  obtain ⟨vendor, name, -, -, block⟩ := found_of_keyframes run
  have list : SaysAll (collect (orComment keyframe)) :=
    says_collect (closed_forward.orComment closed_forward.keyframe)
      (closed_decides.orComment closed_decides.keyframe)
      (traceless_orComment traceless_keyframe) (says_orComment says_keyframe)
  have opened : Said options [] state ((state.past vendor).past name) :=
    (said_past vendor).trans (said_past name)
  exact opened.trans (said_of_blockFound (says_atBlock list) block)

theorem says_statement {opening : Pattern Leaf} : SaysBelow (statement opening) := by
  intro options state node last run
  obtain ⟨found, -, passed, rfl⟩ := found_of_statement run
  exact (said_past found).trans (said_of_passesOver passed)

theorem says_conditional {name : AtKeyword} {opening : Pattern Header}
    {body : Parser (List Node)} (holds : SaysAll body) :
    SaysBelow (conditional name opening body) := by
  intro options state node last run
  obtain ⟨found, -, block⟩ := found_of_conditional run
  exact (said_past found).trans (said_of_blockFound (says_atBlock holds) block)

variable {nested : Parser (List Node)}

theorem says_atRule (holds : SaysAll nested) (name : AtKeyword) :
    SaysBelow (atRule nested name) := by
  cases name with
  | keyframes => exact says_keyframes
  | media | supports | document | host => exact says_conditional holds
  | page | fontFace => exact says_conditional says_declarations
  | customMedia | importRule | charset | namespaceRule => exact says_statement

/-- What is read for an at-rule is an at-rule with its keyword. -/
theorem kind_of_atRule {name : AtKeyword}
    (run : atRule nested name options state = .ok (some node) last) :
    node.kind = .atRule name := by
  have conditional {opening : Pattern Header} {room : Room} {body : Parser (List Node)}
      (form : name.form = .conditional opening room)
      (run : conditional name opening body options state = .ok (some node) last) :
      node.kind = .atRule name := by
    obtain ⟨found, present, children, later, -, -, rfl⟩ := found_of_conditional run
    exact (kind_and_room_of_conditional form (Pattern.takes_of_read present)).1
  cases form : name.form with
  | keyframes =>
    rw [eq_keyframes form] at run ⊢
    obtain ⟨vendor, word, -, -, children, later, -, -, rfl⟩ := found_of_keyframes run
    rfl
  | statement opening =>
    rw [atRule_of_statement form] at run
    obtain ⟨found, present, -, rfl⟩ := found_of_statement run
    exact kind_of_statement form (Pattern.takes_of_read present)
  | conditional opening room =>
    cases name <;> cases form <;> exact conditional rfl run

theorem says_firstAtRule (holds : SaysAll nested) (names : List AtKeyword) :
    SaysNode (firstAtRule nested names) := by
  intro options state node last run
  obtain ⟨-, name, -, later, -, -, found, rfl⟩ := found_of_firstAtRule run
  have own : node.event? = some (.readAtRule name node.span.start) := by
    rw [Node.event?, kind_of_atRule found]
  have recorded : Said options [.readAtRule name node.span.start] later
      (later.recording (.readAtRule name node.span.start)) :=
    ⟨_, rfl, List.Sublist.refl _, fun _ fresh => ⟨rfl, fresh⟩⟩
  rw [Node.eventsAll_singleton, own]
  exact (says_atRule holds name _ _ _ _ found).trans recorded

theorem said_of_attempt {parser : Parser (Option α)} (forward : Forward (Option α) parser)
    (decides : Decides (Option α) parser) (traceless : Traceless parser)
    (run : attempt parser options state = .ok none last) : Said options [] state last := by
  unfold attempt at run
  split at run
  · rename_i outcome
    cases run
    exact said_of_givenUp forward decides outcome
  · rw [traceless _ _ _ run]
    exact .silent rfl rfl

/-! ### Rules -/

theorem says_rule : SaysNode rule := by
  intro options state node last run
  obtain ⟨text, -, block⟩ := found_of_rule run
  exact (said_past text).trans (said_of_plainFound rfl block)

theorem says_item (forward : Forward (List Node) nested) (decides : Decides (List Node) nested)
    (holds : SaysAll nested) : SaysNode (item nested) := by
  intro options state node last run
  rcases found_of_item run with comment | ⟨-, -, run⟩
  · exact says_comment _ _ _ _ comment
  rcases found_of_ruleOrAtRule run with found | ⟨later, tried, found⟩
  · exact says_firstAtRule holds _ _ _ _ _ found
  · have passed := said_of_attempt (closed_forward.firstAtRule forward _)
      (closed_decides.firstAtRule decides _) (traceless_firstAtRule nested _) tried
    exact passed.trans (says_rule _ _ _ _ found)

theorem says_ruleList (forward : Forward (List Node) nested) (decides : Decides (List Node) nested)
    (holds : SaysAll nested) : SaysAll (ruleList nested) := by
  intro options state nodes last run
  obtain ⟨later, passed, run⟩ := ok_of_ruleList run
  have items := says_collect (closed_forward.item forward) (closed_decides.item decides)
    (traceless_item nested) (says_item forward decides holds)
  exact (said_of_passesOver passed).trans (items _ _ _ _ run)

theorem says_rulesBelow (bound : Nat) : SaysAll (rulesBelow bound) := by
  induction bound using Nat.strongRecOn with
  | ind bound inductionHypothesis =>
    intro options state nodes last run
    rw [rulesBelow_eq, byLeft] at run
    split at run
    · rename_i less
      exact says_ruleList (closed_forward.rulesBelow _) (closed_decides.rulesBelow _)
        (inductionHypothesis _ less) _ _ _ _ run
    · cases run
      exact .silent rfl rfl

/-- With the nodes of a list of rules, the events of all at-rules in them are recorded. -/
theorem says_rules : SaysAll rules := by
  intro options state nodes last run
  rw [rules_eq, byLeft] at run
  exact says_ruleList (closed_forward.rulesBelow _) (closed_decides.rulesBelow _)
    (says_rulesBelow _) _ _ _ _ run

/-! ### Warnings -/

/-- The warnings that were recorded are the faults that were noted. -/
def State.Tallied (state : State) : Prop :=
  (state.events.filter fun event => event.level = .warn) = state.faults.map .noted

theorem tallied_begun (css : String) (options : Options) : (begun css options).Tallied := rfl

/-- Whatever the outcome, the parser records no warning but for the faults that it notes. -/
def Tallies (α : Type) (parser : Parser α) : Prop :=
  ∀ (options : Options) (state : State), state.Tallied → (reached (parser options state)).Tallied

theorem tallies_bind {first : Parser α} {next : α → Parser β} (former : Tallies α first)
    (latter : ∀ value, Tallies β (next value)) : Tallies β (first >>= next) := by
  intro options state tallied
  have start := former options state tallied
  rw [bind_run]
  cases outcome : first options state with
  | ok value later =>
    rw [outcome] at start
    exact latter value options later start
  | error halt later =>
    rw [outcome] at start
    exact start

theorem tallies_accept (pattern : Pattern α) : Tallies (Option α) (accept pattern) := by
  intro options state tallied
  cases present : pattern.read state.cursor.rest with
  | none =>
    rw [accept_none present]
    exact tallied
  | some found =>
    rw [accept_some present]
    exact tallied

theorem tallies_record (keyword : AtKeyword) (start : Location) :
    Tallies Unit (record (.readAtRule keyword start)) := by
  intro options state tallied
  show ((state.events ++ [Event.readAtRule keyword start]).filter _) = _
  rw [List.filter_append, tallied]
  exact List.append_nil _

theorem tallies_report (cause : Cause) : Tallies Unit (report cause) := by
  rintro ⟨source, mode⟩ state tallied
  cases mode with
  | strict =>
    rw [report_strict]
    exact tallied
  | tolerant =>
    rw [report_tolerant]
    show ((state.events ++ [Event.noted _]).filter _) = (state.faults ++ [_]).map Event.noted
    rw [List.filter_append, tallied, List.map_append]
    rfl

theorem tallies_attempt {parser : Parser (Option α)} (tallies : Tallies (Option α) parser) :
    Tallies (Option α) (attempt parser) := by
  intro options state tallied
  have start := tallies options state tallied
  unfold attempt
  split
  · rename_i outcome
    rw [outcome] at start
    exact start
  · exact start

theorem tallies_collect {item : Parser (Option α)} (tallies : Tallies (Option α) item) :
    Tallies (List α) (collect item) := by
  intro options state tallied
  fun_induction collect item options state with
  | case1 state later outcome | case2 state later outcome | case3 state fault later outcome
  | case6 state value later outcome more =>
    have step := tallies options state tallied
    rw [outcome] at step
    exact step
  | case4 state value later outcome less values last rest inductionHypothesis
  | case5 state value later outcome less halt last rest inductionHypothesis =>
    have step := tallies options state tallied
    rw [outcome] at step
    have others := inductionHypothesis step
    rw [rest] at others
    exact others

theorem stepwise_tallies : Stepwise Tallies where
  pure _ _ _ tallied := tallied
  bind := tallies_bind
  look _ _ _ tallied := tallied
  accept := tallies_accept
  sourceName _ _ tallied := tallied
  recallOpen _ _ tallied := tallied
  rememberOpen _ _ _ tallied := tallied
  record := tallies_record
  report := tallies_report
  halt _ _ tallied := tallied
  attempt := tallies_attempt
  collect := tallies_collect
  byLeft tallies options state := tallies state.left options state

/-- The grammar warns of the faults that it notes, and of nothing else. -/
theorem closed_tallies : Closed Tallies := stepwise_tallies.closed

end Grammar

/-! ### Whole records -/

open Grammar

variable {css : String} {options : Options} {source : Option String}

/-- The record of a parse that gives the stylesheet, with these events in the middle. -/
def Stylesheet.record (sheet : Stylesheet) (options : Options) (middle : List Event) : List Event :=
  .started options.source options.mode :: middle ++
    [.finished sheet.rules.length sheet.faults.length, .linked sheet.links.size]

/-- The events tell the same as the stylesheet. -/
structure Stylesheet.ToldBy (sheet : Stylesheet) (events : List Event) : Prop where
  /-- The warnings are the messages of the faults. -/
  warnings : (events.filter fun event => event.level = .warn).map Event.message =
    sheet.faults.map Fault.message
  /-- All at-rules of the tree are told. -/
  atRules : (Node.recordLines sheet.rules).Sublist (events.map Event.text)
  /-- Where there is no fault, nothing else is told. -/
  clean : sheet.faults = [] → events.map Event.text = Node.recordLines sheet.rules

/-- The record of a parse that comes to the end of its list of rules has an ending. -/
theorem record_of_ok {nodes : List Node} {last : State}
    (run : rules options (begun css options) = .ok nodes last) {middle : List Event}
    (events : last.events = .started options.source options.mode :: middle) :
    (parseRecorded css options).2 =
      (Stylesheet.ofRules options.source nodes last.faults).record options middle := by
  unfold begun at run
  unfold parseRecorded
  simp only [run]
  rw [Stylesheet.record, ← events]
  rfl

/-- The record of a parse that raises a fault ends where the fault is raised. -/
theorem record_of_raised {fault : Fault} {last : State}
    (run : rules options (begun css options) = .error (.raised fault) last) :
    (parseRecorded css options).2 = last.events := by
  unfold begun at run
  unfold parseRecorded
  simp only [run]

/-- Where no fault was noted, the at-rules of the tree are recorded and nothing else. -/
theorem events_of_clean {nodes : List Node} {last : State}
    (run : rules options (begun css options) = .ok nodes last) (clean : last.faults = []) :
    last.events = .started options.source options.mode :: Node.eventsAll nodes := by
  obtain ⟨source, mode⟩ := options
  have exactly {nodes : List Node} {last : State}
      (run : rules ⟨source, .strict⟩ (begun css ⟨source, .strict⟩) = .ok nodes last) :
      last.events = .started source .strict :: Node.eventsAll nodes := by
    obtain ⟨said, events, -, precise⟩ := says_rules _ _ _ _ run
    rw [events, (precise rfl rfl).1]
    rfl
  cases mode with
  | strict => exact exactly run
  | tolerant =>
    have both := rules_agree css source
    rw [run] at both
    generalize outcome : rules ⟨source, .strict⟩ (begun css ⟨source, .strict⟩) = strictOutcome
      at both
    cases both with
    | ok value alike =>
      obtain ⟨middle, strictEvents, tolerantEvents, -⟩ := alike.events
      have same : middle = Node.eventsAll nodes := by
        have whole := exactly outcome
        rw [strictEvents] at whole
        exact (List.cons.inj whole).2
      rw [tolerantEvents, same]
      rfl
    | parted parted =>
      have noted := parted.first
      rw [reached, clean] at noted
      exact absurd (List.prefix_nil.mp noted) (List.cons_ne_nil _ _)

/-- What is recorded between the beginning and the ending tells the same as the stylesheet. -/
theorem toldBy_of_run {nodes : List Node} {last : State} {middle : List Event}
    (run : rules options (begun css options) = .ok nodes last)
    (events : last.events = .started options.source options.mode :: middle) :
    (Stylesheet.ofRules options.source nodes last.faults).ToldBy middle where
  warnings := by
    have tallied := closed_tallies.rules options _ (tallied_begun css options)
    rw [run, reached, State.Tallied, events, List.filter_cons_of_neg Bool.false_ne_true] at tallied
    rw [tallied, List.map_map]
    rfl
  atRules := by
    obtain ⟨said, recorded, inside, -⟩ := says_rules _ _ _ _ run
    have same : middle = said := by
      rw [events] at recorded
      exact (List.cons.inj recorded).2
    rw [same, Stylesheet.ofRules, ← Node.text_of_eventsAll]
    exact inside.map Event.text
  clean := by
    intro clean
    have whole := events_of_clean run clean
    rw [events] at whole
    rw [(List.cons.inj whole).2, Node.text_of_eventsAll]
    rfl

/-- The record of a parse that gives a stylesheet tells the same as the stylesheet. -/
theorem recorded_of_ok {sheet : Stylesheet} (read : parseWith css options = .ok sheet) :
    ∃ middle, (parseRecorded css options).2 = sheet.record options middle ∧
      sheet.ToldBy middle := by
  obtain ⟨nodes, last, run, rfl⟩ := ok_of_parseWith read
  obtain ⟨middle, events, -⟩ := says_rules _ _ _ _ run
  exact ⟨middle, record_of_ok run events, toldBy_of_run run events⟩

/-- Where a strict parse raises a fault, its record is that of the tolerant parse up to the first
warning, which is of this fault. -/
theorem recorded_of_error {fault : Fault}
    (failed : parseWith css ⟨source, .strict⟩ = .error fault) :
    ∃ sheet front others, parseWith css ⟨source, .tolerant⟩ = .ok sheet ∧
      (parseRecorded css ⟨source, .tolerant⟩).2 =
        sheet.record ⟨source, .tolerant⟩ (front ++ .noted fault :: others) ∧
      (∀ event ∈ front, event.level ≠ .warn) ∧
      (parseRecorded css ⟨source, .strict⟩).2 = .started source .strict :: front := by
  obtain ⟨strict, raised⟩ := error_of_parseWith failed
  obtain ⟨sheet, read, -⟩ := parse_modes css source
  obtain ⟨nodes, tolerant, run, rfl⟩ := ok_of_parseWith read
  have both := rules_agree css source
  rw [raised, run] at both
  cases both with
  | parted parted =>
    obtain ⟨front, strictEvents, ⟨others, tolerantEvents⟩, quiet⟩ := parted.events
    have events : tolerant.events =
        .started source .tolerant :: (front ++ .noted fault :: others) := by
      rw [← show reached (.ok nodes tolerant) = tolerant from rfl, ← tolerantEvents]
      simp only [List.append_assoc, List.cons_append, List.nil_append]
    exact ⟨_, front, others, read, record_of_ok run events, quiet,
      (record_of_raised raised).trans strictEvents⟩

/-- The record of a parse that gives a stylesheet tells the same as the stylesheet. The record of a
strict parse that ends with a fault is that of the tolerant parse, cut before its first warning. -/
theorem record_of_parse (css : String) :
    (∀ options sheet, parseWith css options = .ok sheet →
      ∃ middle, (parseRecorded css options).2 = sheet.record options middle ∧
        sheet.ToldBy middle) ∧
    ∀ source fault, parseWith css ⟨source, .strict⟩ = .error fault →
      ∃ sheet front others, parseWith css ⟨source, .tolerant⟩ = .ok sheet ∧
        (parseRecorded css ⟨source, .tolerant⟩).2 =
          sheet.record ⟨source, .tolerant⟩ (front ++ .noted fault :: others) ∧
        (∀ event ∈ front, event.level ≠ .warn) ∧
        (parseRecorded css ⟨source, .strict⟩).2 = .started source .strict :: front :=
  ⟨fun _ _ => recorded_of_ok, fun _ _ => recorded_of_error⟩

/-- What is left of two at-rules, one inside the other, and of a third that is not closed. -/
def unclosedPageSheet : Stylesheet :=
  .ofRules none
    [.block .host ⟨⟨1, 1⟩, ⟨1, 15⟩, none⟩ [.block (.page []) ⟨⟨1, 7⟩, ⟨1, 14⟩, none⟩ []]]
    [⟨.missingCloseBrace (.atRule "page"), none, ⟨1, 21⟩⟩, ⟨.missingSelector, none, ⟨1, 21⟩⟩]

theorem record_of_parse_unclosedPageSheet :
    parseWith "@host{@page{}}@page\x7b" ⟨none, .tolerant⟩ = .ok unclosedPageSheet ∧
      (∃ middle, (parseRecorded "@host{@page{}}@page\x7b" ⟨none, .tolerant⟩).2 =
        unclosedPageSheet.record ⟨none, .tolerant⟩ middle ∧ unclosedPageSheet.ToldBy middle) ∧
      parseWith "@host{@page{}}@page\x7b" ⟨none, .strict⟩ =
        .error ⟨.missingCloseBrace (.atRule "page"), none, ⟨1, 21⟩⟩ ∧
      ∃ front, (∀ event ∈ front, event.level ≠ .warn) ∧
        (parseRecorded "@host{@page{}}@page\x7b" ⟨none, .strict⟩).2 =
          .started none .strict :: front := by
  have read : parseWith "@host{@page{}}@page\x7b" ⟨none, .tolerant⟩ = .ok unclosedPageSheet := by
    cbv
  have failed : parseWith "@host{@page{}}@page\x7b" ⟨none, .strict⟩ =
      .error ⟨.missingCloseBrace (.atRule "page"), none, ⟨1, 21⟩⟩ := by cbv
  obtain ⟨told, cut⟩ := record_of_parse "@host{@page{}}@page\x7b"
  obtain ⟨sheet, front, others, -, -, quiet, strict⟩ := cut none _ failed
  exact ⟨read, told _ _ read, failed, front, quiet, strict⟩

end CssSyntax
