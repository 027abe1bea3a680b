/-
This file shows that a parse depends neither on the place of its text nor on the name of its source.

A change moves places and renames the source in all that a parse says. Two runs are compared, one of
them from a changed state. The text ahead is the same in both, so they match the same patterns and
take the same turns, and what the second run says is what the first one says, changed. Three laws of
a change are used: it goes along with reading on, it keeps places apart, which is asked where the
parser compares the place of an unterminated comment with the one kept in mind, and it does nothing
to texts.

The first use is the name of the source. Every node and every fault carries it, and nothing else
depends on it.
-/

import CssSyntax.Proofs.Positions
import CssSyntax.Proofs.Runs

namespace CssSyntax

open Grammar

/-! ### Changes -/

/-- A way to move the places of a text and to rename its source. -/
structure Change where
  place : Location → Location
  name : Option String → Option String
  /-- Reading on and moving can be done in either order. Lines are counted from one. -/
  step : ∀ (location : Location) (character : Char), 0 < location.line →
    place (location.step character) = (place location).step character
  /-- Different places stay different. -/
  apart : ∀ first second : Location, place first = place second → first = second

namespace Change

variable (change : Change)

def span (span : Span) : Span :=
  ⟨change.place span.start, change.place span.stop, change.name span.source⟩

def fault (fault : Fault) : Fault :=
  ⟨fault.cause, change.name fault.source, change.place fault.location⟩

mutual

/-- The node with all spans changed, its own and those below it. -/
def node : Node → Node
  | .leaf content span => .leaf content (change.span span)
  | .block header span children => .block header (change.span span) (nodes children)

def nodes : List Node → List Node
  | [] => []
  | first :: others => node first :: nodes others

end

/-- The stylesheet with all spans and faults changed. The table of links stays as it is. -/
def sheet (sheet : Stylesheet) : Stylesheet :=
  { sheet with
    source := change.name sheet.source
    rules := change.nodes sheet.rules
    faults := sheet.faults.map change.fault }

def result : Except Fault Stylesheet → Except Fault Stylesheet
  | .ok sheet => .ok (change.sheet sheet)
  | .error fault => .error (change.fault fault)

theorem nodes_eq (nodes : List Node) : change.nodes nodes = nodes.map change.node := by
  induction nodes with
  | nil => rw [Change.nodes, List.map_nil]
  | cons first others inductionHypothesis =>
    rw [Change.nodes, List.map_cons, inductionHypothesis]

theorem span_node (node : Node) : (change.node node).span = change.span node.span := by
  cases node <;> rw [Change.node] <;> rfl

/-! ### What a change leaves alone -/

mutual

theorem links_node (parent : NodeId) (path : List UInt32) (next : Nat) (node : Node) :
    (change.node node).links parent path next = node.links parent path next := by
  cases node with
  | leaf content span => rw [Change.node, Node.links, Node.links]
  | block header span children =>
    rw [Change.node, Node.links, Node.links, linksAll_nodes]

theorem linksAll_nodes (parent : NodeId) (path : List UInt32) (index next : Nat)
    (nodes : List Node) :
    Node.linksAll parent path index next (change.nodes nodes) =
      Node.linksAll parent path index next nodes := by
  cases nodes with
  | nil => rw [Change.nodes]
  | cons first others =>
    rw [Change.nodes, Node.linksAll, Node.linksAll, links_node, linksAll_nodes]

end

/-- The stylesheet of changed nodes is the changed stylesheet, its table of links included. -/
theorem ofRules_nodes (source : Option String) (rules : List Node) (faults : List Fault) :
    Stylesheet.ofRules (change.name source) (change.nodes rules) (faults.map change.fault) =
      change.sheet (.ofRules source rules faults) := by
  have links : Links.ofNodes (change.nodes rules) = Links.ofNodes rules := by
    rw [Links.ofNodes, Links.ofNodes, linksAll_nodes]
  rw [Stylesheet.ofRules, links]
  rfl

mutual

theorem preorder_node (node : Node) :
    (change.node node).preorder = node.preorder.map change.node := by
  cases node with
  | leaf content span =>
    rw [Change.node, Node.preorder, Node.preorder, List.map_singleton, Change.node]
  | block header span children =>
    rw [Change.node, Node.preorder, Node.preorder, preorderAll_nodes, List.map_cons, Change.node]

theorem preorderAll_nodes (nodes : List Node) :
    Node.preorderAll (change.nodes nodes) = (Node.preorderAll nodes).map change.node := by
  cases nodes with
  | nil => rw [Change.nodes, Node.preorderAll, List.map_nil]
  | cons first others =>
    rw [Change.nodes, Node.preorderAll, Node.preorderAll, preorder_node, preorderAll_nodes,
      List.map_append]

end

/-! ### Changed states -/

def options (options : Options) : Options := { options with source := change.name options.source }

def event : Event → Event
  | .started source mode => .started (change.name source) mode
  | .readAtRule keyword start => .readAtRule keyword (change.place start)
  | .noted fault => .noted (change.fault fault)
  | other => other

/-- The state of a parse of the same text elsewhere. -/
def state (state : State) : State where
  cursor := ⟨state.cursor.rest, change.place state.cursor.location⟩
  faults := state.faults.map change.fault
  openComment := state.openComment.map change.place
  events := state.events.map change.event

def halt : Halt → Halt
  | .noted => .noted
  | .raised fault => .raised (change.fault fault)

def outcome {α : Type} (value : α → α) :
    EStateM.Result Halt State α → EStateM.Result Halt State α
  | .ok found last => .ok (value found) (change.state last)
  | .error halt last => .error (change.halt halt) (change.state last)

theorem after {location : Location} (counted : 0 < location.line) (text : List Char) :
    change.place (location.after text) = (change.place location).after text := by
  induction text generalizing location with
  | nil => rfl
  | cons first rest inductionHypothesis =>
    have later : 0 < (location.step first).line :=
      Nat.lt_of_lt_of_le counted (Location.line_le_of_lt (Location.lt_step location first))
    rw [Location.after_cons, Location.after_cons, inductionHypothesis later,
      change.step location first counted]

end Change

namespace Grammar

variable {α β : Type} {change : Change}

/-! ### Parsers that go along with a change -/

/-- From a changed state the second parser does what the first one does from the state, changed. The
values that the two find may contain places and names, and then differ by the change too. -/
structure Carries (change : Change) (value : α → α) (first second : Parser α) : Prop where
  forward : Forward α first
  same : ∀ (options : Options) (state : State), 0 < state.cursor.location.line →
    second (change.options options) (change.state state) =
      change.outcome value (first options state)

/-- Lines are counted on. -/
theorem State.Precedes.line_pos {state later : State} (precedes : state.Precedes later)
    (counted : 0 < state.cursor.location.line) : 0 < later.cursor.location.line := by
  obtain ⟨taken, -, location⟩ := precedes.text
  rw [location]
  rcases Location.le_after state.cursor.location taken with less | same
  · exact Nat.lt_of_lt_of_le counted (Location.line_le_of_lt less)
  · rwa [← same]

theorem carries_pure (value : α → α) (found : α) :
    Carries change value (pure found) (pure (value found)) :=
  ⟨closed_forward.pure found, fun _ _ _ => rfl⟩

theorem carries_bind {value : α → α} {result : β → β} {first first' : Parser α}
    {next next' : α → Parser β} (former : Carries change value first first')
    (latter : ∀ found, Carries change result (next found) (next' (value found))) :
    Carries change result (first >>= next) (first' >>= next') where
  forward := forward_bind former.forward fun found => (latter found).forward
  same := by
    intro options state counted
    have onward := former.forward options state
    rw [bind_run, bind_run, former.same options state counted]
    cases outcome : first options state with
    | error halt later => rfl
    | ok found later =>
      rw [outcome] at onward
      exact (latter found).same options later (onward.line_pos counted)

theorem carries_here : Carries change change.place here here :=
  ⟨closed_forward.here, fun _ _ _ => rfl⟩

theorem carries_startsWith (word : List Char) :
    Carries change id (startsWith word) (startsWith word) :=
  ⟨closed_forward.startsWith word, fun _ _ _ => rfl⟩

theorem carries_atEnd : Carries change id atEnd atEnd :=
  ⟨closed_forward.atEnd, fun _ _ _ => rfl⟩

theorem carries_sourceName : Carries change change.name sourceName sourceName :=
  ⟨closed_forward.sourceName, fun _ _ _ => rfl⟩

theorem carries_accept (pattern : Pattern α) :
    Carries change id (accept pattern) (accept pattern) where
  forward := forward_accept pattern
  same := by
    intro options state counted
    cases present : pattern.read state.cursor.rest with
    | none =>
      have presentToo : pattern.read (change.state state).cursor.rest = none := present
      rw [accept_none present, accept_none presentToo]
      rfl
    | some found =>
      have presentToo : pattern.read (change.state state).cursor.rest = some found := present
      have moved := change.after counted found.taken
      rw [accept_some present, accept_some presentToo]
      simp only [Change.outcome, Change.state, State.past, moved, id_eq]

theorem carries_spanFrom (start : Location) :
    Carries change change.span (spanFrom start) (spanFrom (change.place start)) := by
  have steps : ∀ place, spanFrom place = (do
      let stop ← here
      let source ← sourceName
      let _ ← accept .blanks
      return ⟨place, stop, source⟩) := fun _ => rfl
  rw [steps, steps]
  refine carries_bind carries_here fun stop => ?_
  refine carries_bind carries_sourceName fun source => ?_
  exact carries_bind (carries_accept _) fun _ => carries_pure change.span ⟨start, stop, source⟩

theorem carries_record (keyword : AtKeyword) (start : Location) :
    Carries change id (record (.readAtRule keyword start))
      (record (.readAtRule keyword (change.place start))) := by
  refine ⟨closed_forward.record keyword start, fun options state _ => ?_⟩
  show EStateM.Result.ok () _ = .ok () (change.state (state.recording _))
  simp only [Change.state, State.recording, List.map_append, List.map_singleton, Change.event]

theorem carries_report (cause : Cause) : Carries change id (report cause) (report cause) where
  forward := forward_report cause
  same := by
    rintro ⟨source, mode⟩ state counted
    cases mode with
    | strict => rfl
    | tolerant =>
      rw [report_tolerant]
      show EStateM.Result.ok () _ = .ok () (change.state (state.noting _))
      simp only [Change.state, State.noting, List.map_append, List.map_singleton]
      rfl

theorem carries_halt (value : α → α) : Carries change value (throw .noted) (throw .noted) :=
  ⟨stepwise_forward.halt, fun _ _ _ => rfl⟩

theorem carries_fail (value : α → α) (cause : Cause) :
    Carries change value (fail cause) (fail cause) :=
  carries_bind (carries_report cause) fun _ => carries_halt value

theorem carries_attempt {value : α → α} {first second : Parser (Option α)}
    (carries : Carries change (Option.map value) first second) :
    Carries change (Option.map value) (attempt first) (attempt second) where
  forward := forward_attempt carries.forward
  same := by
    intro options state counted
    rw [attempt, attempt, carries.same options state counted]
    cases first options state with
    | ok found later => rfl
    | error halt later => cases halt <;> rfl

theorem carries_collect {value : α → α} {first second : Parser (Option α)}
    (carries : Carries change (Option.map value) first second) :
    Carries change (List.map value) (collect first) (collect second) where
  forward := forward_collect carries.forward
  same := by
    intro options state counted
    have onward := carries.forward options
    fun_induction collect first options state with
    | case1 state later outcome | case2 state later outcome | case3 state fault later outcome =>
      rw [collect_eq, carries.same options state counted, outcome]
      rfl
    | case6 state found later outcome more =>
      rw [collect_eq, carries.same options state counted, outcome]
      exact if_neg more
    | case4 state found later outcome less values last rest inductionHypothesis
    | case5 state found later outcome less halt last rest inductionHypothesis =>
      have step := onward state
      rw [outcome] at step
      have others := inductionHypothesis (step.line_pos counted)
      rw [rest] at others
      rw [collect_eq, carries.same options state counted, outcome]
      refine (if_pos less).trans ?_
      rw [others]
      rfl

theorem carries_byLeft {value : α → α} {first second : Nat → Parser α}
    (carries : ∀ left, Carries change value (first left) (second left)) :
    Carries change value (byLeft first) (byLeft second) where
  forward := closed_forward.byLeft fun left => (carries left).forward
  same := fun options state counted => (carries state.left).same options state counted

/-! ### Comments, declarations and blocks -/

/-- This is where places are compared. -/
theorem carries_tellOpen (start : Location) :
    Carries change (Option.map change.node) (tellOpen start) (tellOpen (change.place start)) where
  forward := stepwise_forward.tellOpen start
  same := by
    intro options state counted
    have known : (change.state state).openComment = some (change.place start) ↔
        state.openComment = some start := by
      show state.openComment.map change.place = some (change.place start) ↔ _
      rw [Option.map_eq_some_iff]
      constructor
      · rintro ⟨place, kept, same⟩
        rw [kept, change.apart place start same]
      · exact fun kept => ⟨start, kept, rfl⟩
    rw [tellOpen_eq, tellOpen_eq]
    by_cases told : state.openComment = some start
    · rw [if_pos told, if_pos (known.mpr told)]
      rfl
    · rw [if_neg told, if_neg fun same => told (known.mp same)]
      have fails : Carries change (Option.map change.node) (fail .unterminatedComment)
          (fail .unterminatedComment) := carries_fail _ _
      exact fails.same options { state with openComment := some start } counted

theorem carries_comment : Carries change (Option.map change.node) comment comment := by
  refine carries_bind carries_here fun start => ?_
  refine carries_bind (carries_startsWith _) fun opened => ?_
  cases opened with
  | false => exact carries_pure _ none
  | true =>
    refine carries_bind (carries_accept _) fun found => ?_
    cases found with
    | none => exact carries_tellOpen start
    | some body => exact carries_bind (carries_spanFrom start) fun span => carries_pure _ (some _)

theorem carries_declaration :
    Carries change (Option.map change.node) declaration declaration := by
  refine carries_bind carries_here fun start => ?_
  refine carries_bind (carries_accept _) fun property => ?_
  cases property with
  | none => exact carries_pure _ none
  | some property =>
    refine carries_bind (carries_accept _) fun mark => ?_
    cases mark with
    | none => exact carries_fail _ _
    | some mark =>
      refine carries_bind (carries_accept _) fun value => ?_
      refine carries_bind (carries_spanFrom start) fun span => ?_
      exact carries_bind (carries_accept _) fun _ => carries_pure _ (some _)

theorem carries_orComment {first second : Parser (Option Node)}
    (carries : Carries change (Option.map change.node) first second) :
    Carries change (Option.map change.node) (orComment first) (orComment second) := by
  refine carries_bind carries_comment fun found => ?_
  cases found with
  | some node => exact carries_pure _ (some node)
  | none => exact carries

theorem carries_declarations :
    Carries change (List.map change.node) declarations declarations :=
  carries_collect (carries_orComment carries_declaration)

theorem carries_atBlock (name : AtKeyword) {first second : Parser (List Node)}
    (carries : Carries change (List.map change.node) first second) :
    Carries change (List.map change.node) (atBlock name first) (atBlock name second) := by
  refine carries_bind (carries_accept _) fun opened => ?_
  cases opened with
  | none => exact carries_fail _ _
  | some mark =>
    refine carries_bind carries fun children => ?_
    refine carries_bind (carries_accept _) fun closed => ?_
    cases closed with
    | none => exact carries_fail _ _
    | some mark => exact carries_pure _ children

theorem carries_plainBlock : Carries change (List.map change.node) plainBlock plainBlock := by
  refine carries_bind (carries_accept _) fun opened => ?_
  cases opened with
  | none => exact carries_fail _ _
  | some mark =>
    refine carries_bind carries_declarations fun children => ?_
    refine carries_bind (carries_accept _) fun closed => ?_
    cases closed with
    | none => exact carries_bind (carries_report _) fun _ => carries_pure _ children
    | some mark => exact carries_pure _ children

/-- A block behind its opening, which began at the start. -/
theorem carries_block {first second : Parser (List Node)} (header : Header) (start : Location)
    (carries : Carries change (List.map change.node) first second) :
    Carries change (Option.map change.node)
      (do
        let children ← first
        return some (.block header (← spanFrom start) children))
      (do
        let children ← second
        return some (.block header (← spanFrom (change.place start)) children)) := by
  refine carries_bind carries fun children => ?_
  refine carries_bind (carries_spanFrom start) fun span => ?_
  have made : Carries change (Option.map change.node)
      (pure (some (.block header span children))) _ := carries_pure _ _
  rwa [Option.map_some, Change.node, change.nodes_eq] at made

/-! ### At-rules -/

theorem carries_keyframe : Carries change (Option.map change.node) keyframe keyframe := by
  refine carries_bind carries_here fun start => ?_
  refine carries_bind (carries_accept _) fun found => ?_
  cases found with
  | none => exact carries_pure _ none
  | some found => exact carries_block _ start carries_plainBlock

theorem carries_keyframes : Carries change (Option.map change.node) keyframes keyframes := by
  refine carries_bind carries_here fun start => ?_
  refine carries_bind (carries_accept _) fun vendor => ?_
  cases vendor with
  | none => exact carries_pure _ none
  | some vendor =>
    refine carries_bind (carries_accept _) fun name => ?_
    cases name with
    | none => exact carries_fail _ _
    | some name =>
      have body : Carries change (List.map change.node) (collect (orComment keyframe)) _ :=
        carries_collect (carries_orComment carries_keyframe)
      exact carries_block _ start (carries_atBlock _ body)

theorem carries_statement (opening : Pattern Leaf) :
    Carries change (Option.map change.node) (statement opening) (statement opening) := by
  refine carries_bind carries_here fun start => ?_
  refine carries_bind (carries_accept _) fun content => ?_
  cases content with
  | none => exact carries_pure _ none
  | some content => exact carries_bind (carries_spanFrom start) fun span => carries_pure _ (some _)

variable {first second : Parser (List Node)}

theorem carries_conditional (name : AtKeyword) (opening : Pattern Header)
    (carries : Carries change (List.map change.node) first second) :
    Carries change (Option.map change.node) (conditional name opening first)
      (conditional name opening second) := by
  refine carries_bind carries_here fun start => ?_
  refine carries_bind (carries_accept _) fun header => ?_
  cases header with
  | none => exact carries_pure _ none
  | some header => exact carries_block header start (carries_atBlock name carries)

theorem carries_atRule (carries : Carries change (List.map change.node) first second)
    (name : AtKeyword) :
    Carries change (Option.map change.node) (atRule first name) (atRule second name) := by
  cases name with
  | keyframes => exact carries_keyframes
  | media | supports | document | host => exact carries_conditional _ _ carries
  | page | fontFace => exact carries_conditional _ _ carries_declarations
  | customMedia | importRule | charset | namespaceRule => exact carries_statement _

theorem carries_firstAtRule (carries : Carries change (List.map change.node) first second)
    (names : List AtKeyword) :
    Carries change (Option.map change.node) (firstAtRule first names)
      (firstAtRule second names) := by
  induction names with
  | nil => exact carries_pure _ none
  | cons name others inductionHypothesis =>
    refine carries_bind (carries_atRule carries name) fun found => ?_
    cases found with
    | none => exact inductionHypothesis
    | some node =>
      have recorded : Carries change id (record (.readAtRule name node.span.start)) _ :=
        carries_record name node.span.start
      have moved : change.place node.span.start = (change.node node).span.start := by
        rw [change.span_node]
        rfl
      rw [moved] at recorded
      exact carries_bind recorded fun _ => carries_pure _ (some node)

/-! ### Rules -/

theorem carries_rule : Carries change (Option.map change.node) rule rule := by
  refine carries_bind carries_here fun start => ?_
  refine carries_bind (carries_accept _) fun text => ?_
  cases text with
  | none => exact carries_fail _ _
  | some text => exact carries_block _ start carries_plainBlock

theorem carries_ruleOrAtRule (carries : Carries change (List.map change.node) first second) :
    Carries change (Option.map change.node) (ruleOrAtRule first) (ruleOrAtRule second) := by
  refine carries_bind (carries_attempt (carries_firstAtRule carries _)) fun found => ?_
  cases found with
  | some node => exact carries_pure _ (some node)
  | none => exact carries_rule

theorem carries_item (carries : Carries change (List.map change.node) first second) :
    Carries change (Option.map change.node) (item first) (item second) := by
  refine carries_orComment ?_
  refine carries_bind carries_atEnd fun ended => ?_
  refine carries_bind (carries_startsWith _) fun braced => ?_
  cases ended with
  | true => exact carries_pure _ none
  | false =>
    cases braced with
    | true => exact carries_pure _ none
    | false => exact carries_ruleOrAtRule carries

theorem carries_ruleList (carries : Carries change (List.map change.node) first second) :
    Carries change (List.map change.node) (ruleList first) (ruleList second) :=
  carries_bind (carries_accept _) fun _ => carries_collect (carries_item carries)

theorem carries_rulesBelow (bound : Nat) :
    Carries change (List.map change.node) (rulesBelow bound) (rulesBelow bound) := by
  induction bound using Nat.strongRecOn with
  | ind bound inductionHypothesis =>
    rw [rulesBelow_eq]
    refine carries_byLeft fun left => ?_
    split
    · exact carries_ruleList (inductionHypothesis left ‹_›)
    · exact carries_pure _ []

/-- Lists of rules go along with every change. -/
theorem carries_rules : Carries change (List.map change.node) rules rules := by
  rw [rules_eq]
  exact carries_byLeft fun left => carries_ruleList (carries_rulesBelow left)

end Grammar

/-! ### Whole parses -/

theorem sheetOf_outcome (change : Change) (source : Option String)
    (outcome : EStateM.Result Halt State (List Node)) :
    sheetOf (change.name source) (change.outcome (List.map change.node) outcome) =
      change.result (sheetOf source outcome) := by
  cases outcome with
  | ok nodes last =>
    rw [Change.outcome, sheetOf, sheetOf, Change.result, ← change.ofRules_nodes, change.nodes_eq]
    rfl
  | error halt last =>
    cases halt with
    | raised fault => rfl
    | noted =>
      rw [Change.outcome, Change.halt, sheetOf, sheetOf, Change.result, ← change.ofRules_nodes,
        change.nodes_eq]
      rfl

/-! ### The name of the source -/

/-- Gives the source a name, or takes its name away. -/
def Change.naming (source : Option String) : Change where
  place := id
  name _ := source
  step _ _ _ := rfl
  apart _ _ same := same

/-- The stylesheet, its nodes and its faults carry the name of the source. -/
structure Stylesheet.Named (source : Option String) (sheet : Stylesheet) : Prop where
  self : sheet.source = source
  spans : ∀ entry ∈ sheet.nodes, entry.2.span.source = source
  faults : ∀ fault ∈ sheet.faults, fault.source = source

theorem begun_naming (css : String) (mode : Mode) (first second : Option String) :
    begun css ⟨second, mode⟩ = (Change.naming second).state (begun css ⟨first, mode⟩) := rfl

theorem parseWith_naming (css : String) (mode : Mode) (first second : Option String) :
    parseWith css ⟨second, mode⟩ = (Change.naming second).result (parseWith css ⟨first, mode⟩) := by
  have carries : Carries (.naming second) (List.map (Change.naming second).node) rules rules :=
    carries_rules
  have same := carries.same ⟨first, mode⟩ (begun css ⟨first, mode⟩) (Nat.succ_pos 0)
  have options : (Change.naming second).options ⟨first, mode⟩ = ⟨second, mode⟩ := rfl
  rw [options, ← begun_naming] at same
  rw [parseWith_eq, parseWith_eq, same]
  exact sheetOf_outcome (Change.naming second) first _

theorem named_naming (source : Option String) (sheet : Stylesheet) :
    ((Change.naming source).sheet sheet).Named source where
  self := rfl
  spans entry member := by
    have inside := Stylesheet.mem_preorderAll member
    rw [Change.sheet, Change.preorderAll_nodes] at inside
    obtain ⟨node, -, same⟩ := List.mem_map.mp inside
    rw [← same, Change.span_node]
    rfl
  faults fault member := by
    obtain ⟨told, -, rfl⟩ := List.mem_map.mp member
    rfl

/-- A parse under another name ends in the same way and says the same, but for the name. Every span,
every fault and the stylesheet itself carry the name that was given. -/
theorem name_of_parse (css : String) (mode : Mode) (first second : Option String) :
    (parseWith css ⟨second, mode⟩).isOk = (parseWith css ⟨first, mode⟩).isOk ∧
      parseWith css ⟨second, mode⟩ = (Change.naming second).result (parseWith css ⟨first, mode⟩) ∧
      (∀ sheet, parseWith css ⟨first, mode⟩ = .ok sheet → sheet.Named first) ∧
      ∀ fault, parseWith css ⟨first, mode⟩ = .error fault → fault.source = first := by
  have renamed := parseWith_naming css mode first second
  -- giving a parse the name that it has changes nothing, so the name is there already
  have again := parseWith_naming css mode first first
  refine ⟨?_, renamed, fun sheet read => ?_, fun fault failed => ?_⟩
  · rw [renamed]
    cases parseWith css ⟨first, mode⟩ <;> rfl
  · rw [read] at again
    rw [Except.ok.inj again]
    exact named_naming first sheet
  · rw [failed] at again
    rw [Except.error.inj again]
    rfl

/-- A rule in a block, and a selector without a block behind it. -/
def namedSheet (source : Option String) : Stylesheet :=
  .ofRules source
    [.block .host ⟨⟨1, 1⟩, ⟨1, 13⟩, source⟩
      [.block (.rule ["a"]) ⟨⟨1, 7⟩, ⟨1, 12⟩, source⟩
        [.leaf (.declaration "b" "") ⟨⟨1, 9⟩, ⟨1, 11⟩, source⟩]]]
    [⟨.missingOpenBrace .block, source, ⟨1, 14⟩⟩]

theorem name_of_parse_namedSheet :
    parseWith "@host{a{b:}}c" ⟨some "a.css", .tolerant⟩ = .ok (namedSheet (some "a.css")) ∧
      (namedSheet (some "a.css")).Named (some "a.css") ∧
      parseWith "@host{a{b:}}c" ⟨none, .tolerant⟩ = .ok (namedSheet none) ∧
      Fault.source ⟨.missingOpenBrace .block, some "a.css", ⟨1, 14⟩⟩ = some "a.css" := by
  have read : parseWith "@host{a{b:}}c" ⟨some "a.css", .tolerant⟩ =
      .ok (namedSheet (some "a.css")) := by cbv
  have failed : parseWith "@host{a{b:}}c" ⟨some "a.css", .strict⟩ =
      .error ⟨.missingOpenBrace .block, some "a.css", ⟨1, 14⟩⟩ := by cbv
  obtain ⟨-, renamed, named, -⟩ := name_of_parse "@host{a{b:}}c" .tolerant (some "a.css") none
  obtain ⟨-, -, -, told⟩ := name_of_parse "@host{a{b:}}c" .strict (some "a.css") none
  refine ⟨read, named _ read, ?_, told _ failed⟩
  rw [renamed, read]
  rfl

end CssSyntax
