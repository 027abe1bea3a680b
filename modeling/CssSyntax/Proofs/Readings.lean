/-
This file shows that the grammar reads nothing but what is there.

`Reads` says what it means that a node was read from a text at a place: the text has the form of the
node, the span goes from the place before the text to the place behind it, and the children were
read from the text behind the opening brace in turn, with gaps around them. A gap is any text,
because a tolerant parse skips what it gives up. Whenever a parser of the grammar ends with a node,
the node was read in that sense from the text that the parser took.
-/

import CssSyntax.Proofs.Openings
import CssSyntax.Proofs.Runs

namespace CssSyntax

/-! ### Nodes and the texts they were read from -/

mutual

/-- The node was read from the text at the place. -/
inductive Reads (source : Option String) (faults : List Fault) :
    Location → List Char → Node → Prop where
  | leaf {place : Location} {text : List Char} {content : Leaf} (form : content.WrittenAs text) :
      Reads source faults place text (.leaf content ⟨place, place.after text, source⟩)
  | block {place stop : Location} {opening inside closing : List Char} {header : Header}
      {children : List Node} (form : header.WrittenAs opening)
      (body : ReadsAll source faults (place.after (opening ++ ['{'])) inside children)
      (behind : stop = place.after (opening ++ '{' :: inside ++ closing))
      (ending : Closing faults header ⟨place, stop, source⟩ closing) :
      Reads source faults place (opening ++ '{' :: inside ++ closing)
        (.block header ⟨place, stop, source⟩ children)

/-- The nodes were read from the text at the place, one after the other. -/
inductive ReadsAll (source : Option String) (faults : List Fault) :
    Location → List Char → List Node → Prop where
  | nil {place : Location} {gap : List Char} : ReadsAll source faults place gap []
  | cons {place : Location} {gap text rest : List Char} {node : Node} {nodes : List Node}
      (head : Reads source faults (place.after gap) text node)
      (tail : ReadsAll source faults (place.after (gap ++ text)) rest nodes) :
      ReadsAll source faults place (gap ++ text ++ rest) (node :: nodes)

end

variable {source : Option String} {faults more : List Fault}

theorem Closing.mono {header : Header} {span : Span} {closing : List Char}
    (ending : Closing faults header span closing) (kept : faults <+: more) :
    Closing more header span closing := by
  rcases ending with closed | ⟨nothing, plain, told⟩
  · exact .inl closed
  · exact .inr ⟨nothing, plain, kept.subset told⟩

mutual

theorem Reads.mono (kept : faults <+: more) {place : Location} {text : List Char} {node : Node} :
    Reads source faults place text node → Reads source more place text node
  | .leaf form => .leaf form
  | .block form body behind ending => .block form (body.mono kept) behind (ending.mono kept)

theorem ReadsAll.mono (kept : faults <+: more) {place : Location} {text : List Char}
    {nodes : List Node} :
    ReadsAll source faults place text nodes → ReadsAll source more place text nodes
  | .nil => .nil
  | .cons head tail => .cons (head.mono kept) (tail.mono kept)

end

variable {place : Location} {text : List Char} {node : Node} {nodes : List Node}

/-- A gap in front of the first node is a gap like any other. -/
theorem ReadsAll.prepend {gap : List Char}
    (read : ReadsAll source faults (place.after gap) text nodes) :
    ReadsAll source faults place (gap ++ text) nodes := by
  cases read with
  | nil => exact .nil
  | @cons _ lead inner rest node nodes head tail =>
    rw [← List.append_assoc, ← List.append_assoc]
    rw [← Location.after_append] at head tail
    rw [← List.append_assoc] at tail
    exact .cons head tail

theorem Reads.written (read : Reads source faults place text node) :
    node.WrittenAs faults text := by
  cases read with
  | leaf form => exact form
  | block form body behind ending => exact ⟨_, _, _, rfl, form, ending⟩

theorem Reads.span_eq (read : Reads source faults place text node) :
    node.span = ⟨place, place.after text, source⟩ := by
  cases read with
  | leaf form => rfl
  | block form body behind ending => rw [behind]; rfl

theorem Leaf.WrittenAs.ne_nil {content : Leaf} (form : content.WrittenAs text) : text ≠ [] := by
  rintro rfl
  cases content with
  | comment body => exact absurd form.1 (by simp [commentOpener])
  | declaration property value =>
    obtain ⟨name, gap, lead, tail, parts, -⟩ := form
    simp at parts
  | importRule | charset | namespaceRule =>
    obtain ⟨inner, parts, -⟩ := form
    simp at parts
  | customMedia name query =>
    obtain ⟨gap, inner, parts, -⟩ := form
    simp at parts

theorem Reads.ne_nil (read : Reads source faults place text node) : text ≠ [] := by
  cases read with
  | leaf form => exact form.ne_nil
  | block => simp

/-- More text behind the last node changes nothing. -/
theorem ReadsAll.append (read : ReadsAll source faults place text nodes) (behind : List Char) :
    ReadsAll source faults place (text ++ behind) nodes := by
  induction nodes generalizing place text with
  | nil => exact .nil
  | cons node nodes inductionHypothesis =>
    cases read with
    | cons head tail =>
      rw [List.append_assoc]
      exact .cons head (inductionHypothesis tail)

/-! ### Nodes inside nodes -/

/-- The node was read from a part of the text. -/
def Inside (source : Option String) (faults : List Fault) (place : Location) (text : List Char)
    (node : Node) : Prop :=
  ∃ before part after, text = before ++ part ++ after ∧
    Reads source faults (place.after before) part node

theorem Inside.of_part {before part : List Char} (after : List Char)
    (inside : Inside source faults (place.after before) part node) :
    Inside source faults place (before ++ part ++ after) node := by
  obtain ⟨former, inner, latter, rfl, read⟩ := inside
  refine ⟨before ++ former, inner, latter ++ after, ?_, ?_⟩
  · simp only [List.append_assoc]
  · rwa [Location.after_append]

theorem ReadsAll.inside (read : ReadsAll source faults place text nodes) :
    ∀ node ∈ nodes, Inside source faults place text node := by
  induction nodes generalizing place text with
  | nil => exact fun node absurdity => absurd absurdity List.not_mem_nil
  | cons first others inductionHypothesis =>
    cases read with
    | @cons _ gap part rest _ _ head tail =>
      intro node member
      rcases List.mem_cons.mp member with rfl | member
      · exact ⟨gap, part, rest, rfl, head⟩
      · have later := (inductionHypothesis tail node member).of_part []
        rwa [List.append_nil] at later

mutual

theorem Reads.inside_preorder {place : Location} {text : List Char} {node : Node}
    (read : Reads source faults place text node) :
    ∀ inner ∈ node.preorder, Inside source faults place text inner := by
  cases read with
  | leaf form =>
    intro inner member
    obtain rfl := List.mem_singleton.mp member
    exact ⟨[], text, [], by simp, .leaf form⟩
  | @block _ _ opening inside closing _ _ form body behind ending =>
    intro inner member
    rcases List.mem_cons.mp member with rfl | member
    · exact ⟨[], _, [], by simp, .block form body behind ending⟩
    · have below := (body.inside_preorderAll inner member).of_part closing
      simpa using below

theorem ReadsAll.inside_preorderAll {place : Location} {text : List Char} {nodes : List Node}
    (read : ReadsAll source faults place text nodes) :
    ∀ inner ∈ Node.preorderAll nodes, Inside source faults place text inner := by
  cases read with
  | nil => exact fun inner absurdity => absurd absurdity List.not_mem_nil
  | @cons _ gap part rest _ _ head tail =>
    intro inner member
    rcases List.mem_append.mp member with first | later
    · exact (head.inside_preorder inner first).of_part rest
    · have below := (tail.inside_preorderAll inner later).of_part []
      rwa [List.append_nil] at below

end

/-! ### What a parser takes -/

namespace Grammar

open Pattern

variable {α β : Type} {options : Options} {state later last : State}

/-- The later state is reached by taking the text, and no fault is lost on the way. -/
structure State.Took (state : State) (text : List Char) (last : State) : Prop where
  rest : state.cursor.rest = text ++ last.cursor.rest
  place : last.cursor.location = state.cursor.location.after text
  faults : state.faults <+: last.faults

namespace State.Took

theorem refl (state : State) : state.Took [] state := ⟨rfl, rfl, List.prefix_rfl⟩

theorem trans {first second : List Char} (former : state.Took first later)
    (latter : later.Took second last) : state.Took (first ++ second) last where
  rest := by rw [former.rest, latter.rest, List.append_assoc]
  place := by rw [latter.place, former.place, Location.after_append]
  faults := former.faults.trans latter.faults

theorem past {pattern : Pattern α} {found : Match α}
    (present : pattern.read state.cursor.rest = some found) :
    state.Took found.taken (state.past found) :=
  ⟨(pattern.taken_append_rest present).symm, rfl, List.prefix_rfl⟩

theorem recording (event : Event) : state.Took [] (state.recording event) :=
  ⟨rfl, rfl, List.prefix_rfl⟩

theorem of_forward {parser : Parser α} (forward : Forward α parser) {value : α}
    (run : parser options state = .ok value last) : ∃ text, state.Took text last := by
  have start := forward options state
  rw [run] at start
  obtain ⟨text, rest, location⟩ := start.text
  exact ⟨text, rest, location, start.faults⟩

theorem of_forward_error {parser : Parser α} (forward : Forward α parser) {halt : Halt}
    (run : parser options state = .error halt last) : ∃ text, state.Took text last := by
  have start := forward options state
  rw [run] at start
  obtain ⟨text, rest, location⟩ := start.text
  exact ⟨text, rest, location, start.faults⟩

theorem left_le {text : List Char} (took : state.Took text last) : last.left ≤ state.left := by
  rw [State.left, State.left, Cursor.left, Cursor.left, took.rest, List.length_append]
  exact Nat.le_add_left _ _

end State.Took

/-- What may be absent takes nothing where it is. -/
theorem taken_of_accept {pattern : Pattern α} {found : Option α}
    (run : accept pattern options state = .ok found last) :
    ∃ text, (optional pattern).Takes found text last.cursor.rest ∧ state.Took text last := by
  cases present : pattern.read state.cursor.rest with
  | none =>
    rw [accept_none present] at run
    cases run
    exact ⟨[], takes_optional.mpr (.inr ⟨rfl, rfl, present⟩), .refl state⟩
  | some found =>
    rw [accept_some present] at run
    cases run
    exact ⟨_, takes_optional.mpr (.inl ⟨_, rfl, takes_of_read present⟩), .past present⟩

theorem State.PassesOver.took {accepted : Char → Bool} (passed : state.PassesOver accepted last) :
    ∃ gap, state.Took gap last ∧ (∀ character ∈ gap, accepted character = true) ∧
      StopsAt accepted last.cursor.rest := by
  obtain ⟨found, present, rfl⟩ := passed
  obtain ⟨-, skipped, stops⟩ := takes_run.mp (takes_of_read present)
  exact ⟨found.taken, .past present, skipped, stops⟩

/-- Between the two states the node was read, behind some text and in front of some text. -/
def Between (options : Options) (state last : State) (node : Node) : Prop :=
  ∃ lead text gap, state.Took (lead ++ text ++ gap) last ∧
    Reads options.source last.faults (state.cursor.location.after lead) text node

/-- Between the two states the nodes were read. -/
def BetweenAll (options : Options) (state last : State) (nodes : List Node) : Prop :=
  ∃ text, state.Took text last ∧
    ReadsAll options.source last.faults state.cursor.location text nodes

/-- Whatever node the parser ends with was read. -/
def ReadsNode (parser : Parser (Option Node)) : Prop :=
  ∀ options state node last, parser options state = .ok (some node) last →
    Between options state last node

/-- Whatever nodes the parser ends with were read. -/
def ReadsNodes (parser : Parser (List Node)) : Prop :=
  ∀ options state nodes last, parser options state = .ok nodes last →
    BetweenAll options state last nodes

theorem Between.of_took {former : List Char} (took : state.Took former later)
    (between : Between options later last node) : Between options state last node := by
  obtain ⟨lead, text, gap, latter, read⟩ := between
  refine ⟨former ++ lead, text, gap, ?_, ?_⟩
  · simpa only [List.append_assoc] using took.trans latter
  · rwa [Location.after_append, ← took.place]

theorem Between.to_took {latter : List Char} (between : Between options state later node)
    (took : later.Took latter last) : Between options state last node := by
  obtain ⟨lead, text, gap, former, read⟩ := between
  refine ⟨lead, text, gap ++ latter, ?_, read.mono took.faults⟩
  simpa only [List.append_assoc] using former.trans took

theorem BetweenAll.of_took {former : List Char} (took : state.Took former later)
    (between : BetweenAll options later last nodes) : BetweenAll options state last nodes := by
  obtain ⟨text, latter, read⟩ := between
  refine ⟨former ++ text, took.trans latter, ?_⟩
  rw [took.place] at read
  exact read.prepend

theorem BetweenAll.nil (took : state.Took text last) : BetweenAll options state last [] :=
  ⟨text, took, .nil⟩

theorem BetweenAll.cons (head : Between options state later node)
    (tail : BetweenAll options later last nodes) :
    BetweenAll options state last (node :: nodes) := by
  obtain ⟨lead, text, gap, former, read⟩ := head
  obtain ⟨rest, latter, reads⟩ := tail
  refine ⟨lead ++ text ++ (gap ++ rest), ?_, .cons (read.mono latter.faults) ?_⟩
  · simpa only [List.append_assoc] using former.trans latter
  · rw [former.place, Location.after_append] at reads
    exact reads.prepend

/-! ### Lists -/

theorem readsNodes_collect {item : Parser (Option Node)} (forward : Forward (Option Node) item)
    (reads : ReadsNode item) : ReadsNodes (collect item) := by
  intro options state
  fun_induction collect item options state with
  | case1 state later outcome =>
    rintro nodes last ⟨⟩
    obtain ⟨text, took⟩ := State.Took.of_forward forward outcome
    exact .nil took
  | case2 state later outcome =>
    rintro nodes last ⟨⟩
    obtain ⟨text, took⟩ := State.Took.of_forward_error forward outcome
    exact .nil took
  | case3 => rintro nodes last ⟨⟩
  | case4 state node later outcome less nodes' last' rest inductionHypothesis =>
    rintro nodes last ⟨⟩
    exact .cons (reads _ _ _ _ outcome) (inductionHypothesis _ _ rest)
  | case5 => rintro nodes last ⟨⟩
  | case6 state node later outcome more =>
    rintro nodes last ⟨⟩
    exact .cons (reads _ _ _ _ outcome) (.nil (.refl later))

/-! ### Leaves -/

/-- A leaf was read where its text stood between the cursor and the end of the span. -/
theorem between_leaf {content : Leaf} {text : List Char} (form : content.WrittenAs text)
    (took : state.Took text later) {gap : List Char} (behind : later.Took gap last) :
    Between options state last
      (.leaf content ⟨state.cursor.location, later.cursor.location, options.source⟩) := by
  refine ⟨[], text, gap, took.trans behind, ?_⟩
  rw [took.place]
  exact .leaf form

theorem readsNode_comment : ReadsNode comment := by
  intro options state node last run
  obtain ⟨body, present, passed, rfl⟩ := found_of_comment run
  obtain ⟨gap, behind, -, -⟩ := passed.took
  exact between_leaf (commentForm_of_takes (takes_of_read present)) (.past present) behind

theorem readsNode_statement {opening : Pattern Leaf}
    (forms : ∀ content text rest, opening.Takes content text rest → content.WrittenAs text) :
    ReadsNode (statement opening) := by
  intro options state node last run
  obtain ⟨found, present, passed, rfl⟩ := found_of_statement run
  obtain ⟨gap, behind, -, -⟩ := passed.took
  exact between_leaf (forms _ _ _ (takes_of_read present)) (.past present) behind

theorem readsNode_declaration : ReadsNode declaration := by
  intro options state node last run
  obtain ⟨property, mark, value, later, middle, named, marked, found, passed, ended, rfl⟩ :=
    found_of_declaration run
  have start := (State.Took.past named).trans (.past marked)
  obtain ⟨tail, valued, took⟩ := taken_of_accept found
  obtain ⟨behind, blanks, -, -⟩ := passed.took
  obtain ⟨others, semicolons, -, -⟩ := ended.took
  have form := declarationForm_of_takes (takes_of_read named) (takes_of_read marked) valued
  exact between_leaf form (start.trans took) (blanks.trans semicolons)

theorem readsNode_orComment {item : Parser (Option Node)} (reads : ReadsNode item) :
    ReadsNode (orComment item) := by
  intro options state node last run
  rcases found_of_orComment run with comment | ⟨-, run⟩
  · exact readsNode_comment _ _ _ _ comment
  · exact reads _ _ _ _ run

theorem readsNodes_declarations : ReadsNodes declarations :=
  readsNodes_collect (closed_forward.orComment closed_forward.declaration)
    (readsNode_orComment readsNode_declaration)

/-! ### Blocks -/

theorem left_past_openBrace {found : Match (List Char)}
    (opened : openBrace.read state.cursor.rest = some found) :
    (state.past found).left < state.left := by
  obtain ⟨-, gap, parts, -, -⟩ := takes_mark.mp (takes_of_read opened)
  have start := (State.Took.past opened).rest
  rw [State.left, State.left, Cursor.left, Cursor.left, start, parts]
  simp only [List.length_append, List.length_cons]
  omega

/-- Between the two states a block was read: its children, and what ends it. -/
def BlockBetween (options : Options) (state last : State) (closing : List Char)
    (children : List Node) : Prop :=
  ∃ inside, state.Took ('{' :: inside ++ closing) last ∧
    ReadsAll options.source last.faults (state.cursor.location.after ['{']) inside children

theorem blockBetween_of_body {found : Match (List Char)} {closing : List Char}
    (opened : openBrace.read state.cursor.rest = some found)
    (body : BetweenAll options (state.past found) later nodes) (ended : later.Took closing last) :
    BlockBetween options state last closing nodes := by
  obtain ⟨-, gap, brace, -, -⟩ := takes_mark.mp (takes_of_read opened)
  obtain ⟨text, took, read⟩ := body
  have start := State.Took.past opened
  rw [start.place, brace] at read
  rw [brace] at start
  have whole : ReadsAll options.source later.faults (state.cursor.location.after ['{'])
      (gap ++ text) nodes := ReadsAll.prepend read
  exact ⟨gap ++ text, (start.trans took).trans ended, whole.mono ended.faults⟩

theorem took_of_closeBrace {found : Match (List Char)}
    (closed : closeBrace.read state.cursor.rest = some found) :
    state.Took ['}'] (state.past found) := by
  have took := State.Took.past closed
  rwa [(takes_exactly.mp (takes_of_read closed)).2] at took

theorem blockBetween_of_atBlock {name : AtKeyword} {body : Parser (List Node)}
    (reads : ReadsNodes body) (run : atBlock name body options state = .ok nodes last) :
    BlockBetween options state last ['}'] nodes := by
  obtain ⟨found, later, brace, opened, inner, closed, rfl⟩ := ok_of_atBlock run
  exact blockBetween_of_body opened (reads _ _ _ _ inner) (took_of_closeBrace closed)

/-- The block of a rule or of a keyframe ends with its brace, or the missing brace was told where
the block ends. -/
theorem blockBetween_of_plainBlock (run : plainBlock options state = .ok nodes last) :
    ∃ closing, BlockBetween options state last closing nodes ∧
      ∀ (header : Header) (start : Location), header.isPlain = true →
        Closing last.faults header ⟨start, last.cursor.location, options.source⟩ closing := by
  obtain ⟨found, later, opened, inner, ending⟩ := ok_of_plainBlock run
  have body := readsNodes_declarations _ _ _ _ inner
  rcases ending with ⟨brace, closed, rfl⟩ | ⟨-, reported⟩
  · refine ⟨['}'], ?_, fun _ _ _ => .inl rfl⟩
    exact blockBetween_of_body opened body (took_of_closeBrace closed)
  · obtain rfl := ok_of_report reported
    refine ⟨[], blockBetween_of_body opened body ⟨rfl, rfl, List.prefix_append _ _⟩, ?_⟩
    intro header start plain
    exact .inr ⟨rfl, plain, List.mem_append_right _ List.mem_cons_self⟩

theorem between_block {header : Header} {start middle : State} {opening closing gap : List Char}
    (form : header.WrittenAs opening) (opened : start.Took opening middle)
    (block : BlockBetween options middle later closing nodes) (behind : later.Took gap last)
    (ending : Closing later.faults header
      ⟨start.cursor.location, later.cursor.location, options.source⟩ closing) :
    Between options start last
      (.block header ⟨start.cursor.location, later.cursor.location, options.source⟩ nodes) := by
  obtain ⟨inside, took, read⟩ := block
  refine ⟨[], opening ++ '{' :: inside ++ closing, gap, ?_, ?_⟩
  · simpa using (opened.trans took).trans behind
  · refine .block form ?_ ?_ ?_
    · rw [opened.place, ← Location.after_append] at read
      exact read.mono behind.faults
    · rw [took.place, opened.place, ← Location.after_append, List.append_assoc]
      rfl
    · exact ending.mono behind.faults

/-! ### At-rules -/

theorem readsNode_keyframe : ReadsNode keyframe := by
  intro options state node last run
  obtain ⟨found, present, children, later, body, passed, rfl⟩ := found_of_keyframe run
  obtain ⟨gap, behind, -, -⟩ := passed.took
  obtain ⟨closing, block, ending⟩ := blockBetween_of_plainBlock body
  have form := keyframeForm_of_takes (takes_of_read present)
  exact between_block form (.past present) block behind (ending _ _ rfl)

theorem readsNode_keyframes : ReadsNode keyframes := by
  intro options state node last run
  obtain ⟨vendor, name, vendored, named, children, later, body, passed, rfl⟩ :=
    found_of_keyframes run
  obtain ⟨behind, blanks, -, -⟩ := passed.took
  have list := readsNodes_collect (closed_forward.orComment closed_forward.keyframe)
    (readsNode_orComment readsNode_keyframe)
  have opened := (State.Took.past vendored).trans (.past named)
  have form := keyframesForm_of_takes (takes_of_read vendored) (takes_of_read named)
  exact between_block form opened (blockBetween_of_atBlock list body) blanks (.inl rfl)

theorem readsNode_conditional {name : AtKeyword} {opening : Pattern Header}
    {body : Parser (List Node)}
    (forms : ∀ header text rest, opening.Takes header text rest → header.WrittenAs text)
    (reads : ReadsNodes body) : ReadsNode (conditional name opening body) := by
  intro options state node last run
  obtain ⟨found, present, children, later, block, passed, rfl⟩ := found_of_conditional run
  obtain ⟨gap, behind, -, -⟩ := passed.took
  exact between_block (forms _ _ _ (takes_of_read present)) (.past present)
    (blockBetween_of_atBlock reads block) behind (.inl rfl)

variable {nested : Parser (List Node)}

theorem readsNode_atRule (reads : ReadsNodes nested) (name : AtKeyword) :
    ReadsNode (atRule nested name) := by
  cases name with
  | keyframes => exact readsNode_keyframes
  | media | supports =>
    refine readsNode_conditional (fun header text rest takes => ?_) reads
    obtain ⟨query, rfl, taken⟩ := takes_map.mp takes
    exact (takes_condition.mp taken).1
  | customMedia =>
    refine readsNode_statement fun content text rest takes => ?_
    obtain ⟨word, query, rfl, written⟩ := customMediaForm_of_takes takes
    exact written
  | importRule | charset | namespaceRule =>
    refine readsNode_statement fun content text rest takes => ?_
    obtain ⟨target, rfl, taken⟩ := takes_map.mp takes
    exact takes_payload.mp taken
  | document => exact readsNode_conditional (fun _ _ _ => documentForm_of_takes) reads
  | page => exact readsNode_conditional (fun _ _ _ => pageForm_of_takes) readsNodes_declarations
  | host =>
    refine readsNode_conditional (fun header text rest takes => ?_) reads
    obtain ⟨word, rfl, taken⟩ := takes_map.mp takes
    exact (takes_bare.mp taken).2.1
  | fontFace =>
    refine readsNode_conditional (fun header text rest takes => ?_) readsNodes_declarations
    obtain ⟨word, rfl, taken⟩ := takes_map.mp takes
    exact (takes_bare.mp taken).2.1

theorem readsNode_firstAtRule (reads : ReadsNodes nested) (names : List AtKeyword) :
    ReadsNode (firstAtRule nested names) := by
  intro options state node last run
  obtain ⟨-, name, -, later, -, -, found, rfl⟩ := found_of_firstAtRule run
  exact (readsNode_atRule reads name _ _ _ _ found).to_took (.recording _)

/-! ### Rules -/

theorem readsNode_rule : ReadsNode rule := by
  intro options state node last run
  obtain ⟨found, present, children, later, body, passed, rfl⟩ := found_of_rule run
  obtain ⟨gap, behind, -, -⟩ := passed.took
  obtain ⟨closing, block, ending⟩ := blockBetween_of_plainBlock body
  have form := ruleForm_of_takes (takes_of_read present)
  exact between_block form (.past present) block behind (ending _ _ rfl)

theorem readsNode_ruleOrAtRule (forward : Forward (List Node) nested)
    (reads : ReadsNodes nested) : ReadsNode (ruleOrAtRule nested) := by
  intro options state node last run
  rcases found_of_ruleOrAtRule run with run | ⟨later, tried, run⟩
  · exact readsNode_firstAtRule reads _ _ _ _ _ run
  · obtain ⟨text, took⟩ :=
      State.Took.of_forward (closed_forward.attempt (closed_forward.firstAtRule forward _)) tried
    exact (readsNode_rule _ _ _ _ run).of_took took

theorem readsNode_item (forward : Forward (List Node) nested) (reads : ReadsNodes nested) :
    ReadsNode (item nested) := by
  intro options state node last run
  rcases found_of_item run with comment | ⟨-, -, run⟩
  · exact readsNode_comment _ _ _ _ comment
  · exact readsNode_ruleOrAtRule forward reads _ _ _ _ run

theorem readsNodes_ruleList (forward : Forward (List Node) nested) (reads : ReadsNodes nested) :
    ReadsNodes (ruleList nested) := by
  intro options state nodes last run
  obtain ⟨later, passed, run⟩ := ok_of_ruleList run
  obtain ⟨text, took, -, -⟩ := passed.took
  have list := readsNodes_collect (closed_forward.item forward) (readsNode_item forward reads)
  exact (list _ _ _ _ run).of_took took

theorem readsNodes_rulesBelow (bound : Nat) : ReadsNodes (rulesBelow bound) := by
  induction bound using Nat.strongRecOn with
  | ind bound inductionHypothesis =>
    intro options state nodes last run
    rw [rulesBelow_eq, byLeft] at run
    split at run
    · rename_i less
      have nested := closed_forward.rulesBelow state.left
      exact readsNodes_ruleList nested (inductionHypothesis _ less) _ _ _ _ run
    · obtain ⟨⟩ := run
      exact .nil (.refl state)

/-- Whatever list of rules the grammar ends with was read from the text it took. -/
theorem readsNodes_rules : ReadsNodes rules := by
  intro options state nodes last run
  rw [rules_eq, byLeft] at run
  have nested := closed_forward.rulesBelow state.left
  exact readsNodes_ruleList nested (readsNodes_rulesBelow _) _ _ _ _ run

end Grammar

end CssSyntax
