/-
This file puts parsers under contract.

`Gives` is the contract of a parser on one text: from every state with that text ahead, whatever the
choices of the caller, it ends with a value of a certain kind in front of a certain rest and notes
no fault. The contracts of the steps are put together to those of the constructs. What a construct
needs of the text ahead is said by what its patterns take there.
-/

import CssSyntax.Proofs.Recognition
import CssSyntax.Proofs.Steps

namespace CssSyntax

/-! ### Lists of each kind -/

/-- A list is over at the end of the text and at a closing brace. -/
def EndsList (text : List Char) : Prop := text = [] ∨ ['}'] <+: text

namespace Room

open Grammar

/-- Reads one item of such a list. Blocks inside it begin where less text than the bound is left. -/
def item (bound : Nat) : Room → Parser (Option Node)
  | .rules => Grammar.item (rulesBelow bound)
  | .keyframes => orComment keyframe
  | .declarations => orComment declaration

/-- Reads such a list in a block that begins where less text than the bound is left. -/
def list (bound : Nat) : Room → Parser (List Node)
  | .rules => rulesBelow bound
  | .keyframes => collect (orComment keyframe)
  | .declarations => Grammar.declarations

/-- What is passed over behind an item of such a list. -/
def skips : Room → Char → Bool
  | .rules | .keyframes => isBlank
  | .declarations => fun character => character == ';' || isBlank character

/-- What is passed over behind a node of the kind in such a list. -/
def skipsBehind (room : Room) (kind : Kind) : Char → Bool :=
  if kind = .declaration then room.skips else isBlank

/-- In a list of rules only blanks are passed over. -/
theorem skipsBehind_rules (kind : Kind) : Room.rules.skipsBehind kind = isBlank := ite_self _

theorem stopsAt_isBlank {room : Room} {text : List Char} (stops : StopsAt room.skips text) :
    StopsAt isBlank text := by
  cases text with
  | nil => exact trivial
  | cons first rest =>
    cases room with
    | rules | keyframes => exact stops
    | declarations => exact (Bool.or_eq_false_iff.mp stops).2

end Room

namespace Grammar

open Pattern

variable {α β : Type}

/-! ### Contracts on one text -/

/-- With the input ahead, the parser ends in front of the rest with a value that was asked for, and
it notes no fault. -/
def Gives (parser : Parser α) (input : List Char) (asked : α → Prop) (rest : List Char) : Prop :=
  ∀ options state, state.cursor.rest = input → ∃ value last, parser options state = .ok value last ∧
    asked value ∧ last.cursor.rest = rest ∧ last.faults = state.faults

namespace Gives

variable {input middle rest : List Char} {asked : α → Prop}

theorem pure {value : α} (good : asked value) : Gives (pure value) input asked input :=
  fun _ state ahead => ⟨value, state, rfl, good, ahead, rfl⟩

theorem bind {first : Parser β} {next : β → Parser α} {between : β → Prop}
    (former : Gives first input between middle)
    (latter : ∀ value, between value → Gives (next value) middle asked rest) :
    Gives (first >>= next) input asked rest := by
  intro options state ahead
  obtain ⟨found, later, run, good, left, kept⟩ := former options state ahead
  obtain ⟨value, last, ending, answer, behind, still⟩ := latter found good options later left
  refine ⟨value, last, ?_, answer, behind, still.trans kept⟩
  rw [bind_run, run]
  exact ending

theorem here {next : Location → Parser α} (gives : ∀ place, Gives (next place) input asked rest) :
    Gives (here >>= next) input asked rest := by
  intro options state ahead
  rw [here_bind]
  exact gives _ options state ahead

theorem startsWith {word : List Char} {next : Bool → Parser α}
    (gives : Gives (next (word.isPrefixOf input)) input asked rest) :
    Gives (startsWith word >>= next) input asked rest := by
  intro options state ahead
  rw [startsWith_bind, Cursor.startsWith, ahead]
  exact gives options state ahead

theorem accept {pattern : Pattern β} {value : β} {text : List Char} {next : Option β → Parser α}
    (takes : pattern.Takes value text middle)
    (gives : Gives (next (some value)) middle asked rest) :
    Gives (Grammar.accept pattern >>= next) (text ++ middle) asked rest := by
  intro options state ahead
  unfold Takes at takes
  rw [← ahead] at takes
  rw [accept_bind_some takes]
  exact gives options _ rfl

theorem accept_none {pattern : Pattern β} {next : Option β → Parser α}
    (absent : pattern.read input = none) (gives : Gives (next none) input asked rest) :
    Gives (Grammar.accept pattern >>= next) input asked rest := by
  intro options state ahead
  rw [← ahead] at absent
  rw [accept_bind_none absent]
  exact gives options state ahead

theorem spanFrom {start : Location} {gap : List Char} {next : Span → Parser α}
    (blank : AllBlank gap) (stops : StopsAt isBlank middle)
    (gives : ∀ span, Gives (next span) middle asked rest) :
    Gives (Grammar.spanFrom start >>= next) (gap ++ middle) asked rest := by
  intro options state ahead
  have skips : Pattern.blanks.Takes gap gap middle := takes_run.mpr ⟨rfl, blank, stops⟩
  rw [spanFrom_bind]
  exact accept skips (gives _) options state ahead

theorem atEnd {next : Bool → Parser α} (gives : Gives (next input.isEmpty) input asked rest) :
    Gives (Grammar.atEnd >>= next) input asked rest := by
  intro options state ahead
  have steps : (Grammar.atEnd >>= next) options state =
      next state.cursor.rest.isEmpty options state := rfl
  rw [steps, ahead]
  exact gives options state ahead

theorem attempt {parser : Parser (Option β)} {wanted : Option β → Prop}
    (gives : Gives parser input wanted rest) : Gives (attempt parser) input wanted rest := by
  intro options state ahead
  obtain ⟨value, last, run, good, behind, kept⟩ := gives options state ahead
  refine ⟨value, last, ?_, good, behind, kept⟩
  rw [Grammar.attempt, run]

theorem record {event : Event} {next : Unit → Parser α} (gives : Gives (next ()) input asked rest) :
    Gives (record event >>= next) input asked rest := by
  intro options state ahead
  exact gives options { state with events := state.events ++ [event] } ahead

/-! ### Lists -/

theorem collect_nil {item : Parser (Option β)} {wanted : List β → Prop} (nothing : wanted [])
    (gives : Gives item input (fun found => found = none) rest) :
    Gives (collect item) input wanted rest := by
  intro options state ahead
  obtain ⟨value, last, run, rfl, behind, kept⟩ := gives options state ahead
  refine ⟨[], last, ?_, nothing, behind, kept⟩
  rw [collect_eq, run]
  rfl

theorem collect_cons {item : Parser (Option β)} {first : β → Prop} {others wanted : List β → Prop}
    (gives : Gives item input (fun found => ∃ value, found = some value ∧ first value) middle)
    (less : middle.length < input.length) (later : Gives (collect item) middle others rest)
    (both : ∀ value values, first value → others values → wanted (value :: values)) :
    Gives (collect item) input wanted rest := by
  intro options state ahead
  obtain ⟨found, middleState, run, ⟨value, rfl, good⟩, left, kept⟩ := gives options state ahead
  obtain ⟨values, last, ending, answer, behind, still⟩ := later options middleState left
  refine ⟨value :: values, last, ?_, both value values good answer, behind, still.trans kept⟩
  have shorter : middleState.left < state.left := by
    rwa [State.left, State.left, Cursor.left, Cursor.left, left, ahead]
  rw [collect_eq, run]
  simp only [goOn, if_pos shorter, ending]

end Gives

/-! ### Leaves -/

/-- A node was found, and it is the tree. -/
def Found (tree : Tree) (found : Option Node) : Prop := ∃ node, found = some node ∧ node.tree = tree

/-- The nodes are the trees. -/
def AllFound (trees : List Tree) (nodes : List Node) : Prop := Node.trees nodes = trees

theorem gives_comment {body text gap rest : List Char}
    (takes : commentBody.Takes body text (gap ++ rest)) (blank : AllBlank gap)
    (stops : StopsAt isBlank rest) :
    Gives comment (text ++ (gap ++ rest)) (Found (.leaf (.comment (String.ofList body)))) rest := by
  have opened : commentOpener.isPrefixOf (text ++ (gap ++ rest)) = true := by
    rw [(takes_commentBody.mp takes).1, List.append_assoc, List.append_assoc]
    exact List.isPrefixOf_iff_prefix.mpr (List.prefix_append _ _)
  refine .here fun start => .startsWith ?_
  rw [if_pos opened]
  exact .accept takes (.spanFrom blank stops fun span => .pure ⟨_, rfl, rfl⟩)

theorem gives_comment_none {input : List Char} (absent : ¬ commentOpener <+: input) :
    Gives comment input (fun found => found = none) input := by
  refine .here fun start => .startsWith ?_
  rw [if_neg fun opened => absent (List.isPrefixOf_iff_prefix.mp opened)]
  exact .pure rfl

theorem gives_orComment_comment {item : Parser (Option Node)} {body text gap rest : List Char}
    (takes : commentBody.Takes body text (gap ++ rest)) (blank : AllBlank gap)
    (stops : StopsAt isBlank rest) :
    Gives (orComment item) (text ++ (gap ++ rest))
      (Found (.leaf (.comment (String.ofList body)))) rest := by
  refine .bind (gives_comment takes blank stops) fun found present => ?_
  obtain ⟨node, rfl, same⟩ := present
  exact .pure ⟨node, rfl, same⟩

theorem gives_orComment {item : Parser (Option Node)} {input rest : List Char}
    {asked : Option Node → Prop} (absent : ¬ commentOpener <+: input)
    (gives : Gives item input asked rest) : Gives (orComment item) input asked rest := by
  refine .bind (gives_comment_none absent) fun found nothing => ?_
  rw [nothing]
  exact gives

theorem gives_declaration {property former sign mark latter gap rest : List Char}
    {value : Option (List Char)}
    (named : propertyName.Takes property former (mark ++ (latter ++ (gap ++ rest))))
    (marked : colon.Takes sign mark (latter ++ (gap ++ rest)))
    (valued : (optional declarationValue).Takes value latter (gap ++ rest))
    (skipped : ∀ character ∈ gap, Room.declarations.skips character = true)
    (stops : StopsAt Room.declarations.skips rest) :
    Gives declaration (former ++ (mark ++ (latter ++ (gap ++ rest))))
      (Found (.leaf (.declaration (uncommented property) (uncommented (trim (value.getD []))))))
      rest := by
  have unblank : StopsAt isBlank (gap.dropWhile isBlank ++ rest) := by
    have begins := stopsAt_dropWhile isBlank gap
    cases tail : gap.dropWhile isBlank with
    | nil => exact Room.stopsAt_isBlank stops
    | cons first others =>
      rw [tail] at begins
      exact begins
  have semicolon : semicolons.Takes (gap.dropWhile isBlank) (gap.dropWhile isBlank) rest := by
    refine takes_run.mpr ⟨rfl, fun character member => skipped character ?_, stops⟩
    exact (List.dropWhile_sublist _).subset member
  refine .here fun start => .accept named (.accept marked ?_)
  have whole : gap ++ rest = gap.takeWhile isBlank ++ (gap.dropWhile isBlank ++ rest) := by
    rw [← List.append_assoc, List.takeWhile_append_dropWhile]
  have blank : AllBlank (gap.takeWhile isBlank) := fun character => accepted_of_mem_takeWhile
  rcases takes_optional.mp valued with ⟨found, rfl, present⟩ | ⟨rfl, rfl, absent⟩
  · refine .accept present ?_
    rw [whole]
    exact .spanFrom blank unblank fun span => .accept semicolon (.pure ⟨_, rfl, rfl⟩)
  · refine .accept_none absent ?_
    rw [List.nil_append, whole]
    exact .spanFrom blank unblank fun span => .accept semicolon (.pure ⟨_, rfl, rfl⟩)

/-! ### Blocks -/

/-- In front of a closing brace, the parser reads the trees from the text, behind some blanks. -/
def GivesBody (body : Parser (List Node)) (trees : List Tree) (inside rest : List Char) : Prop :=
  ∃ gap text, inside = gap ++ text ∧ AllBlank gap ∧ StopsAt isBlank (text ++ '}' :: rest) ∧
    Gives body (text ++ '}' :: rest) (AllFound trees) ('}' :: rest)

theorem takes_openBrace {gap rest : List Char} (blank : AllBlank gap)
    (stops : StopsAt isBlank rest) : openBrace.Takes ['{'] ('{' :: gap) rest :=
  takes_mark.mpr ⟨rfl, gap, rfl, blank, stops⟩

theorem takes_closeBrace (rest : List Char) : closeBrace.Takes ['}'] ['}'] rest :=
  takes_exactly.mpr ⟨rfl, rfl⟩

theorem gives_atBlock {name : AtKeyword} {body : Parser (List Node)} {trees : List Tree}
    {inside rest : List Char} (list : GivesBody body trees inside rest) :
    Gives (atBlock name body) ('{' :: inside ++ '}' :: rest) (AllFound trees) rest := by
  obtain ⟨gap, text, rfl, blank, stops, gives⟩ := list
  have parts : '{' :: (gap ++ text) ++ '}' :: rest = '{' :: gap ++ (text ++ '}' :: rest) := by simp
  rw [parts]
  refine .accept (takes_openBrace blank stops) (.bind gives fun children found => ?_)
  exact .accept (takes_closeBrace rest) (.pure found)

theorem gives_plainBlock {trees : List Tree} {inside rest : List Char}
    (list : GivesBody declarations trees inside rest) :
    Gives plainBlock ('{' :: inside ++ '}' :: rest) (AllFound trees) rest := by
  obtain ⟨gap, text, rfl, blank, stops, gives⟩ := list
  have parts : '{' :: (gap ++ text) ++ '}' :: rest = '{' :: gap ++ (text ++ '}' :: rest) := by simp
  rw [parts]
  refine .accept (takes_openBrace blank stops) (.bind gives fun children found => ?_)
  refine .accept (takes_closeBrace rest) ?_
  show Gives (pure children) rest _ rest
  exact .pure found

/-! ### At-rules -/

variable {nested : Parser (List Node)} {gap inside rest text : List Char} {trees : List Tree}

theorem gives_statement {opening : Pattern Leaf} {content : Leaf}
    (takes : opening.Takes content text (gap ++ rest)) (blank : AllBlank gap)
    (stops : StopsAt isBlank rest) :
    Gives (statement opening) (text ++ (gap ++ rest)) (Found (.leaf content)) rest :=
  .here fun _ => .accept takes (.spanFrom blank stops fun _ => .pure ⟨_, rfl, rfl⟩)

theorem gives_conditional {name : AtKeyword} {opening : Pattern Header} {header : Header}
    {body : Parser (List Node)}
    (takes : opening.Takes header text ('{' :: inside ++ '}' :: (gap ++ rest)))
    (list : GivesBody body trees inside (gap ++ rest)) (blank : AllBlank gap)
    (stops : StopsAt isBlank rest) :
    Gives (conditional name opening body) (text ++ ('{' :: inside ++ '}' :: (gap ++ rest)))
      (Found (.block header trees)) rest := by
  refine .here fun start => .accept takes (.bind (gives_atBlock list) fun children found => ?_)
  refine .spanFrom blank stops fun span => .pure ⟨_, rfl, ?_⟩
  rw [Node.tree, found]

theorem gives_keyframes {vendor : Option String} {name former latter : List Char}
    (vendored : (vendorKeyword .keyframes).spaced.Takes vendor former
      (latter ++ ('{' :: inside ++ '}' :: (gap ++ rest))))
    (named : identifier.spaced.Takes name latter ('{' :: inside ++ '}' :: (gap ++ rest)))
    (list : GivesBody (collect (orComment keyframe)) trees inside (gap ++ rest))
    (blank : AllBlank gap) (stops : StopsAt isBlank rest) :
    Gives keyframes (former ++ (latter ++ ('{' :: inside ++ '}' :: (gap ++ rest))))
      (Found (.block (.keyframes vendor (String.ofList name)) trees)) rest := by
  refine .here fun start => .accept vendored (.accept named ?_)
  refine .bind (gives_atBlock list) fun children found => ?_
  refine .spanFrom blank stops fun span => .pure ⟨_, rfl, ?_⟩
  rw [Node.tree, found]

theorem gives_keyframe {found : List (List Char)}
    (takes : (nonempty offsets).Takes found text ('{' :: inside ++ '}' :: (gap ++ rest)))
    (list : GivesBody declarations trees inside (gap ++ rest)) (blank : AllBlank gap)
    (stops : StopsAt isBlank rest) :
    Gives keyframe (text ++ ('{' :: inside ++ '}' :: (gap ++ rest)))
      (Found (.block (.keyframe (found.map String.ofList)) trees)) rest := by
  refine .here fun start => .accept takes (.bind (gives_plainBlock list) fun children same => ?_)
  refine .spanFrom blank stops fun span => .pure ⟨_, rfl, ?_⟩
  rw [Node.tree, same]

theorem gives_rule {value : List Char}
    (takes : selectorText.Takes value text ('{' :: inside ++ '}' :: (gap ++ rest)))
    (list : GivesBody declarations trees inside (gap ++ rest)) (blank : AllBlank gap)
    (stops : StopsAt isBlank rest) :
    Gives rule (text ++ ('{' :: inside ++ '}' :: (gap ++ rest)))
      (Found (.block (.rule ((splitSelectors value).map String.ofList)) trees)) rest := by
  refine .here fun start => .accept takes (.bind (gives_plainBlock list) fun children same => ?_)
  refine .spanFrom blank stops fun span => .pure ⟨_, rfl, ?_⟩
  rw [Node.tree, same]

/-! ### The table of at-rules -/

/-- The at-rule is not ahead. -/
def GivesNothing (parser : Parser (Option Node)) (input : List Char) : Prop :=
  Gives parser input (fun found => found = none) input

theorem gives_firstAtRule_none {names : List AtKeyword} {input : List Char}
    (absent : ∀ name ∈ names, GivesNothing (atRule nested name) input) :
    GivesNothing (firstAtRule nested names) input := by
  induction names with
  | nil => exact .pure rfl
  | cons name others inductionHypothesis =>
    refine .bind (absent name List.mem_cons_self) fun found nothing => ?_
    rw [nothing]
    exact inductionHypothesis fun other member => absent other (List.mem_cons_of_mem _ member)

/-- The first at-rule that is ahead is read. -/
theorem gives_firstAtRule {names later : List AtKeyword} {name : AtKeyword} {tree : Tree}
    {input rest : List Char} (absent : ∀ other ∈ names, GivesNothing (atRule nested other) input)
    (gives : Gives (atRule nested name) input (Found tree) rest) :
    Gives (firstAtRule nested (names ++ name :: later)) input (Found tree) rest := by
  induction names with
  | nil =>
    refine .bind gives fun found present => ?_
    obtain ⟨node, rfl, same⟩ := present
    exact .record (.pure ⟨node, rfl, same⟩)
  | cons other others inductionHypothesis =>
    refine .bind (absent other List.mem_cons_self) fun found nothing => ?_
    rw [nothing]
    exact inductionHypothesis fun other member => absent other (List.mem_cons_of_mem _ member)

theorem table_eq (name : AtKeyword) :
    ∃ later, AtKeyword.table = name.earlier ++ name :: later := by
  cases name <;> exact ⟨_, rfl⟩

theorem gives_ruleOrAtRule_atRule {name : AtKeyword} {tree : Tree} {input rest : List Char}
    (absent : ∀ other ∈ name.earlier, GivesNothing (atRule nested other) input)
    (gives : Gives (atRule nested name) input (Found tree) rest) :
    Gives (ruleOrAtRule nested) input (Found tree) rest := by
  obtain ⟨later, table⟩ := table_eq name
  have first : Gives (firstAtRule nested AtKeyword.table) input (Found tree) rest := by
    rw [table]
    exact gives_firstAtRule absent gives
  refine .bind first.attempt fun found present => ?_
  obtain ⟨node, rfl, same⟩ := present
  exact .pure ⟨node, rfl, same⟩

theorem gives_ruleOrAtRule_rule {input rest : List Char} {asked : Option Node → Prop}
    (absent : ∀ name, GivesNothing (atRule nested name) input)
    (gives : Gives rule input asked rest) : Gives (ruleOrAtRule nested) input asked rest := by
  have none : GivesNothing (firstAtRule nested AtKeyword.table) input :=
    gives_firstAtRule_none fun name _ => absent name
  refine .bind none.attempt fun found nothing => ?_
  rw [nothing]
  exact gives

/-! ### Items of a list of rules -/

theorem not_prefix_of_head {word : List Char} {first head : Char} {others rest : List Char}
    (parts : word = first :: others) (differ : first ≠ head) : ¬ word <+: head :: rest := by
  rw [parts]
  exact fun start => differ (List.cons_prefix_cons.mp start).1

theorem gives_item {input rest : List Char} {asked : Option Node → Prop}
    (comment : ¬ commentOpener <+: input) (filled : input ≠ []) (brace : ¬ ['}'] <+: input)
    (gives : Gives (ruleOrAtRule nested) input asked rest) :
    Gives (item nested) input asked rest := by
  refine gives_orComment comment (.atEnd (.startsWith ?_))
  rw [List.isEmpty_eq_false_iff.mpr filled,
    Bool.eq_false_iff.mpr fun start => brace (List.isPrefixOf_iff_prefix.mp start)]
  exact gives

theorem gives_item_none {rest : List Char} (ending : EndsList rest) :
    Gives (item nested) rest (fun found => found = none) rest := by
  rcases ending with rfl | ⟨more, rfl⟩
  · exact gives_orComment (by decide) (.atEnd (.startsWith (.pure rfl)))
  · refine gives_orComment (not_prefix_of_head rfl (by decide)) (.atEnd (.startsWith ?_))
    exact .pure rfl

/-! ### Lists of any kind -/

section

variable {room : Room} {bound : Nat} {rest : List Char}

theorem read_propertyName_eq_none (ending : EndsList rest) :
    propertyName.read rest = none := by
  rcases ending with rfl | ⟨more, rfl⟩ <;> rfl

theorem read_offsets_eq_none (ending : EndsList rest) :
    (nonempty offsets).read rest = none := by
  have number : EndsNumber rest := by
    rcases ending with rfl | ⟨more, rfl⟩
    · exact trivial
    · exact (by decide : (Char.isDigit '}' || '}' == '.') = false)
  have letter : StopsAt Char.isLower rest := by
    rcases ending with rfl | ⟨more, rfl⟩
    · exact trivial
    · exact (by decide : Char.isLower '}' = false)
  have nothing : offsets.Takes [] [] rest :=
    takes_many_nil (read_bind_of_none (read_keyframeOffset_eq_none number letter))
  exact read_nonempty_of_takes_nil nothing

/-- A closing brace and the end of the text end every list. -/
theorem gives_item_ending (ending : EndsList rest) :
    Gives (room.item bound) rest (fun found => found = none) rest := by
  have comment : ¬ commentOpener <+: rest := by
    rcases ending with rfl | ⟨more, rfl⟩
    · decide
    · exact not_prefix_of_head rfl (by decide)
  cases room with
  | rules => exact gives_item_none ending
  | keyframes =>
    have absent := read_offsets_eq_none ending
    exact gives_orComment comment (.here fun _ => .accept_none absent (.pure rfl))
  | declarations =>
    have absent := read_propertyName_eq_none ending
    exact gives_orComment comment (.here fun _ => .accept_none absent (.pure rfl))

/-- A list in a block is read by its items, which may be blocks themselves. -/
theorem gives_list {input : List Char} {asked : List Node → Prop} (stops : StopsAt isBlank input)
    (less : input.length < bound)
    (gives : ∀ bound, input.length ≤ bound →
      Gives (collect (room.item bound)) input asked rest) :
    Gives (room.list bound) input asked rest := by
  cases room with
  | keyframes | declarations => exact gives input.length (Nat.le_refl _)
  | rules =>
    intro options state ahead
    have left : state.left = input.length := congrArg List.length ahead
    show ∃ value last, rulesBelow bound options state = _ ∧ _
    rw [rulesBelow, if_pos (left ▸ less), rules_eq, byLeft, left]
    have nothing : Pattern.blanks.Takes [] [] input := takes_run.mpr ⟨rfl, allBlank_nil, stops⟩
    exact Gives.accept nothing (gives _ (Nat.le_refl _)) options state ahead

end

end Grammar

end CssSyntax
