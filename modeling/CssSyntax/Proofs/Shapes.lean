/-
This file shows that every parse makes a well-formed tree.

A node fits into a list of its kind if the list admits it, if its own texts are in order and if its
children fit into the list that its header opens. The proof goes through the grammar and looks at
what each parser ends with; what was given up on the way does not matter, because it leaves no
node.

That the name of a property is not empty needs the order in which a list tries things. The
characters of comments are characters of names, and complete comments are removed from a name, so a
name that is a comment would vanish. But a list looks for a comment first, and only where none is
ahead is something taken for a name.
-/

import CssSyntax.Proofs.Comments
import CssSyntax.Proofs.Dispatch
import CssSyntax.Proofs.Positions

namespace CssSyntax

open Grammar

/-! ### Trimming -/

theorem head?_dropWhile (accepted : Char → Bool) (text : List Char) :
    ∀ first ∈ (text.dropWhile accepted).head?, accepted first = false := by
  intro first head
  have stops := List.head?_dropWhile_not accepted text
  rw [head] at stops
  exact stops

theorem prefix_of_trimEnd (text : List Char) : trimEnd text <+: text := by
  have reversed := (List.dropWhile_suffix isBlank (l := text.reverse)).reverse
  rwa [List.reverse_reverse] at reversed

theorem infix_of_trim (text : List Char) : trim text <:+: text :=
  (prefix_of_trimEnd _).isInfix.trans (List.dropWhile_suffix isBlank).isInfix

theorem trimmed_trim (text : List Char) : Trimmed (trim text) := by
  refine ⟨fun first head => ?_, ?_⟩
  · -- what the trimmed text begins with was first when only the front had been trimmed
    obtain ⟨behind, parts⟩ : trim text <+: text.dropWhile isBlank := prefix_of_trimEnd _
    refine head?_dropWhile isBlank text first ?_
    rw [← parts, List.head?_append, Option.mem_def.mp head]
    rfl
  · rw [trim, trimEnd, List.getLast?_reverse]
    exact head?_dropWhile isBlank _

variable {mark : Char} {text : List Char}

theorem notMem_trim (absent : mark ∉ text) : mark ∉ trim text :=
  fun member => absent ((infix_of_trim text).subset member)

/-! ### Comments that are removed -/

theorem notMem_removeComments (withSlashes : Bool) (absent : mark ∉ text) :
    mark ∉ removeComments withSlashes text := by
  fun_induction removeComments withSlashes text with
  | case1 text nothing => exact absent
  | case2 text before body after found inductionHypothesis =>
    rw [eq_append_of_firstComment? found, List.mem_append, not_or] at absent
    obtain ⟨first, last⟩ := absent
    rw [List.append_assoc, List.append_assoc, List.mem_append, not_or] at first
    refine List.not_mem_append first.1 (inductionHypothesis fun member => last ?_)
    exact (afterComment_suffix withSlashes after).subset member

/-- Something is left of a text that does not begin with a comment. -/
theorem removeComments_ne_nil {withSlashes : Bool} (filled : text ≠ [])
    (absent : ¬ commentOpener <+: text) : removeComments withSlashes text ≠ [] := by
  rw [removeComments]
  split
  · exact filled
  · rename_i before body after found
    have parts := eq_append_of_firstComment? found
    cases before with
    | nil =>
      rw [parts, List.nil_append, List.append_assoc, List.append_assoc] at absent
      exact absurd (List.prefix_append _ _) absent
    | cons first before => exact List.cons_ne_nil _ _

/-! ### Selectors -/

theorem notMem_hideQuotedCommas (other : mark ≠ commaStandIn) (absent : mark ∉ text) :
    mark ∉ hideQuotedCommas text := by
  fun_induction hideQuotedCommas text with
  | case1 => exact absent
  | case2 first rest length measured inductionHypothesis =>
    refine List.not_mem_append ?_ (inductionHypothesis fun member => absent ?_)
    · rintro member
      obtain ⟨character, taken, same⟩ := List.mem_map.mp member
      unfold hideComma at same
      split at same
      · exact other same.symm
      · exact absent (same ▸ List.mem_of_mem_take taken)
    · exact List.mem_cons_of_mem _ (List.mem_of_mem_drop member)
  | case3 first rest unmeasured inductionHypothesis =>
    rw [List.mem_cons, not_or] at absent ⊢
    exact ⟨absent.1, inductionHypothesis absent.2⟩

theorem splitOutsideGroups_ne_nil (text : List Char) : splitOutsideGroups text ≠ [] := by
  induction text with
  | nil => exact List.cons_ne_nil _ _
  | cons first rest inductionHypothesis =>
    rw [splitOutsideGroups]
    split
    · exact List.cons_ne_nil _ _
    · obtain ⟨head, others, parts⟩ := List.exists_cons_of_ne_nil inductionHypothesis
      rw [parts]
      exact List.cons_ne_nil _ _

theorem notMem_splitOutsideGroups (absent : mark ∉ text) :
    ∀ piece ∈ splitOutsideGroups text, mark ∉ piece := by
  induction text with
  | nil => exact List.forall_mem_singleton.mpr List.not_mem_nil
  | cons first rest inductionHypothesis =>
    rw [List.mem_cons, not_or] at absent
    have later := inductionHypothesis absent.2
    rw [splitOutsideGroups]
    split
    · exact List.forall_mem_cons.mpr ⟨List.not_mem_nil, later⟩
    · obtain ⟨head, others, parts⟩ := List.exists_cons_of_ne_nil (splitOutsideGroups_ne_nil rest)
      rw [parts] at later ⊢
      obtain ⟨atHead, atOthers⟩ := List.forall_mem_cons.mp later
      refine List.forall_mem_cons.mpr ⟨?_, atOthers⟩
      rw [List.mem_cons, not_or]
      exact ⟨absent.1, atHead⟩

theorem splitSelectors_ne_nil (text : List Char) : splitSelectors text ≠ [] := by
  rw [splitSelectors, ne_eq, List.map_eq_nil_iff]
  exact splitOutsideGroups_ne_nil _

/-- A selector is trimmed and has no character that its text has not, apart from a comma. -/
theorem selector_of_mem (standIn : mark ≠ commaStandIn) (comma : mark ≠ ',')
    (absent : mark ∉ text) :
    ∀ selector ∈ splitSelectors text, Trimmed selector ∧ mark ∉ selector := by
  intro selector member
  obtain ⟨piece, split, rfl⟩ := List.mem_map.mp member
  have hidden := notMem_hideQuotedCommas standIn
    (notMem_removeComments true (notMem_trim absent))
  have missing := notMem_splitOutsideGroups hidden piece split
  refine ⟨trimmed_trim _, notMem_trim fun restored => ?_⟩
  obtain ⟨character, inside, same⟩ := List.mem_map.mp restored
  unfold restoreComma at same
  split at same
  · exact comma same.symm
  · exact missing (same ▸ inside)

/-! ### Shapes -/

/-- The texts of a leaf are in order. -/
def Leaf.WellFormed : Leaf → Prop
  | .declaration property _ => property ≠ ""
  | .comment body => ¬ commentCloser <:+: body.toList
  | .importRule payload | .charset payload | .namespaceRule payload => IsPayload payload
  | .customMedia name query =>
    ['-', '-'] <+: name.toList ∧ 3 ≤ name.length ∧
      (∀ character ∈ name.toList, isBlank character = false) ∧ IsPayload query ∧
      '{' ∉ query.toList

/-- The texts of a header are in order. -/
def Header.WellFormed : Header → Prop
  | .rule selectors =>
    selectors ≠ [] ∧ ∀ selector ∈ selectors, Trimmed selector.toList ∧ '{' ∉ selector.toList
  | .keyframes vendor name => IsVendor vendor ∧ IsIdentifier name.toList
  | .keyframe offsets => offsets ≠ [] ∧ ∀ offset ∈ offsets, IsOffset offset.toList
  | .media condition | .supports condition => IsCondition condition
  | .host | .fontFace => True
  | .document vendor address => IsVendor vendor ∧ IsCondition address
  | .page selectors => ∀ selector ∈ selectors, Trimmed selector.toList ∧ '{' ∉ selector.toList

/-- The texts of a node are in order, and its children are of the kinds that it may have. -/
def Node.WellFormed : Node → Prop
  | .leaf content _ => content.WellFormed
  | .block header _ children =>
    header.WellFormed ∧ ∀ child ∈ children, header.room.admits child.kind = true

/-- All nodes are well-formed, and those of the top level may stand in a list of rules. -/
structure Stylesheet.WellFormed (sheet : Stylesheet) : Prop where
  topLevel : ∀ node ∈ sheet.rules, Room.rules.admits node.kind = true
  each : ∀ entry ∈ sheet.nodes, entry.2.WellFormed

/-! ### Shapes of what is written -/

theorem isPayload_trimmed (absent : ';' ∉ text) : IsPayload (trimmed text) := by
  rw [IsPayload, trimmed, String.toList_ofList]
  exact ⟨trimmed_trim text, notMem_trim absent⟩

theorem isCondition_trimmed (absent : '{' ∉ text) : IsCondition (trimmed text) := by
  rw [IsCondition, trimmed, String.toList_ofList]
  exact ⟨trimmed_trim text, notMem_trim absent⟩

theorem selectors_wellFormed (absent : '{' ∉ text) :
    ∀ selector ∈ (splitSelectors text).map String.ofList,
      Trimmed selector.toList ∧ '{' ∉ selector.toList := by
  intro selector member
  obtain ⟨piece, listed, rfl⟩ := List.mem_map.mp member
  rw [String.toList_ofList]
  exact selector_of_mem (by decide) (by decide) absent piece listed

theorem isOffset_of_mem {values : List (List Char)} (form : OffsetsText values text) :
    ∀ value ∈ values, IsOffset value := by
  induction form with
  | nil => exact List.forall_mem_nil _
  | bare good blank others inductionHypothesis =>
    exact List.forall_mem_cons.mpr ⟨good, inductionHypothesis⟩
  | comma good blank leading others inductionHypothesis =>
    exact List.forall_mem_cons.mpr ⟨good, inductionHypothesis⟩

/-- Something is left of the name of a property that does not begin with a comment. -/
theorem uncommented_ne_empty (named : IsProperty text) (absent : ¬ commentOpener <+: text) :
    uncommented text ≠ "" := by
  obtain ⟨name, bracket, rfl, filled, -⟩ := named
  intro empty
  have nothing := congrArg String.toList empty
  rw [uncommented, String.toList_ofList] at nothing
  exact removeComments_ne_nil (List.append_ne_nil_of_left_ne_nil filled _) absent nothing

theorem Leaf.WrittenAs.wellFormed {content : Leaf} (form : content.WrittenAs text)
    (other : content.kind ≠ .declaration) : content.WellFormed := by
  cases content with
  | declaration property value => exact absurd rfl other
  | comment body => exact form.2
  | importRule | charset | namespaceRule =>
    obtain ⟨inner, -, -, absent, rfl⟩ := form
    exact isPayload_trimmed absent
  | customMedia name query =>
    obtain ⟨gap, inner, -, -, -, dashes, long, unbroken, -, brace, semicolon, rfl⟩ := form
    exact ⟨dashes, long, unbroken, isPayload_trimmed semicolon, (isCondition_trimmed brace).2⟩

theorem Header.WrittenAs.wellFormed {header : Header} (form : header.WrittenAs text) :
    header.WellFormed := by
  cases header with
  | rule selectors =>
    obtain ⟨-, absent, rfl⟩ := form
    exact ⟨by simpa using splitSelectors_ne_nil text, selectors_wellFormed absent⟩
  | keyframes vendor name =>
    obtain ⟨gap, tail, -, vendored, -, named, -⟩ := form
    exact ⟨vendored, named⟩
  | keyframe offsets =>
    obtain ⟨filled, values, rfl, written⟩ := form
    refine ⟨filled, fun offset member => ?_⟩
    obtain ⟨value, listed, rfl⟩ := List.mem_map.mp member
    rw [String.toList_ofList]
    exact isOffset_of_mem written value listed
  | media condition | supports condition =>
    obtain ⟨inner, -, -, absent, rfl⟩ := form
    exact isCondition_trimmed absent
  | host | fontFace => exact trivial
  | document vendor address =>
    obtain ⟨inner, -, vendored, -, absent, rfl⟩ := form
    exact ⟨vendored, isCondition_trimmed absent⟩
  | page selectors =>
    obtain ⟨spaces, inner, -, -, absent, rfl⟩ := form
    split
    · exact List.forall_mem_nil _
    · exact selectors_wellFormed absent

/-! ### Nodes that fit -/

/-- The node may stand in a list of the kind, and all texts and lists in it are in order. -/
inductive Fits : Room → Node → Prop where
  | leaf {room : Room} {content : Leaf} {span : Span}
      (admitted : room.admits content.kind = true) (good : content.WellFormed) :
      Fits room (.leaf content span)
  | block {room : Room} {header : Header} {span : Span} {children : List Node}
      (admitted : room.admits header.kind = true) (good : header.WellFormed)
      (below : ∀ child ∈ children, Fits header.room child) :
      Fits room (.block header span children)

variable {room : Room} {node : Node} {nodes : List Node}

theorem Fits.admits (fits : Fits room node) : room.admits node.kind = true := by
  cases fits with
  | leaf admitted good => exact admitted
  | block admitted good below => exact admitted

theorem exists_of_mem_preorderAll {inner : Node} (member : inner ∈ Node.preorderAll nodes) :
    ∃ node ∈ nodes, inner ∈ node.preorder := by
  induction nodes with
  | nil => exact absurd member List.not_mem_nil
  | cons first others inductionHypothesis =>
    rcases List.mem_append.mp member with ahead | behind
    · exact ⟨first, List.mem_cons_self, ahead⟩
    · obtain ⟨node, listed, inside⟩ := inductionHypothesis behind
      exact ⟨node, List.mem_cons_of_mem _ listed, inside⟩

theorem Fits.wellFormed (fits : Fits room node) : ∀ inner ∈ node.preorder, inner.WellFormed := by
  induction fits with
  | leaf admitted good => exact List.forall_mem_singleton.mpr good
  | block admitted good below inductionHypothesis =>
    refine List.forall_mem_cons.mpr ⟨⟨good, fun child listed => (below child listed).admits⟩, ?_⟩
    intro inner member
    obtain ⟨child, listed, inside⟩ := exists_of_mem_preorderAll member
    exact inductionHypothesis child listed inner inside

namespace Grammar

open Pattern

/-! ### What parsers end with -/

variable {options : Options} {state last : State}

/-- Whatever node the parser ends with fits. -/
def Fitting (room : Room) (parser : Parser (Option Node)) : Prop :=
  ∀ options state node last, parser options state = .ok (some node) last → Fits room node

/-- Whatever nodes the parser ends with fit. -/
def FittingAll (room : Room) (parser : Parser (List Node)) : Prop :=
  ∀ options state nodes last, parser options state = .ok nodes last →
    ∀ node ∈ nodes, Fits room node

theorem fittingAll_collect {item : Parser (Option Node)} (fitting : Fitting room item) :
    FittingAll room (collect item) := by
  intro options state
  fun_induction collect item options state with
  | case1 | case2 =>
    rintro nodes last ⟨⟩
    exact List.forall_mem_nil _
  | case3 | case5 => rintro nodes last ⟨⟩
  | case4 state node later outcome less nodes' last' rest inductionHypothesis =>
    rintro nodes last ⟨⟩
    exact List.forall_mem_cons.mpr
      ⟨fitting _ _ _ _ outcome, inductionHypothesis _ _ rest⟩
  | case6 state node later outcome more =>
    rintro nodes last ⟨⟩
    exact List.forall_mem_singleton.mpr (fitting _ _ _ _ outcome)

theorem fitting_comment (room : Room) : Fitting room comment := by
  intro options state node last run
  obtain ⟨body, present, -, rfl⟩ := found_of_comment run
  exact .leaf (by cases room <;> rfl) (commentForm_of_takes (takes_of_read present)).2

/-- The other item is read only where no comment is ahead. -/
theorem fitting_orComment {item : Parser (Option Node)}
    (fitting : ∀ options state node last, ¬ commentOpener <+: state.cursor.rest →
      item options state = .ok (some node) last → Fits room node) :
    Fitting room (orComment item) := by
  intro options state node last run
  rcases found_of_orComment run with comment | ⟨absent, run⟩
  · exact fitting_comment room _ _ _ _ comment
  · exact fitting _ _ _ _ absent run

theorem fits_declaration (absent : ¬ commentOpener <+: state.cursor.rest)
    (run : declaration options state = .ok (some node) last) : Fits .declarations node := by
  obtain ⟨property, mark, value, later, middle, named, -, -, -, -, rfl⟩ := found_of_declaration run
  obtain ⟨gap, name, good, -⟩ := isProperty_of_takes (takes_of_read named)
  refine .leaf rfl (uncommented_ne_empty good fun start => absent (start.trans ?_))
  rw [← propertyName.taken_append_rest named, name, List.append_assoc]
  exact List.prefix_append _ _

theorem fittingAll_declarations : FittingAll .declarations declarations :=
  fittingAll_collect (fitting_orComment fun _ _ _ _ => fits_declaration)

/-! ### Blocks -/

theorem fittingAll_atBlock {name : AtKeyword} {body : Parser (List Node)}
    (fitting : FittingAll room body) : FittingAll room (atBlock name body) := by
  intro options state nodes last run
  obtain ⟨opened, later, closed, -, inner, -, rfl⟩ := ok_of_atBlock run
  exact fitting _ _ _ _ inner

theorem fittingAll_plainBlock : FittingAll .declarations plainBlock := by
  intro options state nodes last run
  obtain ⟨opened, later, -, inner, -⟩ := ok_of_plainBlock run
  exact fittingAll_declarations _ _ _ _ inner

theorem fits_of_blockFound {block : Parser (List Node)} {header : Header} {middle : State}
    (found : BlockFound block header options state middle last node)
    (admitted : room.admits header.kind = true) (good : header.WellFormed)
    (fitting : FittingAll header.room block) : Fits room node := by
  obtain ⟨children, later, inner, -, rfl⟩ := found
  exact .block admitted good (fitting _ _ _ _ inner)

/-! ### At-rules -/

theorem fitting_keyframe : Fitting .keyframes keyframe := by
  intro options state node last run
  obtain ⟨found, present, block⟩ := found_of_keyframe run
  have form := keyframeForm_of_takes (takes_of_read present)
  exact fits_of_blockFound block rfl form.wellFormed fittingAll_plainBlock

theorem fittingAll_keyframes : FittingAll .keyframes (collect (orComment keyframe)) :=
  fittingAll_collect (fitting_orComment fun _ _ _ _ _ => fitting_keyframe _ _ _ _)

theorem fitting_keyframes : Fitting .rules keyframes := by
  intro options state node last run
  obtain ⟨vendor, word, vendored, named, block⟩ := found_of_keyframes run
  have form := keyframesForm_of_takes (takes_of_read vendored) (takes_of_read named)
  exact fits_of_blockFound block rfl form.wellFormed (fittingAll_atBlock fittingAll_keyframes)

section

variable {name : AtKeyword} {bound : Nat}

theorem fitting_statement {opening : Pattern Leaf} (form : name.form = .statement opening) :
    Fitting .rules (statement opening) := by
  intro options state node last run
  obtain ⟨found, present, -, rfl⟩ := found_of_statement run
  have takes := takes_of_read present
  have kind := kind_of_statement form takes
  refine .leaf (by rw [kind]; rfl) ((written_of_statement form takes).wellFormed ?_)
  rw [kind]
  rintro ⟨⟩

theorem fitting_conditional {opening : Pattern Header} {body : Parser (List Node)}
    (form : name.form = .conditional opening room) (fitting : FittingAll room body) :
    Fitting .rules (conditional name opening body) := by
  intro options state node last run
  obtain ⟨found, present, block⟩ := found_of_conditional run
  have takes := takes_of_read present
  obtain ⟨kind, rfl⟩ := kind_and_room_of_conditional form takes
  exact fits_of_blockFound block (by rw [kind]; rfl) (written_of_conditional form takes).wellFormed
    (fittingAll_atBlock fitting)

theorem fitting_atRule (lists : ∀ room : Room, FittingAll room (room.list bound))
    (name : AtKeyword) : Fitting .rules (atRule (rulesBelow bound) name) := by
  cases form : name.form with
  | statement opening =>
    rw [atRule_of_statement form]
    exact fitting_statement form
  | conditional opening room =>
    rw [atRule_of_conditional form]
    exact fitting_conditional form (lists room)
  | keyframes =>
    obtain rfl := eq_keyframes form
    exact fitting_keyframes

theorem fitting_firstAtRule (lists : ∀ room : Room, FittingAll room (room.list bound))
    (names : List AtKeyword) : Fitting .rules (firstAtRule (rulesBelow bound) names) := by
  intro options state node last run
  obtain ⟨-, name, -, later, -, -, found, -⟩ := found_of_firstAtRule run
  exact fitting_atRule lists name _ _ _ _ found

/-! ### Rules -/

theorem fitting_rule : Fitting .rules rule := by
  intro options state node last run
  obtain ⟨found, present, block⟩ := found_of_rule run
  have form := ruleForm_of_takes (takes_of_read present)
  exact fits_of_blockFound block rfl form.wellFormed fittingAll_plainBlock

/-- A plain rule may begin anywhere in an at-rule that was given up, and it fits all the same. -/
theorem fitting_ruleOrAtRule (lists : ∀ room : Room, FittingAll room (room.list bound)) :
    Fitting .rules (ruleOrAtRule (rulesBelow bound)) := by
  intro options state node last run
  rcases found_of_ruleOrAtRule run with run | ⟨later, -, run⟩
  · exact fitting_firstAtRule lists _ _ _ _ _ run
  · exact fitting_rule _ _ _ _ run

theorem fitting_item (lists : ∀ room : Room, FittingAll room (room.list bound)) :
    Fitting .rules (item (rulesBelow bound)) := by
  intro options state node last run
  rcases found_of_item run with comment | ⟨-, -, run⟩
  · exact fitting_comment _ _ _ _ _ comment
  · exact fitting_ruleOrAtRule lists _ _ _ _ run

theorem fittingAll_ruleList (lists : ∀ room : Room, FittingAll room (room.list bound)) :
    FittingAll .rules (ruleList (rulesBelow bound)) := by
  intro options state nodes last run
  obtain ⟨later, -, run⟩ := ok_of_ruleList run
  exact fittingAll_collect (fitting_item lists) _ _ _ _ run

/-- Lists in blocks are read where less text is left, so the induction is on the bound. -/
theorem fittingAll_room (bound : Nat) (room : Room) : FittingAll room (room.list bound) := by
  induction bound using Nat.strongRecOn generalizing room with
  | ind bound inductionHypothesis =>
    cases room with
    | declarations => exact fittingAll_declarations
    | keyframes => exact fittingAll_keyframes
    | rules =>
      intro options state nodes last run
      have run : rulesBelow bound options state = .ok nodes last := run
      rw [rulesBelow_eq, byLeft] at run
      split at run
      · rename_i less
        exact fittingAll_ruleList (inductionHypothesis _ less) _ _ _ _ run
      · cases run
        exact List.forall_mem_nil _

theorem fittingAll_rules : FittingAll .rules rules := by
  intro options state nodes last run
  rw [rules_eq, byLeft] at run
  exact fittingAll_ruleList (fittingAll_room _) _ _ _ _ run

end

end Grammar

/-! ### Whole parses -/

theorem fits_of_parse {css : String} {options : Options} {sheet : Stylesheet}
    (read : parseWith css options = .ok sheet) : ∀ node ∈ sheet.rules, Fits .rules node := by
  obtain ⟨nodes, last, run, rfl⟩ := ok_of_parseWith read
  exact fittingAll_rules _ _ _ _ run

/-- Every stylesheet that a parse gives is well-formed, in either mode. -/
theorem wellFormed_of_parse (css : String) (options : Options) (sheet : Stylesheet)
    (read : parseWith css options = .ok sheet) : sheet.WellFormed where
  topLevel node member := (fits_of_parse read node member).admits
  each entry member := by
    obtain ⟨node, listed, inside⟩ := exists_of_mem_preorderAll (Stylesheet.mem_preorderAll member)
    exact (fits_of_parse read node listed).wellFormed _ inside

/-- An at-rule that was given up behind its keyword, and the plain rule that was read from there. -/
def restartedSheet : Stylesheet :=
  .ofRules none
    [.block (.rule ["x"]) ⟨⟨1, 12⟩, ⟨1, 18⟩, none⟩
      [.leaf (.declaration "y" "z") ⟨⟨1, 14⟩, ⟨1, 17⟩, none⟩]]
    [⟨.missingOpenBrace (.atRule "font-face"), none, ⟨1, 12⟩⟩]

theorem wellFormed_restartedSheet :
    parseWith "@font-face x{y:z}" ⟨none, .tolerant⟩ = .ok restartedSheet ∧
      restartedSheet.WellFormed := by
  have read : parseWith "@font-face x{y:z}" ⟨none, .tolerant⟩ = .ok restartedSheet := by cbv
  exact ⟨read, wellFormed_of_parse _ _ _ read⟩

end CssSyntax
