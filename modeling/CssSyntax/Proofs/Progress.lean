/-
This file shows that a parse comes to an end, and how large a tree it can make.

Whatever node a parser ends with was read from text that is not empty, so a parser that finds its
construct has taken some. A list of rules inside a block is asked for behind the keyword and the
brace of the block, where less text is left. The two facts are why reading ends. The grammar guards
its lists against items that take nothing and against blocks that begin too early, and here the
guards are seen to be idle: the equations of the lists without any guard have one solution, which
is the guarded list. An equation that left some list without an end would not determine what it
gives there.

Each node has a character of its own, the first one of its text, so there are no more nodes than
characters. A text whose characters can be numbered in 32 bits has a tree whose rows and child
indices can.
-/

import CssSyntax.Proofs.Attempts
import CssSyntax.Proofs.Numbering
import CssSyntax.Proofs.Positions

namespace CssSyntax.Grammar

open Pattern

variable {α β : Type} {bound : Nat}

/-! ### Parsers that take text -/

/-- Where the parser finds its construct, it takes some text. -/
def Advances (parser : Parser (Option α)) : Prop :=
  ∀ (options : Options) (state : State) (value : α) (last : State),
    parser options state = .ok (some value) last →
    ∃ taken, taken ≠ [] ∧ state.cursor.rest = taken ++ last.cursor.rest

theorem Advances.left_lt {parser : Parser (Option α)} (advances : Advances parser)
    {options : Options} {state last : State} {value : α}
    (run : parser options state = .ok (some value) last) : last.left < state.left := by
  obtain ⟨taken, filled, rest⟩ := advances options state value last run
  have some := List.length_pos_iff.mpr filled
  rw [State.left, State.left, Cursor.left, Cursor.left, rest, List.length_append]
  omega

theorem advances_of_readsNode {parser : Parser (Option Node)} (reads : ReadsNode parser) :
    Advances parser := by
  intro options state node last run
  obtain ⟨lead, text, gap, took, read⟩ := reads options state node last run
  refine ⟨lead ++ text ++ gap, fun empty => read.ne_nil ?_, took.rest⟩
  exact (List.append_eq_nil_iff.mp (List.append_eq_nil_iff.mp empty).1).2

theorem advances_atRule (name : AtKeyword) : Advances (atRule rules name) :=
  advances_of_readsNode (readsNode_atRule readsNodes_rules name)

theorem advances_firstAtRule (names : List AtKeyword) : Advances (firstAtRule rules names) :=
  advances_of_readsNode (readsNode_firstAtRule readsNodes_rules names)

/-! ### Where nested lists begin -/

/-- The parsers do the same where less text than the bound is left. -/
def AgreeBelow (bound : Nat) (first second : Parser α) : Prop :=
  ∀ (options : Options) (state : State), state.left < bound →
    first options state = second options state

theorem agree_refl (parser : Parser α) : AgreeBelow bound parser parser := fun _ _ _ => rfl

theorem agree_bind {first second : Parser α} (agree : AgreeBelow bound first second)
    (next : α → Parser β) : AgreeBelow bound (first >>= next) (second >>= next) := by
  intro options state less
  rw [bind_run, bind_run, agree options state less]

theorem agree_behind {first : Parser α} (forward : Forward α first) {next next' : α → Parser β}
    (agree : ∀ value, AgreeBelow bound (next value) (next' value)) :
    AgreeBelow bound (first >>= next) (first >>= next') := by
  intro options state less
  have onward := forward options state
  rw [bind_run, bind_run]
  cases outcome : first options state with
  | error halt later => rfl
  | ok value later =>
    rw [outcome] at onward
    exact agree value options later (Nat.lt_of_le_of_lt onward.left_le less)

theorem agree_attempt {first second : Parser (Option α)} (agree : AgreeBelow bound first second) :
    AgreeBelow bound (attempt first) (attempt second) := by
  intro options state less
  rw [attempt, attempt, agree options state less]

theorem agree_collect {first second : Parser (Option α)} (agree : AgreeBelow bound first second) :
    AgreeBelow bound (collect first) (collect second) := by
  intro options state less
  fun_induction collect first options state with
  | case1 state later outcome | case2 state later outcome | case3 state fault later outcome =>
    rw [collect_eq, ← agree options state less, outcome]
    rfl
  | case6 state value later outcome more =>
    rw [collect_eq, ← agree options state less, outcome]
    simp only [goOn, if_neg more]
  | case4 state value later outcome shorter values last rest inductionHypothesis
  | case5 state value later outcome shorter halt last rest inductionHypothesis =>
    have others := inductionHypothesis (Nat.lt_trans shorter less)
    rw [collect_eq, ← agree options state less, outcome]
    simp only [goOn, if_pos shorter, ← others, rest]

/-- The body of a block begins behind a brace. -/
theorem agree_atBlock (name : AtKeyword) {first second : Parser (List Node)}
    (agree : AgreeBelow bound first second) :
    AgreeBelow (bound + 1) (atBlock name first) (atBlock name second) := by
  intro options state less
  cases present : openBrace.read state.cursor.rest with
  | none => rw [atBlock, atBlock, accept_bind_none present, accept_bind_none present]
  | some found =>
    have shorter := Nat.lt_of_lt_of_le (left_past_openBrace present) (Nat.le_of_lt_succ less)
    rw [atBlock, atBlock, accept_bind_some present, accept_bind_some present]
    exact agree_bind agree _ options _ shorter

theorem agree_conditional (name : AtKeyword) (opening : Pattern Header)
    {first second : Parser (List Node)} (agree : AgreeBelow bound first second) :
    AgreeBelow (bound + 1) (conditional name opening first) (conditional name opening second) := by
  refine agree_behind closed_forward.here fun start => ?_
  refine agree_behind (forward_accept opening) fun header => ?_
  cases header with
  | none => exact agree_refl _
  | some header => exact agree_bind (agree_atBlock name agree) _

section

variable {first second : Parser (List Node)} (agree : AgreeBelow bound first second)
include agree

theorem agree_atRule (name : AtKeyword) :
    AgreeBelow (bound + 1) (atRule first name) (atRule second name) := by
  cases name with
  | media | supports | document | host => exact agree_conditional _ _ agree
  | keyframes | page | fontFace | customMedia | importRule | charset | namespaceRule =>
    exact agree_refl _

/-- An at-rule that is absent leaves the text as it was, so the next one begins at the same place. -/
theorem agree_firstAtRule (names : List AtKeyword) :
    AgreeBelow (bound + 1) (firstAtRule first names) (firstAtRule second names) := by
  induction names with
  | nil => exact agree_refl _
  | cons name others inductionHypothesis =>
    intro options state less
    rw [firstAtRule, firstAtRule, bind_run, bind_run, ← agree_atRule agree name options state less]
    cases outcome : atRule first name options state with
    | error halt later => rfl
    | ok found later =>
      cases found with
      | some node => rfl
      | none =>
        obtain rfl := traceless_atRule first name options state later outcome
        exact inductionHypothesis options later less

theorem agree_ruleOrAtRule :
    AgreeBelow (bound + 1) (ruleOrAtRule first) (ruleOrAtRule second) :=
  agree_bind (agree_attempt (agree_firstAtRule agree _)) _

theorem agree_item : AgreeBelow (bound + 1) (item first) (item second) := by
  refine agree_behind closed_forward.comment fun found => ?_
  cases found with
  | some node => exact agree_refl _
  | none =>
    refine agree_behind closed_forward.atEnd fun ended => ?_
    refine agree_behind (closed_forward.startsWith _) fun braced => ?_
    split
    · exact agree_refl _
    · exact agree_ruleOrAtRule agree

theorem agree_ruleList : AgreeBelow (bound + 1) (ruleList first) (ruleList second) :=
  agree_behind (forward_accept _) fun _ => agree_collect (agree_item agree)

end

/-! ### Lists without guards -/

/-- The guard of nested lists is idle. -/
theorem rules_unguarded : rules = ruleList rules := by
  funext options state
  have agree : AgreeBelow state.left (rulesBelow state.left) rules :=
    fun options inner less => if_pos less
  rw [← agree_ruleList agree options state (Nat.lt_succ_self _), rules_eq]
  rfl

/-- The equation that reads the blocks in a list of rules by the list itself has one solution. -/
theorem eq_rules_iff {list : Parser (List Node)} : list = ruleList list ↔ list = rules := by
  constructor
  · intro solves
    have agree : ∀ bound, AgreeBelow bound list rules := by
      intro bound
      induction bound with
      | zero => exact fun _ state less => absurd less (Nat.not_lt_zero _)
      | succ bound inductionHypothesis =>
        rw [solves, rules_unguarded]
        exact agree_ruleList inductionHypothesis
    funext options state
    exact agree (state.left + 1) options state (Nat.lt_succ_self _)
  · rintro rfl
    exact rules_unguarded

/-- An item in front of the others, or nothing where there is no item or it was given up. -/
def oneMore (item : Parser (Option α)) (others : Parser (List α)) : Parser (List α) := do
  match ← attempt item with
  | some value => return value :: (← others)
  | none => return []

/-- What a list without a guard makes of the outcome of its first item. -/
def goOnFreely (others : Parser (List α)) (options : Options) :
    EStateM.Result Halt State (Option α) → EStateM.Result Halt State (List α)
  | .ok none later => .ok [] later
  | .error .noted later => .ok [] later
  | .error (.raised fault) later => .error (.raised fault) later
  | .ok (some value) later => (others >>= fun values => pure (value :: values)) options later

theorem oneMore_eq (item : Parser (Option α)) (others : Parser (List α)) (options : Options)
    (state : State) :
    oneMore item others options state = goOnFreely others options (item options state) := by
  unfold oneMore
  rw [bind_run, attempt]
  cases item options state with
  | ok found later => cases found <;> rfl
  | error halt later => cases halt <;> rfl

theorem collect_unguarded {item : Parser (Option α)} (advances : Advances item) :
    collect item = oneMore item (collect item) := by
  funext options state
  refine Eq.trans (collect_eq item options state) (Eq.trans ?_ (oneMore_eq ..).symm)
  cases outcome : item options state with
  | error halt later => cases halt <;> rfl
  | ok found later =>
    cases found with
    | none => rfl
    | some value =>
      have others := bind_run (collect item) (fun values => pure (value :: values)) options later
      refine Eq.trans (if_pos (advances.left_lt outcome)) (Eq.trans ?_ others.symm)
      cases collect item options later <;> rfl

theorem agree_oneMore {item : Parser (Option α)} (advances : Advances item)
    {first second : Parser (List α)} (agree : AgreeBelow bound first second) :
    AgreeBelow (bound + 1) (oneMore item first) (oneMore item second) := by
  intro options state less
  rw [oneMore_eq, oneMore_eq]
  cases outcome : item options state with
  | error halt later => cases halt <;> rfl
  | ok found later =>
    cases found with
    | none => rfl
    | some value =>
      have shorter := Nat.lt_of_lt_of_le (advances.left_lt outcome) (Nat.le_of_lt_succ less)
      exact agree_bind agree _ options later shorter

/-- The equation that puts items that take text in front of one another has one solution. -/
theorem eq_collect_iff {item : Parser (Option α)} (advances : Advances item)
    {list : Parser (List α)} : list = oneMore item list ↔ list = collect item := by
  constructor
  · intro solves
    have agree : ∀ bound, AgreeBelow bound list (collect item) := by
      intro bound
      induction bound with
      | zero => exact fun _ state less => absurd less (Nat.not_lt_zero _)
      | succ bound inductionHypothesis =>
        rw [solves, collect_unguarded advances]
        exact agree_oneMore advances inductionHypothesis
    funext options state
    exact agree (state.left + 1) options state (Nat.lt_succ_self _)
  · rintro rfl
    exact collect_unguarded advances

end CssSyntax.Grammar

namespace CssSyntax

open Grammar

/-! ### Nodes and characters -/

variable {source : Option String} {faults : List Fault}

mutual

theorem length_preorder_le {place : Location} {text : List Char} {node : Node}
    (read : Reads source faults place text node) : node.preorder.length ≤ text.length := by
  cases read with
  | leaf form => exact List.length_pos_iff.mpr form.ne_nil
  | block form body behind ending =>
    have below := length_preorderAll_le body
    rw [Node.preorder, List.length_cons, List.length_append, List.length_append, List.length_cons]
    omega

/-- The text of a block has a brace that is in none of its children. -/
theorem length_preorderAll_le {place : Location} {text : List Char} {nodes : List Node}
    (read : ReadsAll source faults place text nodes) :
    (Node.preorderAll nodes).length ≤ text.length := by
  cases read with
  | nil => exact Nat.zero_le _
  | cons head tail =>
    have first := length_preorder_le head
    have others := length_preorderAll_le tail
    rw [Node.preorderAll, List.length_append, List.length_append, List.length_append]
    omega

end

theorem lt_length_preorderAll {nodes : List Node} {index : Nat} (inside : index < nodes.length) :
    index < (Node.preorderAll nodes).length := by
  have ahead := add_length_preorder_le (List.getElem?_eq_getElem inside)
  have positive : 0 < nodes[index].preorder.length := by
    cases nodes[index] <;> exact Nat.succ_pos _
  omega

/-! ### Whole parses -/

/-- No row number and no child index is too large for a word of 32 bits. -/
structure Stylesheet.Numbered (sheet : Stylesheet) : Prop where
  rows : sheet.links.size < 2 ^ 32
  ids : ∀ index entry, sheet.nodes[index]? = some entry → entry.1.index = index + 1
  topLevel : ∀ index < sheet.rules.length, (UInt32.ofNat index).toNat = index
  children : ∀ entry ∈ sheet.nodes, ∀ index < entry.2.children.length,
    (UInt32.ofNat index).toNat = index
  linked : ∃ places, sheet.Linked places

section

variable {css : String} {options : Options} {sheet : Stylesheet}
  (read : parseWith css options = .ok sheet)
include read

theorem length_nodes_le_of_parse : sheet.nodes.length ≤ css.length := by
  have few := length_preorderAll_le (readsAll_of_parse read)
  rwa [← sheet.nodes_map, List.length_map, String.length_toList] at few

theorem links_of_parse : sheet.links = .ofNodes sheet.rules := by
  obtain ⟨nodes, last, -, rfl⟩ := ok_of_parseWith read
  rfl

theorem numbered_of_parse (short : css.length < 2 ^ 32 - 1) : sheet.Numbered := by
  have table := links_of_parse read
  have few := Nat.lt_of_le_of_lt (length_nodes_le_of_parse read) short
  have linked := Stylesheet.linked_of_table table few
  have size := linked.size
  refine ⟨by omega, fun index entry present => ?_, fun index inside => ?_, ?_, _, linked⟩
  · rw [Stylesheet.getElem?_nodes, Option.map_eq_some_iff] at present
    obtain ⟨place, there, rfl⟩ := present
    exact Stylesheet.index_of_entry few there
  · have ahead := lt_length_preorderAll inside
    rw [← sheet.nodes_map, List.length_map] at ahead
    have small : index < 2 ^ 32 := by omega
    exact UInt32.toNat_ofNat_of_lt small
  · intro entry member index inside
    obtain ⟨before, part, after, parts, reads⟩ := reads_of_mem_nodes read member
    have below := length_preorder_le reads
    have ahead := lt_length_preorderAll inside
    have length := congrArg List.length parts
    rw [String.length_toList, List.length_append, List.length_append] at length
    have inner : (Node.preorderAll entry.2.children).length ≤ entry.2.preorder.length := by
      cases entry.2 with
      | leaf content span => exact Nat.zero_le _
      | block header span children => exact Nat.le_succ _
    have small : index < 2 ^ 32 := by omega
    exact UInt32.toNat_ofNat_of_lt small

end

/-- Whatever is found takes text, and a list in a block begins where less text is left than at the
at-rule around it: what the list would do anywhere else has no effect. So the lists are the only
solutions of their equations without guards. The tree has no more nodes than the text has characters,
and words of 32 bits number the tree of a text that has few enough. -/
theorem parse_makes_progress :
    ((∀ construct ∈ [comment, declaration, keyframe, firstAtRule rules AtKeyword.table, rule],
        Advances construct) ∧ ∀ name, Advances (atRule rules name)) ∧
      (∀ (name : AtKeyword) (first second : Parser (List Node)) (options : Options) (state : State),
        AgreeBelow state.left first second →
        atRule first name options state = atRule second name options state) ∧
      ((∀ list, list = ruleList list ↔ list = rules) ∧
        ∀ entry ∈ [orComment declaration, orComment keyframe, item rules], ∀ list,
          list = oneMore entry list ↔ list = collect entry) ∧
      ∀ css options sheet, parseWith css options = .ok sheet →
        sheet.nodes.length ≤ css.length ∧ (css.length < 2 ^ 32 - 1 → sheet.Numbered) := by
  refine ⟨⟨?_, advances_atRule⟩, ?_, ⟨fun list => eq_rules_iff, ?_⟩, ?_⟩
  · simp only [List.forall_mem_cons]
    exact ⟨advances_of_readsNode readsNode_comment, advances_of_readsNode readsNode_declaration,
      advances_of_readsNode readsNode_keyframe, advances_firstAtRule _,
      advances_of_readsNode readsNode_rule, List.forall_mem_nil _⟩
  · intro name first second options state agree
    exact agree_atRule agree name options state (Nat.lt_succ_self _)
  · have advances : ∀ entry ∈ [orComment declaration, orComment keyframe, item rules],
        Advances entry := by
      simp only [List.forall_mem_cons]
      exact ⟨advances_of_readsNode (readsNode_orComment readsNode_declaration),
        advances_of_readsNode (readsNode_orComment readsNode_keyframe),
        advances_of_readsNode (readsNode_item closed_forward.rules readsNodes_rules),
        List.forall_mem_nil _⟩
    exact fun entry member list => eq_collect_iff (advances entry member)
  · exact fun css options sheet read => ⟨length_nodes_le_of_parse read, numbered_of_parse read⟩

theorem parse_makes_progress_nestedSheet :
    parseWith "@media\na{b{c:d}}" {} = .ok nestedSheet ∧
      nestedSheet.nodes.length ≤ "@media\na{b{c:d}}".length ∧ nestedSheet.Numbered := by
  have read : parseWith "@media\na{b{c:d}}" {} = .ok nestedSheet := by cbv
  obtain ⟨few, numbered⟩ := parse_makes_progress.2.2.2 _ _ _ read
  exact ⟨read, few, numbered (by decide)⟩

end CssSyntax
