/-
This file shows that a strict parse reads what the grammar chooses.

A strict parse that ends well has met no fault, so nothing was given up on the way. Whatever node it
ends with has a derivation, and whatever it calls absent is absent. The proof follows the grammar
from the leaves up. A list is taken item by item, and the blocks inside it by the bound on the text
left.
-/

import CssSyntax.Proofs.Derivations
import CssSyntax.Proofs.Modes

namespace CssSyntax.Grammar

open Pattern

variable {α β : Type}

/-! ### A strict parse gives up nothing -/

/-- The outcome is a value or a raised fault, and no unterminated comment is kept in mind. -/
def Decided : EStateM.Result Halt State α → Prop
  | .ok _ last => last.openComment = none
  | .error .noted _ => False
  | .error (.raised _) _ => True

/-- With no unterminated comment in mind, a strict parse ends with a value or raises a fault. -/
def Decides (α : Type) (parser : Parser α) : Prop :=
  ∀ (source : Option String) (state : State), state.openComment = none →
    Decided (parser ⟨source, .strict⟩ state)

theorem decides_bind {first : Parser α} {next : α → Parser β} (former : Decides α first)
    (latter : ∀ value, Decides β (next value)) : Decides β (first >>= next) := by
  intro source state fresh
  have start := former source state fresh
  rw [bind_run]
  cases outcome : first ⟨source, .strict⟩ state with
  | ok value later =>
    rw [outcome] at start
    exact latter value source later start
  | error halt later =>
    rw [outcome] at start
    cases halt with
    | noted => exact start
    | raised fault => exact trivial

theorem decides_accept (pattern : Pattern α) : Decides (Option α) (accept pattern) := by
  intro source state fresh
  cases present : pattern.read state.cursor.rest with
  | none => rw [accept_none present]; exact fresh
  | some found => rw [accept_some present]; exact fresh

theorem decides_tellOpen (start : Location) : Decides (Option Node) (tellOpen start) := by
  intro source state fresh
  rw [tellOpen_eq, fresh, if_neg (Option.some_ne_none start).symm]
  exact trivial

theorem decides_attempt {parser : Parser (Option α)} (decides : Decides (Option α) parser) :
    Decides (Option α) (attempt parser) := by
  intro source state fresh
  have start := decides source state fresh
  unfold attempt
  split
  · rename_i outcome
    rw [outcome] at start
    exact start.elim
  · exact start

theorem decides_collect {item : Parser (Option α)} (decides : Decides (Option α) item) :
    Decides (List α) (collect item) := by
  intro source state fresh
  fun_induction collect item ⟨source, .strict⟩ state with
  | case1 state later outcome | case3 state fault later outcome
  | case6 state value later outcome more =>
    have start := decides source state fresh
    rw [outcome] at start
    exact start
  | case2 state later outcome =>
    have start := decides source state fresh
    rw [outcome] at start
    exact start.elim
  | case4 state value later outcome less values last rest inductionHypothesis
  | case5 state value later outcome less halt last rest inductionHypothesis =>
    have start := decides source state fresh
    rw [outcome] at start
    have others := inductionHypothesis start
    rw [rest] at others
    exact others

theorem faultwise_decides : Faultwise Decides where
  pure _ _ _ fresh := fresh
  bind := decides_bind
  look _ _ _ fresh := fresh
  accept := decides_accept
  sourceName _ _ fresh := fresh
  record _ _ _ _ fresh := fresh
  report _ _ _ _ := trivial
  fail _ _ _ _ := trivial
  tellOpen := decides_tellOpen
  attempt := decides_attempt
  collect := decides_collect
  byLeft decides source state := decides state.left source state

/-- A strict parse gives up no construct without an end to the whole. -/
theorem closed_decides : Closed Decides := faultwise_decides.closed

variable {source : Option String} {state later last : State}

theorem Decides.fresh {parser : Parser α} (decides : Decides α parser) {value : α}
    (fresh : state.openComment = none) (run : parser ⟨source, .strict⟩ state = .ok value later) :
    later.openComment = none := by
  have start := decides source state fresh
  rwa [run] at start

/-! ### Nodes that were chosen -/

/-- Between the two states the node was chosen, and what may stand behind it was passed over. -/
def Chosen (source : Option String) (room : Room) (state last : State) (node : Node) : Prop :=
  ∃ text gap, state.Took (text ++ gap) last ∧
    Derives source room state.cursor.location text (gap ++ last.cursor.rest) node ∧
    (∀ character ∈ gap, room.skipsBehind node.kind character = true) ∧
    StopsAt (room.skipsBehind node.kind) last.cursor.rest

variable {room : Room} {text gap : List Char} {nodes : List Node}

theorem Chosen.left_lt {node : Node} (chosen : Chosen source room state last node) :
    last.left < state.left := by
  obtain ⟨text, gap, took, derives, -⟩ := chosen
  have filled := List.length_pos_iff.mpr derives.ne_nil
  rw [State.left, State.left, Cursor.left, Cursor.left, took.rest]
  simp only [List.length_append]
  omega

theorem Chosen.took {node : Node} (chosen : Chosen source room state last node) :
    ∃ text, state.Took text last := by
  obtain ⟨text, gap, took, -⟩ := chosen
  exact ⟨_, took⟩

theorem Chosen.stops {node : Node} (chosen : Chosen source .rules state last node) :
    StopsAt isBlank last.cursor.rest := by
  obtain ⟨text, gap, -, -, -, stops⟩ := chosen
  rwa [Room.skipsBehind_rules] at stops

theorem chosen_leaf {content : Leaf} (took : state.Took text later)
    (takes : room.TakesLeaf content text later.cursor.rest) (behind : later.Took gap last)
    (skipped : ∀ character ∈ gap, room.skipsBehind content.kind character = true)
    (stops : StopsAt (room.skipsBehind content.kind) last.cursor.rest) :
    Chosen source room state last
      (.leaf content ⟨state.cursor.location, later.cursor.location, source⟩) := by
  refine ⟨text, gap, took.trans behind, ?_, skipped, stops⟩
  rw [took.place, ← behind.rest]
  exact .leaf takes

/-- Reads items as they are chosen. Blocks in the items begin where no more text than the bound is
left. -/
def Items (source : Option String) (bound : Nat) (room : Room) (item : Parser (Option Node)) :
    Prop :=
  ∀ state node last, state.openComment = none → state.left ≤ bound →
    item ⟨source, .strict⟩ state = .ok (some node) last → Chosen source room state last node

theorem chosen_comment {node : Node}
    (run : comment ⟨source, .strict⟩ state = .ok (some node) last) :
    Chosen source room state last node := by
  obtain ⟨body, present, passed, rfl⟩ := found_of_comment run
  obtain ⟨gap, behind, blank, stops⟩ := passed.took
  have takes : room.TakesLeaf _ body.taken body.rest := .comment (takes_of_read present)
  exact chosen_leaf (.past present) takes behind blank stops

theorem chosen_declaration {node : Node} (comment : ¬ commentOpener <+: state.cursor.rest)
    (run : declaration ⟨source, .strict⟩ state = .ok (some node) last) :
    Chosen source .declarations state last node := by
  obtain ⟨property, mark, value, later, middle, named, marked, found, passed, ended, rfl⟩ :=
    found_of_declaration run
  obtain ⟨latter, valued, behindMark⟩ := taken_of_accept found
  obtain ⟨blanks, behindValue, blank, -⟩ := passed.took
  obtain ⟨ending, behindBlanks, semicolons, stops⟩ := ended.took
  have took := ((State.Took.past named).trans (.past marked)).trans behindMark
  have second := (colon.taken_append_rest marked).symm
  have third : mark.rest = latter ++ later.cursor.rest := behindMark.rest
  have name := takes_of_read named
  have colon := takes_of_read marked
  rw [second, third] at name
  rw [third] at colon
  have takes : Room.declarations.TakesLeaf _ _ later.cursor.rest :=
    .declaration (.of_ne_rules (took.rest ▸ comment) (by decide)) name colon valued
  refine chosen_leaf took takes (behindValue.trans behindBlanks) ?_ stops
  refine List.forall_mem_append.mpr ⟨fun character member => ?_, semicolons⟩
  exact Bool.or_eq_true_iff.mpr (.inr (blank character member))

theorem items_declarations (bound : Nat) :
    Items source bound .declarations (orComment declaration) := by
  intro state node last fresh fits run
  rcases found_of_orComment run with comment | ⟨absent, run⟩
  · exact chosen_comment comment
  · exact chosen_declaration absent run

/-! ### Blocks -/

/-- Between the two states the list was chosen, if it may end there. -/
def ListChosen (source : Option String) (room : Room) (state last : State) (nodes : List Node) :
    Prop :=
  ∃ text, state.Took text last ∧
    (EndsList last.cursor.rest →
      DerivesAll source room isBlank state.cursor.location text last.cursor.rest nodes)

/-- Reads lists as they are chosen, where less text than the bound is left. -/
def Lists (source : Option String) (bound : Nat) (room : Room) (body : Parser (List Node)) : Prop :=
  ∀ state nodes last, state.openComment = none → state.left < bound →
    StopsAt isBlank state.cursor.rest → body ⟨source, .strict⟩ state = .ok nodes last →
    ListChosen source room state last nodes

/-- Between the two states a block was chosen. -/
def BlockChosen (source : Option String) (room : Room) (state last : State) (nodes : List Node) :
    Prop :=
  ∃ inside, state.Took ('{' :: inside ++ ['}']) last ∧
    DerivesAll source room isBlank (state.cursor.location.after ['{']) inside
      ('}' :: last.cursor.rest) nodes

variable {bound : Nat}

theorem blockChosen_of_list {found brace : Match (List Char)}
    (opened : openBrace.read state.cursor.rest = some found)
    (list : ListChosen source room (state.past found) later nodes)
    (closed : closeBrace.read later.cursor.rest = some brace) :
    BlockChosen source room state (later.past brace) nodes := by
  obtain ⟨-, gap, parts, blank, -⟩ := takes_mark.mp (takes_of_read opened)
  obtain ⟨text, took, derives⟩ := list
  have start := State.Took.past opened
  have ending := State.Took.past closed
  rw [(takes_exactly.mp (takes_of_read closed)).2] at ending
  have behind : later.cursor.rest = '}' :: (later.past brace).cursor.rest := ending.rest
  have inner := derives (.inr ⟨_, behind.symm⟩)
  rw [start.place, parts, behind] at inner
  rw [parts] at start
  exact ⟨gap ++ text, (start.trans took).trans ending, .prepend blank inner⟩

theorem stopsAt_past_openBrace {found : Match (List Char)}
    (opened : openBrace.read state.cursor.rest = some found) :
    StopsAt isBlank (state.past found).cursor.rest :=
  (takes_mark.mp (takes_of_read opened)).2.choose_spec.2.2

theorem blockChosen_of_atBlock {name : AtKeyword} {body : Parser (List Node)}
    (run : atBlock name body ⟨source, .strict⟩ state = .ok nodes last)
    (lists : Lists source bound room body) (fresh : state.openComment = none)
    (fits : state.left ≤ bound) : BlockChosen source room state last nodes := by
  obtain ⟨found, later, brace, opened, inner, closed, rfl⟩ := ok_of_atBlock run
  have less := Nat.lt_of_lt_of_le (left_past_openBrace opened) fits
  have list := lists (state.past found) _ _ fresh less (stopsAt_past_openBrace opened) inner
  exact blockChosen_of_list opened list closed

theorem blockChosen_of_plainBlock (run : plainBlock ⟨source, .strict⟩ state = .ok nodes last)
    (lists : Lists source bound .declarations declarations) (fresh : state.openComment = none)
    (fits : state.left ≤ bound) : BlockChosen source .declarations state last nodes := by
  obtain ⟨found, later, opened, inner, ⟨brace, closed, rfl⟩ | ⟨-, reported⟩⟩ :=
    ok_of_plainBlock run
  · have less := Nat.lt_of_lt_of_le (left_past_openBrace opened) fits
    have list := lists (state.past found) _ _ fresh less (stopsAt_past_openBrace opened) inner
    exact blockChosen_of_list opened list closed
  · cases reported

theorem chosen_block {header : Header} {middle : State} {opening : List Char}
    (continues : room.Continues state.cursor.rest)
    (opens : room.Opens header opening middle.cursor.rest) (opened : state.Took opening middle)
    (block : BlockChosen source header.room middle later nodes) (behind : later.Took gap last)
    (blank : AllBlank gap) (stops : StopsAt isBlank last.cursor.rest) :
    Chosen source room state last
      (.block header ⟨state.cursor.location, later.cursor.location, source⟩ nodes) := by
  obtain ⟨inside, took, body⟩ := block
  have first : state.cursor.rest = opening ++ middle.cursor.rest := opened.rest
  have second : middle.cursor.rest = '{' :: inside ++ '}' :: (gap ++ last.cursor.rest) := by
    rw [took.rest, behind.rest, List.append_assoc]
    rfl
  rw [opened.place, ← Location.after_append, behind.rest] at body
  rw [first, second] at continues
  rw [second] at opens
  refine ⟨opening ++ '{' :: inside ++ ['}'], gap, ?_, .block continues opens body ?_, ?_, ?_⟩
  · simpa using (opened.trans took).trans behind
  · rw [took.place, opened.place, ← Location.after_append, List.append_assoc]
  · rwa [Node.kind, room.skipsBehind_block]
  · rwa [Node.kind, room.skipsBehind_block]

/-! ### Keyframes -/

theorem items_keyframes (lists : Lists source bound .declarations declarations) :
    Items source bound .keyframes (orComment keyframe) := by
  intro state node last fresh fits run
  rcases found_of_orComment run with comment | ⟨absent, run⟩
  · exact chosen_comment comment
  obtain ⟨offsets, present, children, later, body, passed, rfl⟩ := found_of_keyframe run
  obtain ⟨gap, behind, blank, stops⟩ := passed.took
  have took := State.Took.past present
  have block := blockChosen_of_plainBlock body lists fresh (Nat.le_trans took.left_le fits)
  have opens : Room.keyframes.Opens _ offsets.taken offsets.rest :=
    .keyframe (takes_of_read present)
  have continues : Room.keyframes.Continues state.cursor.rest := .of_ne_rules absent (by decide)
  exact chosen_block continues opens took block behind blank stops

/-! ### At-rules -/

section

variable {name : AtKeyword} {node : Node}

theorem chosen_statement {opening : Pattern Leaf} (form : name.form = .statement opening)
    (continues : Room.rules.Continues state.cursor.rest)
    (earlier : ∀ other ∈ name.earlier, other.Absent state.cursor.rest)
    (run : statement opening ⟨source, .strict⟩ state = .ok (some node) last) :
    Chosen source .rules state last node := by
  obtain ⟨found, present, passed, rfl⟩ := found_of_statement run
  obtain ⟨gap, behind, blank, stops⟩ := passed.took
  have took := State.Took.past present
  rw [took.rest] at continues earlier
  have takes := Room.TakesLeaf.statement continues form earlier (takes_of_read present)
  refine chosen_leaf took takes behind ?_ ?_
  · rwa [Room.skipsBehind_rules]
  · rwa [Room.skipsBehind_rules]

theorem chosen_conditional {opening : Pattern Header} {body : Parser (List Node)}
    (form : name.form = .conditional opening room) (lists : Lists source bound room body)
    (fresh : state.openComment = none) (fits : state.left ≤ bound)
    (continues : Room.rules.Continues state.cursor.rest)
    (earlier : ∀ other ∈ name.earlier, other.Absent state.cursor.rest)
    (run : conditional name opening body ⟨source, .strict⟩ state = .ok (some node) last) :
    Chosen source .rules state last node := by
  obtain ⟨found, present, children, later, inner, passed, rfl⟩ := found_of_conditional run
  obtain ⟨gap, behind, blank, stops⟩ := passed.took
  have took := State.Took.past present
  have takes := takes_of_read present
  have block := blockChosen_of_atBlock inner lists fresh (Nat.le_trans took.left_le fits)
  rw [← room_of_takes form takes] at block
  rw [took.rest] at earlier
  exact chosen_block continues (.conditional form earlier takes) took block behind blank stops

theorem chosen_keyframes (lists : Lists source bound .keyframes (collect (orComment keyframe)))
    (fresh : state.openComment = none) (fits : state.left ≤ bound)
    (continues : Room.rules.Continues state.cursor.rest)
    (run : keyframes ⟨source, .strict⟩ state = .ok (some node) last) :
    Chosen source .rules state last node := by
  obtain ⟨vendor, word, vendored, named, children, later, inner, passed, rfl⟩ :=
    found_of_keyframes run
  obtain ⟨gap, behind, blank, stops⟩ := passed.took
  have took := (State.Took.past vendored).trans (.past named)
  have block := blockChosen_of_atBlock inner lists fresh (Nat.le_trans took.left_le fits)
  have prefixed := takes_of_read vendored
  rw [← identifier.spaced.taken_append_rest named] at prefixed
  have opens := Room.Opens.keyframes prefixed (takes_of_read named)
  exact chosen_block continues opens took block behind blank stops

theorem chosen_atRule
    (run : atRule (rulesBelow bound) name ⟨source, .strict⟩ state = .ok (some node) last)
    (lists : ∀ room : Room, Lists source bound room (room.list bound))
    (fresh : state.openComment = none) (fits : state.left ≤ bound)
    (continues : Room.rules.Continues state.cursor.rest)
    (earlier : ∀ other ∈ name.earlier, other.Absent state.cursor.rest) :
    Chosen source .rules state last node := by
  cases form : name.form with
  | statement opening =>
    rw [atRule_of_statement form] at run
    exact chosen_statement form continues earlier run
  | conditional opening room =>
    rw [atRule_of_conditional form] at run
    exact chosen_conditional form (lists room) fresh fits continues earlier run
  | keyframes =>
    obtain rfl := eq_keyframes form
    exact chosen_keyframes (lists .keyframes) fresh fits continues run

/-- What is tried earlier stands in front of the keyword in the table. -/
theorem mem_of_mem_earlier {passed others : List AtKeyword} {other : AtKeyword}
    (parts : AtKeyword.table = passed ++ name :: others) (member : other ∈ name.earlier) :
    other ∈ passed := by
  rw [AtKeyword.earlier, parts, List.takeWhile_append] at member
  split at member
  · rwa [List.takeWhile_cons_of_neg (by simp), List.append_nil] at member
  · exact (List.takeWhile_sublist _).subset member

theorem chosen_firstAtRule
    (run : firstAtRule (rulesBelow bound) AtKeyword.table ⟨source, .strict⟩ state =
      .ok (some node) last)
    (lists : ∀ room : Room, Lists source bound room (room.list bound))
    (fresh : state.openComment = none) (fits : state.left ≤ bound)
    (continues : Room.rules.Continues state.cursor.rest) :
    Chosen source .rules state last node := by
  obtain ⟨passed, name, others, later, parts, absent, found, rfl⟩ := found_of_firstAtRule run
  have earlier : ∀ other ∈ name.earlier, other.Absent state.cursor.rest :=
    fun other member => absent_of_atRule (absent other (mem_of_mem_earlier parts member))
  obtain ⟨text, gap, took, chosen⟩ := chosen_atRule found lists fresh fits continues earlier
  exact ⟨text, gap, ⟨took.rest, took.place, took.faults⟩, chosen⟩

end

/-! ### Rules -/

theorem chosen_rule {node : Node} (run : rule ⟨source, .strict⟩ state = .ok (some node) last)
    (lists : Lists source bound .declarations declarations) (fresh : state.openComment = none)
    (fits : state.left ≤ bound) (continues : Room.rules.Continues state.cursor.rest)
    (absent : ∀ name : AtKeyword, name.Absent state.cursor.rest) :
    Chosen source .rules state last node := by
  obtain ⟨text, present, children, later, body, passed, rfl⟩ := found_of_rule run
  obtain ⟨gap, behind, blank, stops⟩ := passed.took
  have took := State.Took.past present
  have block := blockChosen_of_plainBlock body lists fresh (Nat.le_trans took.left_le fits)
  rw [took.rest] at absent
  have opens : Room.rules.Opens _ text.taken text.rest := .rule absent (takes_of_read present)
  exact chosen_block continues opens took block behind blank stops

/-- A strict parse takes nothing for absent that it gave up. -/
theorem ok_of_attempt {parser : Parser (Option α)} {found : Option α}
    (decides : Decides (Option α) parser) (fresh : state.openComment = none)
    (run : attempt parser ⟨source, .strict⟩ state = .ok found last) :
    parser ⟨source, .strict⟩ state = .ok found last := by
  have start := decides source state fresh
  unfold attempt at run
  split at run
  · rename_i outcome
    rw [outcome] at start
    exact start.elim
  · exact run

theorem chosen_ruleOrAtRule {node : Node}
    (run : ruleOrAtRule (rulesBelow bound) ⟨source, .strict⟩ state = .ok (some node) last)
    (lists : ∀ room : Room, Lists source bound room (room.list bound))
    (fresh : state.openComment = none) (fits : state.left ≤ bound)
    (continues : Room.rules.Continues state.cursor.rest) :
    Chosen source .rules state last node := by
  rcases found_of_ruleOrAtRule run with found | ⟨later, tried, found⟩
  · exact chosen_firstAtRule found lists fresh fits continues
  · have decides := closed_decides.firstAtRule (closed_decides.rulesBelow bound) AtKeyword.table
    obtain ⟨rfl, missing⟩ := absent_of_firstAtRule (ok_of_attempt decides fresh tried)
    refine chosen_rule found (lists .declarations) fresh fits continues fun name => ?_
    exact absent_of_atRule (missing name (by cases name <;> decide))

theorem chosen_item {node : Node}
    (run : item (rulesBelow bound) ⟨source, .strict⟩ state = .ok (some node) last)
    (lists : ∀ room : Room, Lists source bound room (room.list bound))
    (fresh : state.openComment = none) (fits : state.left ≤ bound) :
    Chosen source .rules state last node := by
  rcases found_of_item run with comment | ⟨absent, more, run⟩
  · exact chosen_comment comment
  · refine chosen_ruleOrAtRule run lists fresh fits ⟨absent, fun _ ended => more ?_⟩
    exact Bool.or_eq_true_iff.mpr
      (ended.imp List.isEmpty_iff.mpr List.isPrefixOf_iff_prefix.mpr)

/-- A list of rules has no item only where it may end. -/
theorem endsList_of_item {nested : Parser (List Node)} {options : Options}
    (run : item nested options state = .ok none last) : EndsList state.cursor.rest :=
  (Bool.or_eq_true_iff.mp (absent_of_item run).2).imp List.isEmpty_iff.mp
    List.isPrefixOf_iff_prefix.mp

/-! ### Lists -/

/-- Behind each item stands what may be passed over there, and behind the last one there is no
item. -/
theorem chosen_collect {item : Parser (Option Node)} (decides : Decides (Option Node) item)
    (traceless : Traceless item) (items : Items source bound room item)
    (fresh : state.openComment = none) (fits : state.left ≤ bound)
    (run : collect item ⟨source, .strict⟩ state = .ok nodes last) :
    ∃ text, state.Took text last ∧ last.openComment = none ∧
      item ⟨source, .strict⟩ last = .ok none last ∧
      (EndsList last.cursor.rest → ∀ skips, StopsAt skips state.cursor.rest →
        DerivesAll source room skips state.cursor.location text last.cursor.rest nodes) := by
  fun_induction collect item ⟨source, .strict⟩ state generalizing nodes last with
  | case1 state later outcome =>
    cases run
    obtain rfl := traceless _ _ _ outcome
    exact ⟨[], .refl _, fresh, outcome, fun ending skips _ => .nil (List.forall_mem_nil _) ending⟩
  | case2 state later outcome =>
    have start := decides source state fresh
    rw [outcome] at start
    exact start.elim
  | case3 => cases run
  | case4 state node later outcome less nodes' last' rest inductionHypothesis =>
    cases run
    obtain ⟨text, gap, took, head, skipped, stops⟩ := items _ _ _ fresh fits outcome
    have shorter := Nat.le_trans (Nat.le_of_lt less) fits
    obtain ⟨tail, later, closed, ended, others⟩ :=
      inductionHypothesis (decides.fresh fresh outcome) shorter rest
    refine ⟨_, took.trans later, closed, ended, fun ending skips unskipped => ?_⟩
    -- the item has passed over the gap behind it, which stands in front of the others
    have behind := others ending _ stops
    rw [took.place, Location.after_append] at behind
    rw [later.rest, ← List.append_assoc] at head
    rw [took.rest, later.rest, List.append_assoc, ← List.append_assoc gap] at unskipped
    show DerivesAll source room skips _ ([] ++ (text ++ gap ++ tail)) _ _
    rw [List.append_assoc, ← List.append_assoc]
    exact .cons (List.forall_mem_nil _) unskipped head (behind.prepend skipped)
  | case5 => cases run
  | case6 state node later outcome more =>
    exact absurd (items _ _ _ fresh fits outcome).left_lt more

theorem lists_collect {item : Parser (Option Node)} (decides : Decides (Option Node) item)
    (traceless : Traceless item) (items : Items source bound room item) :
    Lists source bound room (collect item) := by
  intro state nodes last fresh less stops run
  obtain ⟨text, took, -, -, derives⟩ :=
    chosen_collect decides traceless items fresh (Nat.le_of_lt less) run
  exact ⟨text, took, fun ending => derives ending _ stops⟩

theorem lists_declarations (bound : Nat) : Lists source bound .declarations declarations :=
  lists_collect (closed_decides.orComment closed_decides.declaration)
    (traceless_orComment traceless_declaration) (items_declarations bound)

theorem lists_keyframes (bound : Nat) :
    Lists source bound .keyframes (collect (orComment keyframe)) :=
  lists_collect (closed_decides.orComment closed_decides.keyframe)
    (traceless_orComment traceless_keyframe) (items_keyframes (lists_declarations bound))

/-- Behind blanks, a list of rules is chosen up to where it may end. -/
theorem chosen_ruleList (lists : ∀ room : Room, Lists source bound room (room.list bound))
    (fresh : state.openComment = none) (fits : state.left ≤ bound)
    (run : ruleList (rulesBelow bound) ⟨source, .strict⟩ state = .ok nodes last) :
    ∃ text, state.Took text last ∧ EndsList last.cursor.rest ∧
      DerivesAll source .rules isBlank state.cursor.location text last.cursor.rest nodes := by
  obtain ⟨later, passed, run⟩ := ok_of_ruleList run
  obtain ⟨gap, start, blank, stops⟩ := passed.took
  have decides := closed_decides.item (closed_decides.rulesBelow bound)
  have items : Items source bound .rules (item (rulesBelow bound)) :=
    fun _ _ _ fresh fits run => chosen_item run lists fresh fits
  have shorter := Nat.le_trans start.left_le fits
  have fresh : later.openComment = none := passed.openComment_eq.trans fresh
  obtain ⟨text, took, -, nothing, derives⟩ :=
    chosen_collect decides (traceless_item _) items fresh shorter run
  have ending := endsList_of_item nothing
  have others := derives ending _ stops
  rw [start.place] at others
  exact ⟨gap ++ text, start.trans took, ending, others.prepend blank⟩

/-- Lists in blocks are read where less text is left, so the induction is on the bound. -/
theorem lists_room (bound : Nat) (room : Room) : Lists source bound room (room.list bound) := by
  induction bound using Nat.strongRecOn generalizing room with
  | ind bound inductionHypothesis =>
    cases room with
    | declarations => exact lists_declarations bound
    | keyframes => exact lists_keyframes bound
    | rules =>
      intro state nodes last fresh less stops run
      have run : rulesBelow bound ⟨source, .strict⟩ state = .ok nodes last := run
      rw [rulesBelow, if_pos less, rules_eq, byLeft] at run
      obtain ⟨text, took, -, derives⟩ :=
        chosen_ruleList (inductionHypothesis state.left less) fresh (Nat.le_refl _) run
      exact ⟨text, took, fun _ => derives⟩

/-- Whatever list of rules a strict parse ends with is chosen, up to where a list may end. -/
theorem chosen_rules (fresh : state.openComment = none)
    (run : rules ⟨source, .strict⟩ state = .ok nodes last) :
    ∃ text, state.Took text last ∧ EndsList last.cursor.rest ∧
      DerivesAll source .rules isBlank state.cursor.location text last.cursor.rest nodes := by
  rw [rules_eq, byLeft] at run
  exact chosen_ruleList (lists_room _) fresh (Nat.le_refl _) run

end CssSyntax.Grammar

namespace CssSyntax

open Grammar

/-- The nodes of a strict parse are chosen, from the beginning of the text to where a list may
end. -/
theorem derivesAll_of_parse {css : String} {source : Option String} {sheet : Stylesheet}
    (read : parseWith css ⟨source, .strict⟩ = .ok sheet) :
    ∃ text rest, css.toList = text ++ rest ∧ EndsList rest ∧
      DerivesAll source .rules isBlank (.ofPrefix []) text rest sheet.rules := by
  obtain ⟨nodes, last, run, rfl⟩ := ok_of_parseWith read
  obtain ⟨text, took, ending, derives⟩ := chosen_rules rfl run
  exact ⟨text, _, took.rest, ending, derives⟩

end CssSyntax
