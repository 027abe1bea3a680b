/-
This file says which reading the grammar chooses for the text ahead.

A list tries its readings in a fixed order, so a reading is chosen when its own pattern matches and
those before it find nothing. `TakesLeaf` and `Opens` say that for nodes without and with a block,
for each kind of list, and the parser of a list item keeps to what they say. Both speak of the text
that is taken and of the rest behind it, because what is passed by may have looked at all of it.
-/

import CssSyntax.Proofs.Attempts
import CssSyntax.Proofs.Contracts

namespace CssSyntax

open Grammar Pattern

/-! ### The forms of at-rules -/

/-- How an at-rule is read. -/
inductive AtForm where
  /-- There is no block. -/
  | statement (opening : Pattern Leaf)
  /-- An opening and a block with a list of the kind. -/
  | conditional (opening : Pattern Header) (room : Room)
  /-- A keyword with a vendor, a name and a block of keyframes. -/
  | keyframes

namespace AtKeyword

/-- How the at-rule is read. -/
def form : AtKeyword → AtForm
  | .keyframes => .keyframes
  | .media => .conditional (Header.media <$> condition .media) .rules
  | .customMedia => .statement Grammar.customMedia
  | .supports => .conditional (Header.supports <$> condition .supports) .rules
  | .importRule => .statement (Leaf.importRule <$> payload .importRule)
  | .charset => .statement (Leaf.charset <$> payload .charset)
  | .namespaceRule => .statement (Leaf.namespaceRule <$> payload .namespaceRule)
  | .document => .conditional documentOpening .rules
  | .page => .conditional pageOpening .declarations
  | .host => .conditional ((fun _ => Header.host) <$> (keyword .host).spaced) .rules
  | .fontFace =>
    .conditional ((fun _ => Header.fontFace) <$> (keyword .fontFace).spaced) .declarations

/-- The at-rule is not ahead. -/
def Absent (name : AtKeyword) (input : List Char) : Prop :=
  match name.form with
  | .statement opening => opening.read input = none
  | .conditional opening _ => opening.read input = none
  | .keyframes => (vendorKeyword .keyframes).spaced.read input = none

end AtKeyword

variable {name : AtKeyword} {bound : Nat}

theorem atRule_of_statement {nested : Parser (List Node)} {opening : Pattern Leaf}
    (form : name.form = .statement opening) : atRule nested name = statement opening := by
  cases name <;> cases form <;> rfl

theorem atRule_of_conditional {opening : Pattern Header} {room : Room}
    (form : name.form = .conditional opening room) :
    atRule (rulesBelow bound) name = conditional name opening (room.list bound) := by
  cases name <;> cases form <;> rfl

theorem eq_keyframes (form : name.form = .keyframes) : name = .keyframes := by
  cases name <;> first | rfl | cases form

/-- An at-rule that is not ahead is called absent, and nothing is changed. -/
theorem atRule_of_absent {nested : Parser (List Node)} {options : Options} {state : State}
    (absent : name.Absent state.cursor.rest) :
    atRule nested name options state = .ok none state := by
  cases name with
  | keyframes =>
    rw [atRule, keyframes, here_bind, accept_bind_none absent]
    rfl
  | media | supports | document | host | page | fontFace =>
    rw [atRule, conditional, here_bind, accept_bind_none absent]
    rfl
  | customMedia | importRule | charset | namespaceRule =>
    rw [atRule, statement, here_bind, accept_bind_none absent]
    rfl

/-- An at-rule that is called absent is not ahead. -/
theorem absent_of_atRule {nested : Parser (List Node)} {options : Options} {state last : State}
    (run : atRule nested name options state = .ok none last) : name.Absent state.cursor.rest := by
  cases name with
  | keyframes => exact (absent_of_keyframes run).2
  | media | supports | document | host | page | fontFace => exact (absent_of_conditional run).2
  | customMedia | importRule | charset | namespaceRule => exact (absent_of_statement run).2

theorem givesNothing_of_absent {nested : Parser (List Node)} {input : List Char}
    (absent : name.Absent input) : GivesNothing (atRule nested name) input :=
  fun _ state ahead => ⟨none, state, atRule_of_absent (ahead ▸ absent), rfl, ahead, rfl⟩

/-- The at-rule with keyframes is tried before all others. -/
theorem nothing_earlier {input : List Char} :
    ∀ other ∈ AtKeyword.keyframes.earlier, other.Absent input :=
  fun _ absurdity => absurd absurdity List.not_mem_nil

theorem kind_of_statement {opening : Pattern Leaf} {content : Leaf} {text rest : List Char}
    (form : name.form = .statement opening) (takes : opening.Takes content text rest) :
    content.kind = .atRule name := by
  cases name <;> cases form
  case customMedia =>
    obtain ⟨word, query, rfl, -⟩ := customMediaForm_of_takes takes
    rfl
  case importRule | charset | namespaceRule =>
    obtain ⟨payload, rfl, -⟩ := takes_map.mp takes
    rfl

theorem kind_and_room_of_conditional {opening : Pattern Header} {room : Room} {header : Header}
    {text rest : List Char} (form : name.form = .conditional opening room)
    (takes : opening.Takes header text rest) :
    header.kind = .atRule name ∧ header.room = room := by
  cases name <;> cases form
  case media | supports | host | fontFace =>
    obtain ⟨found, rfl, -⟩ := takes_map.mp takes
    exact ⟨rfl, rfl⟩
  case document =>
    obtain ⟨vendor, former, latter, -, -, later⟩ := takes_bind.mp takes
    obtain ⟨inner, tail, -, -, -, -, finished⟩ := takes_run1_bind.mp later
    obtain ⟨rfl, -⟩ := takes_pure.mp finished
    exact ⟨rfl, rfl⟩
  case page =>
    obtain ⟨latter, -, later⟩ := takes_exactly_bind.mp takes
    obtain ⟨spaces, tail, -, -, -, ending⟩ := takes_run_bind.mp later
    obtain ⟨found, inner, last, -, -, finished⟩ := takes_bind.mp ending
    obtain ⟨rfl, -⟩ := takes_pure.mp finished
    exact ⟨rfl, rfl⟩

/-- The header of a block says what list its block has. -/
theorem room_of_takes {opening : Pattern Header} {room : Room} {header : Header}
    {text rest : List Char} (form : name.form = .conditional opening room)
    (takes : opening.Takes header text rest) : header.room = room :=
  (kind_and_room_of_conditional form takes).2

namespace Room

/-! ### Chosen readings -/

/-- The item ahead is no comment, and the list goes on. -/
def Continues (room : Room) (input : List Char) : Prop :=
  ¬ commentOpener <+: input ∧ (room = .rules → ¬ EndsList input)

theorem Continues.of_ne_rules {room : Room} {input : List Char} (absent : ¬ commentOpener <+: input)
    (other : room ≠ .rules) : room.Continues input :=
  ⟨absent, fun same => absurd same other⟩

/-- In a list of the kind, the text is taken for the leaf in front of the rest. -/
inductive TakesLeaf : Room → Leaf → List Char → List Char → Prop
  | comment {room : Room} {body text rest : List Char} (takes : commentBody.Takes body text rest) :
      TakesLeaf room (.comment (String.ofList body)) text rest
  | declaration {property former sign mark latter rest : List Char} {value : Option (List Char)}
      (continues : declarations.Continues (former ++ mark ++ latter ++ rest))
      (named : propertyName.Takes property former (mark ++ (latter ++ rest)))
      (marked : colon.Takes sign mark (latter ++ rest))
      (valued : (optional declarationValue).Takes value latter rest) :
      TakesLeaf .declarations
        (.declaration (uncommented property) (uncommented (trim (value.getD []))))
        (former ++ mark ++ latter) rest
  | statement {name : AtKeyword} {opening : Pattern Leaf} {content : Leaf} {text rest : List Char}
      (continues : rules.Continues (text ++ rest)) (form : name.form = .statement opening)
      (earlier : ∀ other ∈ name.earlier, other.Absent (text ++ rest))
      (takes : opening.Takes content text rest) : TakesLeaf .rules content text rest

/-- In a list of the kind, the text is taken for the opening of a block with the header, in front of
the rest. -/
inductive Opens : Room → Header → List Char → List Char → Prop
  | conditional {name : AtKeyword} {opening : Pattern Header} {inner : Room} {header : Header}
      {text rest : List Char} (form : name.form = .conditional opening inner)
      (earlier : ∀ other ∈ name.earlier, other.Absent (text ++ rest))
      (takes : opening.Takes header text rest) : Opens .rules header text rest
  | keyframes {vendor : Option String} {name former latter rest : List Char}
      (vendored : (vendorKeyword .keyframes).spaced.Takes vendor former (latter ++ rest))
      (named : identifier.spaced.Takes name latter rest) :
      Opens .rules (.keyframes vendor (String.ofList name)) (former ++ latter) rest
  | rule {value text rest : List Char} (absent : ∀ name : AtKeyword, name.Absent (text ++ rest))
      (takes : selectorText.Takes value text rest) :
      Opens .rules (.rule ((splitSelectors value).map String.ofList)) text rest
  | keyframe {found : List (List Char)} {text rest : List Char}
      (takes : (nonempty offsets).Takes found text rest) :
      Opens .keyframes (.keyframe (found.map String.ofList)) text rest

end Room

/-! ### Forms of what is taken -/

variable {room : Room} {content : Leaf} {header : Header} {text rest : List Char}

theorem written_of_statement {opening : Pattern Leaf} (form : name.form = .statement opening)
    (takes : opening.Takes content text rest) : content.WrittenAs text := by
  cases name <;> cases form
  case customMedia =>
    obtain ⟨word, query, rfl, written⟩ := customMediaForm_of_takes takes
    exact written
  case importRule | charset | namespaceRule =>
    obtain ⟨payload, rfl, taken⟩ := takes_map.mp takes
    exact takes_payload.mp taken

theorem written_of_conditional {opening : Pattern Header}
    (form : name.form = .conditional opening room) (takes : opening.Takes header text rest) :
    header.WrittenAs text := by
  cases name <;> cases form
  case media | supports =>
    obtain ⟨query, rfl, taken⟩ := takes_map.mp takes
    exact (takes_condition.mp taken).1
  case document => exact documentForm_of_takes takes
  case page => exact pageForm_of_takes takes
  case host | fontFace =>
    obtain ⟨word, rfl, taken⟩ := takes_map.mp takes
    exact (takes_bare.mp taken).2.1

theorem Room.TakesLeaf.written (takes : room.TakesLeaf content text rest) :
    content.WrittenAs text := by
  cases takes with
  | comment takes => exact commentForm_of_takes takes
  | declaration continues named marked valued => exact declarationForm_of_takes named marked valued
  | statement continues form earlier takes => exact written_of_statement form takes

theorem Room.Opens.written (opens : room.Opens header text rest) : header.WrittenAs text := by
  cases opens with
  | conditional form earlier takes => exact written_of_conditional form takes
  | keyframes vendored named => exact keyframesForm_of_takes vendored named
  | rule absent takes => exact ruleForm_of_takes takes
  | keyframe takes => exact keyframeForm_of_takes takes

/-! ### The readings are kept to -/

section

variable {bound : Nat} {gap inside : List Char} {trees : List Tree}

theorem gives_ruleOrAtRule_item {input : List Char} {asked : Option Node → Prop}
    (continues : Room.rules.Continues input)
    (gives : Gives (ruleOrAtRule (rulesBelow bound)) input asked rest) :
    Gives (Room.rules.item bound) input asked rest := by
  obtain ⟨comment, unended⟩ := continues
  obtain ⟨filled, brace⟩ := not_or.mp (unended rfl)
  exact gives_item comment filled brace gives

theorem gives_item_atRule {tree : Tree} {input : List Char}
    (continues : Room.rules.Continues input) (earlier : ∀ other ∈ name.earlier, other.Absent input)
    (gives : Gives (atRule (rulesBelow bound) name) input (Found tree) rest) :
    Gives (Room.rules.item bound) input (Found tree) rest := by
  refine gives_ruleOrAtRule_item continues (gives_ruleOrAtRule_atRule ?_ gives)
  exact fun other member => givesNothing_of_absent (earlier other member)

theorem gives_leaf (takes : room.TakesLeaf content text (gap ++ rest))
    (skipped : ∀ character ∈ gap, room.skipsBehind content.kind character = true)
    (stops : StopsAt (room.skipsBehind content.kind) rest) :
    Gives (room.item bound) (text ++ (gap ++ rest)) (Found (.leaf content)) rest := by
  cases takes with
  | comment takes => cases room <;> exact gives_orComment_comment takes skipped stops
  | declaration continues named marked valued =>
    refine gives_orComment continues.1 ?_
    simp only [List.append_assoc]
    exact gives_declaration named marked valued skipped stops
  | statement continues form earlier takes =>
    rw [Room.skipsBehind_rules] at skipped stops
    refine gives_item_atRule continues earlier ?_
    rw [atRule_of_statement form]
    exact gives_statement takes skipped stops

theorem gives_block
    (continues : room.Continues (text ++ ('{' :: inside ++ '}' :: (gap ++ rest))))
    (opens : room.Opens header text ('{' :: inside ++ '}' :: (gap ++ rest)))
    (list : GivesBody (header.room.list bound) trees inside (gap ++ rest)) (blank : AllBlank gap)
    (stops : StopsAt isBlank rest) :
    Gives (room.item bound) (text ++ ('{' :: inside ++ '}' :: (gap ++ rest)))
      (Found (.block header trees)) rest := by
  cases opens with
  | conditional form earlier takes =>
    rw [room_of_takes form takes] at list
    refine gives_item_atRule continues earlier ?_
    rw [atRule_of_conditional form]
    exact gives_conditional takes list blank stops
  | keyframes vendored named =>
    rw [List.append_assoc] at continues ⊢
    exact gives_item_atRule continues nothing_earlier
      (gives_keyframes vendored named list blank stops)
  | rule absent takes =>
    refine gives_ruleOrAtRule_item continues (gives_ruleOrAtRule_rule ?_ ?_)
    · exact fun name => givesNothing_of_absent (absent name)
    · exact gives_rule takes list blank stops
  | keyframe takes => exact gives_orComment continues.1 (gives_keyframe takes list blank stops)

end

end CssSyntax
