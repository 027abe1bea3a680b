/-
This file says what stands around the nodes of a stylesheet.

A strict parse that ends well passes over blanks, and over semicolons behind declarations, and over
nothing else. So the text in front of, between and behind the nodes of a list consists of these.
That holds in every block from its opening to its closing brace. At the top level it holds up to the
first closing brace that ends no block, or to the end of the text if there is none: the list of the
top level ends at such a brace like any other list, and no node reaches behind it.
-/

import CssSyntax.Proofs.Positions
import CssSyntax.Proofs.Soundness

namespace CssSyntax

open Grammar

/-! ### Gaps -/

/-- From the character `first` of the text to before the character `last`, the nodes follow one
another as items of a list of the kind. What is passed over in front of the first one is given; in
front of any other one, and behind the last one, it depends on the node that stands before. -/
def OnlyGaps (text : List Char) (room : Room) (skips : Char → Bool) (first last : Nat) :
    List Node → Prop
  | [] => first ≤ last ∧ ∀ character ∈ between text first last, skips character = true
  | node :: nodes => ∃ start stop, node.span.Covers text start stop ∧ first ≤ start ∧
      (∀ character ∈ between text first start, skips character = true) ∧
      OnlyGaps text room (room.skipsBehind node.kind) stop last nodes

/-- A block goes from the first opening brace of its range to the last character, which is a closing
brace. Between the braces its children follow one another. A leaf has no block. -/
def Node.Filled (text : List Char) : Node → Prop
  | .leaf _ _ => True
  | .block header span children => ∃ first brace last, span.Covers text first (last + 1) ∧
      first ≤ brace ∧ brace < last ∧ '{' ∉ between text first brace ∧ text[brace]? = some '{' ∧
      text[last]? = some '}' ∧ OnlyGaps text header.room isBlank (brace + 1) last children

variable {source : Option String} {room : Room} {skips : Char → Bool}
  {before text part after rest : List Char} {node : Node} {nodes : List Node}

theorem between_of_parts (parts : text = before ++ part ++ after) :
    between text before.length (before.length + part.length) = part := by
  rw [between, parts, ← List.length_append, List.take_left, List.drop_left]

theorem covers_of_derives (derives : Derives source room (.ofPrefix before) part rest node)
    (parts : text = before ++ part ++ after) :
    node.span.Covers text before.length (before.length + part.length) :=
  covers_of_span_eq derives.span_eq rfl derives.ne_nil parts

theorem onlyGaps_of_derivesAll
    (derives : DerivesAll source room skips (.ofPrefix before) part rest nodes)
    (parts : text = before ++ part ++ after) :
    OnlyGaps text room skips before.length (before.length + part.length) nodes := by
  induction nodes generalizing skips before part with
  | nil =>
    cases derives with
    | nil skipped ending =>
      refine ⟨Nat.le_add_right _ _, ?_⟩
      rwa [between_of_parts parts]
  | cons node nodes inductionHypothesis =>
    cases derives with
    | @cons _ _ _ gap inner tail _ _ _ skipped stops head others =>
      rw [Location.after_ofPrefix] at head others
      have atGap : text = before ++ gap ++ (inner ++ tail ++ after) := by
        rw [parts]
        simp only [List.append_assoc]
      have atNode : text = (before ++ gap) ++ inner ++ (tail ++ after) := by
        rw [parts]
        simp only [List.append_assoc]
      have atTail : text = (before ++ (gap ++ inner)) ++ tail ++ after := by
        rw [parts]
        simp only [List.append_assoc]
      have later := inductionHypothesis others atTail
      have stop : (before ++ gap).length + inner.length = (before ++ (gap ++ inner)).length := by
        simp only [List.length_append, Nat.add_assoc]
      have last : (before ++ (gap ++ inner)).length + tail.length =
          before.length + (gap ++ inner ++ tail).length := by
        simp only [List.length_append, Nat.add_assoc]
      rw [last, ← stop] at later
      refine ⟨_, _, covers_of_derives head atNode, ?_, ?_, later⟩
      · rw [List.length_append]
        exact Nat.le_add_right _ _
      · rwa [List.length_append, between_of_parts atGap]

/-! ### Openings have no brace -/

theorem brace_notMem_of_all {accepted : Char → Bool}
    (all : ∀ character ∈ text, accepted character = true) (other : accepted '{' = false) :
    '{' ∉ text := by
  intro member
  rw [all '{' member] at other
  cases other

theorem brace_notMem_of_blank (blank : AllBlank text) : '{' ∉ text :=
  brace_notMem_of_all blank (by decide)

theorem brace_notMem_written (name : AtKeyword) : '{' ∉ name.written := by
  cases name <;> decide

theorem brace_notMem_vendored {name : AtKeyword} {vendor : Option String} (good : IsVendor vendor) :
    '{' ∉ name.vendored vendor := by
  have word := brace_notMem_of_all (@identifier_of_vendor name vendor good) (by decide)
  exact fun member => word ((List.mem_cons.mp member).resolve_left (by decide))

theorem brace_notMem_decimal {digits : List Char} (good : IsDecimal digits) : '{' ∉ digits := by
  have digital : ∀ {figures : List Char}, IsDigits figures → '{' ∉ figures :=
    fun figures => brace_notMem_of_all figures.2 (by decide)
  cases good with
  | whole good => exact digital good
  | fraction good =>
    exact fun member => digital good ((List.mem_cons.mp member).resolve_left (by decide))
  | both good fine =>
    rw [List.mem_append, List.mem_cons]
    exact not_or.mpr ⟨digital good, not_or.mpr ⟨by decide, digital fine⟩⟩

theorem brace_notMem_offset {offset : List Char} (good : IsOffset offset) : '{' ∉ offset := by
  cases good with
  | number good => exact brace_notMem_decimal good
  | percentage good =>
    rw [List.mem_append]
    exact not_or.mpr ⟨brace_notMem_decimal good, by decide⟩
  | word present small => exact brace_notMem_of_all small (by decide)

theorem brace_notMem_offsets {offsets : List (List Char)} (form : OffsetsText offsets text) :
    '{' ∉ text := by
  induction form with
  | nil => exact List.not_mem_nil
  | bare good blank others inductionHypothesis =>
    simp only [List.mem_append, not_or]
    exact ⟨⟨brace_notMem_offset good, brace_notMem_of_blank blank⟩, inductionHypothesis⟩
  | comma good blank leading others inductionHypothesis =>
    simp only [List.mem_append, List.mem_cons, not_or]
    exact ⟨⟨⟨brace_notMem_offset good, brace_notMem_of_blank blank⟩, by decide,
      brace_notMem_of_blank leading⟩, inductionHypothesis⟩

/-- The brace that opens a block is the first one. -/
theorem Header.WrittenAs.braceless {header : Header} {opening : List Char}
    (form : header.WrittenAs opening) : '{' ∉ opening := by
  cases header with
  | rule selectors => exact form.2.1
  | keyframes vendor name =>
    obtain ⟨gap, tail, rfl, vendored, blank, named, trailing⟩ := form
    simp only [List.mem_append, not_or]
    exact ⟨⟨⟨brace_notMem_vendored vendored, brace_notMem_of_blank blank⟩,
      brace_notMem_of_all named.2 (by decide)⟩, brace_notMem_of_blank trailing⟩
  | keyframe offsets =>
    obtain ⟨-, values, -, texts⟩ := form
    exact brace_notMem_offsets texts
  | media query | supports condition =>
    obtain ⟨inner, rfl, -, brace, -⟩ := form
    simp only [List.mem_append, not_or]
    exact ⟨brace_notMem_written _, brace⟩
  | host | fontFace =>
    obtain ⟨gap, rfl, blank⟩ := form
    simp only [List.mem_append, not_or]
    exact ⟨brace_notMem_written _, brace_notMem_of_blank blank⟩
  | document vendor address =>
    obtain ⟨inner, rfl, vendored, -, brace, -⟩ := form
    simp only [List.mem_append, not_or]
    exact ⟨brace_notMem_vendored vendored, brace⟩
  | page selectors =>
    obtain ⟨spaces, inner, rfl, space, brace, -⟩ := form
    simp only [List.mem_append, not_or]
    refine ⟨⟨brace_notMem_written _, fun member => ?_⟩, brace⟩
    exact absurd (space '{' member) (by decide)

/-! ### Blocks are filled -/

/-- The character behind a part of the text. -/
theorem getElem?_of_parts {character : Char} (parts : text = before ++ character :: after) :
    text[before.length]? = some character := by
  rw [parts, List.getElem?_append_right (Nat.le_refl _), Nat.sub_self]
  rfl

mutual

theorem filled_of_derives {room : Room} {before part rest after : List Char} {node : Node}
    (derives : Derives source room (.ofPrefix before) part rest node)
    (parts : text = before ++ part ++ after) : ∀ inner ∈ node.preorder, inner.Filled text := by
  have covers := covers_of_derives derives parts
  cases derives with
  | leaf takes =>
    intro inner member
    rw [List.mem_singleton.mp member]
    exact trivial
  | @block _ _ _ opening inside _ header children continues opens body behind =>
    rw [Location.after_ofPrefix] at body
    -- the text cut at the opening, at either side of the brace and at the closing brace
    have atOpening : text = before ++ opening ++ ('{' :: (inside ++ '}' :: after)) := by
      rw [parts]
      simp
    have atBrace : text = (before ++ opening) ++ '{' :: (inside ++ '}' :: after) := atOpening
    have atInside : text = (before ++ (opening ++ ['{'])) ++ inside ++ '}' :: after := by
      rw [parts]
      simp
    have atClosing : text = (before ++ (opening ++ '{' :: inside)) ++ '}' :: after := by
      rw [parts]
      simp
    intro inner member
    rcases List.mem_cons.mp member with rfl | member
    · have first : (before ++ opening).length + 1 = (before ++ (opening ++ ['{'])).length := by
        simp only [List.length_append, List.length_singleton, Nat.add_assoc]
      have last : (before ++ (opening ++ ['{'])).length + inside.length =
          (before ++ (opening ++ '{' :: inside)).length := by
        simp only [List.length_append, List.length_cons, List.length_nil]
        omega
      have stop : before.length + (opening ++ '{' :: inside ++ ['}']).length =
          (before ++ (opening ++ '{' :: inside)).length + 1 := by
        simp only [List.length_append, List.length_cons, List.length_nil]
        omega
      have gaps := onlyGaps_of_derivesAll body atInside
      rw [last, ← first] at gaps
      rw [stop] at covers
      refine ⟨_, (before ++ opening).length, _, covers, ?_, ?_, ?_, getElem?_of_parts atBrace,
        getElem?_of_parts atClosing, gaps⟩
      · rw [List.length_append]
        exact Nat.le_add_right _ _
      · simp only [List.length_append, List.length_cons]
        omega
      · rw [List.length_append, between_of_parts atOpening]
        exact opens.written.braceless
    · exact filled_of_derivesAll body atInside inner member

theorem filled_of_derivesAll {room : Room} {skips : Char → Bool}
    {before part rest after : List Char} {nodes : List Node}
    (derives : DerivesAll source room skips (.ofPrefix before) part rest nodes)
    (parts : text = before ++ part ++ after) :
    ∀ inner ∈ Node.preorderAll nodes, inner.Filled text := by
  cases derives with
  | nil => exact fun inner absurdity => absurd absurdity List.not_mem_nil
  | @cons _ _ _ gap inside tail _ node nodes skipped stops head others =>
    rw [Location.after_ofPrefix] at head others
    have atNode : text = (before ++ gap) ++ inside ++ (tail ++ after) := by
      rw [parts]
      simp only [List.append_assoc]
    have atTail : text = (before ++ (gap ++ inside)) ++ tail ++ after := by
      rw [parts]
      simp only [List.append_assoc]
    intro inner member
    rcases List.mem_append.mp member with first | later
    · exact filled_of_derives head atNode inner first
    · exact filled_of_derivesAll others atTail inner later

end

/-! ### Stylesheets -/

/-- Behind blanks, the top-level nodes follow one another, and every block is filled by its
children. -/
structure Stylesheet.Filled (sheet : Stylesheet) (text : List Char) : Prop where
  topLevel : ∃ last, OnlyGaps text .rules isBlank 0 last sheet.rules
  blocks : ∀ entry ∈ sheet.nodes, entry.2.Filled text

theorem onlyGaps_of_parse {css : String} {source : Option String} {sheet : Stylesheet}
    (read : parseWith css ⟨source, .strict⟩ = .ok sheet) :
    ∃ last, last ≤ css.toList.length ∧ EndsList (css.toList.drop last) ∧
      OnlyGaps css.toList .rules isBlank 0 last sheet.rules := by
  obtain ⟨text, rest, parts, ending, derives⟩ := derivesAll_of_parse read
  have whole : css.toList = [] ++ text ++ rest := parts
  have gaps := onlyGaps_of_derivesAll derives whole
  rw [List.length_nil, Nat.zero_add] at gaps
  refine ⟨text.length, ?_, ?_, gaps⟩
  · rw [parts, List.length_append]
    exact Nat.le_add_right _ _
  · rwa [parts, List.drop_left]

/-- A strict parse that ends well loses nothing in front of, between and inside its nodes. -/
theorem filled_of_parse (css : String) (source : Option String) (sheet : Stylesheet)
    (read : parseWith css ⟨source, .strict⟩ = .ok sheet) : sheet.Filled css.toList where
  topLevel := by
    obtain ⟨last, -, -, gaps⟩ := onlyGaps_of_parse read
    exact ⟨last, gaps⟩
  blocks entry member := by
    obtain ⟨text, rest, parts, -, derives⟩ := derivesAll_of_parse read
    have whole : css.toList = [] ++ text ++ rest := parts
    exact filled_of_derivesAll derives whole entry.2 (Stylesheet.mem_preorderAll member)

/-- A rule with semicolons and a comment behind its declaration, and a rule in a conditional
block. -/
def filledSheet : Stylesheet :=
  .ofRules none
    [.block (.rule ["a"]) ⟨⟨1, 1⟩, ⟨1, 14⟩, none⟩
      [.leaf (.declaration "b" "c") ⟨⟨1, 3⟩, ⟨1, 6⟩, none⟩,
        .leaf (.comment "d") ⟨⟨1, 8⟩, ⟨1, 13⟩, none⟩],
      .block (.media "e") ⟨⟨2, 1⟩, ⟨2, 14⟩, none⟩
        [.block (.rule ["f"]) ⟨⟨2, 10⟩, ⟨2, 13⟩, none⟩ []]] []

theorem filled_filledSheet :
    parseWith "a{b:c;;/*d*/}\n@media e{f{}}" ⟨none, .strict⟩ = .ok filledSheet ∧
      filledSheet.Filled "a{b:c;;/*d*/}\n@media e{f{}}".toList := by
  have read : parseWith "a{b:c;;/*d*/}\n@media e{f{}}" ⟨none, .strict⟩ = .ok filledSheet := by cbv
  exact ⟨read, filled_of_parse _ _ _ read⟩

/-! ### What is not in any node -/

/-- The character with this index is in the range of none of the nodes. -/
def Outside (text : List Char) (nodes : List Node) (index : Nat) : Prop :=
  ∀ node ∈ nodes, ∀ first last, node.span.Covers text first last → index < first ∨ last ≤ index

theorem mem_between {first last index : Nat} {character : Char}
    (present : text[index]? = some character) (behind : first ≤ index) (less : index < last) :
    character ∈ between text first last := by
  refine List.mem_of_getElem? (i := index - first) ?_
  rw [between, List.getElem?_drop, Nat.add_sub_cancel' behind, List.getElem?_take_of_lt less,
    present]

theorem covers_of_onlyGaps {first last : Nat} (gaps : OnlyGaps text room skips first last nodes) :
    first ≤ last ∧
      ∀ node ∈ nodes, ∃ start stop, node.span.Covers text start stop ∧ stop ≤ last := by
  induction nodes generalizing skips first with
  | nil => exact ⟨gaps.1, List.forall_mem_nil _⟩
  | cons node nodes inductionHypothesis =>
    obtain ⟨start, stop, covers, behind, -, others⟩ := gaps
    obtain ⟨bounded, later⟩ := inductionHypothesis others
    refine ⟨?_, List.forall_mem_cons.mpr ⟨⟨start, stop, covers, bounded⟩, later⟩⟩
    exact Nat.le_trans (Nat.le_trans behind (Nat.le_of_lt covers.ordered)) bounded

theorem isBlank_of_onlyGaps {first last index : Nat} {character : Char}
    (gaps : OnlyGaps text .rules isBlank first last nodes) (behind : first ≤ index)
    (less : index < last) (present : text[index]? = some character)
    (outside : Outside text nodes index) : isBlank character = true := by
  induction nodes generalizing first with
  | nil => exact gaps.2 character (mem_between present behind less)
  | cons node nodes inductionHypothesis =>
    obtain ⟨start, stop, covers, -, blank, others⟩ := gaps
    rw [Room.skipsBehind_rules] at others
    rcases outside node List.mem_cons_self start stop covers with early | late
    · exact blank character (mem_between present behind early)
    · refine inductionHypothesis others late fun other member => ?_
      exact outside other (List.mem_cons_of_mem _ member)

/-- The top level of a strict parse ends at the end of the text or at a closing brace. Up to there
every character that is in no node is a blank, and no node goes farther. -/
theorem isBlank_of_outside (css : String) (sheet : Stylesheet) (read : parse css = .ok sheet) :
    ∃ last, last ≤ css.toList.length ∧ EndsList (css.toList.drop last) ∧
      (∀ node ∈ sheet.rules, ∃ start stop, node.span.Covers css.toList start stop ∧ stop ≤ last) ∧
      ∀ index character, index < last → css.toList[index]? = some character →
        Outside css.toList sheet.rules index → isBlank character = true := by
  obtain ⟨last, fits, ending, gaps⟩ := onlyGaps_of_parse read
  refine ⟨last, fits, ending, (covers_of_onlyGaps gaps).2, ?_⟩
  intro index character less present outside
  exact isBlank_of_onlyGaps gaps (Nat.zero_le _) less present outside

/-- A rule in front of a closing brace that ends no block. -/
def strayBraceSheet : Stylesheet :=
  .ofRules none
    [.block (.rule ["a"]) ⟨⟨1, 1⟩, ⟨1, 7⟩, none⟩
      [.leaf (.declaration "b" "c") ⟨⟨1, 3⟩, ⟨1, 6⟩, none⟩]] []

theorem isBlank_of_outside_strayBraceSheet :
    parse "a{b:c}\x7d" = .ok strayBraceSheet ∧
      ∃ last, last ≤ "a{b:c}\x7d".toList.length ∧ EndsList ("a{b:c}\x7d".toList.drop last) ∧
        (∀ node ∈ strayBraceSheet.rules, ∃ start stop,
          node.span.Covers "a{b:c}\x7d".toList start stop ∧ stop ≤ last) ∧
        ∀ index character, index < last → "a{b:c}\x7d".toList[index]? = some character →
          Outside "a{b:c}\x7d".toList strayBraceSheet.rules index → isBlank character = true := by
  have read : parse "a{b:c}\x7d" = .ok strayBraceSheet := by cbv
  exact ⟨read, isBlank_of_outside _ _ read⟩

/-- The brace itself is in no node, and it is no blank. -/
theorem not_isBlank_of_outside :
    ¬ ∀ (css : String) (sheet : Stylesheet), parse css = .ok sheet →
      ∀ index character, css.toList[index]? = some character →
        Outside css.toList sheet.rules index → isBlank character = true := by
  intro all
  have read : parse "a{b:c}\x7d" = .ok strayBraceSheet := by cbv
  have outside : Outside "a{b:c}\x7d".toList strayBraceSheet.rules 6 := by
    intro node member first last others
    obtain rfl := List.mem_singleton.mp member
    have covers : Span.Covers ⟨⟨1, 1⟩, ⟨1, 7⟩, none⟩ "a{b:c}\x7d".toList 0 6 :=
      ⟨by decide, by decide, by decide, by decide⟩
    obtain ⟨-, rfl⟩ := covers.unique others
    exact .inr (Nat.le_refl _)
  exact absurd (all _ _ read 6 '}' rfl outside) (by decide)

end CssSyntax
