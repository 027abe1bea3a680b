/-
This file says what blanks may stand behind the keyword of an at-rule.

Each opening passes over them in a way of its own: some take the blanks for a part of their text and
trim it, some skip them, and one asks for at least one of them. It comes to the same for all but one
at-rule, so any blanks do for a single space. `@page` skips spaces only. Other blanks count as
selectors for it, and where no selectors follow, they make one empty selector out of none.
-/

import CssSyntax.Proofs.Margins
import CssSyntax.Proofs.SelectorGroups

namespace CssSyntax

open Grammar Pattern

/-! ### Derivations at other places -/

theorem Node.kind_tree (node : Node) : node.tree.kind = node.kind := by
  cases node <;> rfl

variable {source : Option String}

mutual

/-- A derivation holds wherever its text stands. -/
theorem Derives.moved {room : Room} {place : Location} {text rest : List Char} {node : Node}
    (derives : Derives source room place text rest node) (other : Location) :
    ∃ moved, moved.tree = node.tree ∧ Derives source room other text rest moved := by
  cases derives with
  | @leaf _ _ _ _ content takes =>
    exact ⟨.leaf content ⟨other, other.after text, source⟩, rfl, .leaf takes⟩
  | @block _ _ _ opening _ _ header _ continues opens body behind =>
    obtain ⟨children, trees, derives⟩ := body.moved (other.after (opening ++ ['{']))
    refine ⟨.block header _ children, ?_, .block continues opens derives rfl⟩
    exact congrArg (Tree.block header) trees

theorem DerivesAll.moved {room : Room} {skips : Char → Bool} {place : Location}
    {text rest : List Char} {nodes : List Node}
    (derives : DerivesAll source room skips place text rest nodes) (other : Location) :
    ∃ moved, Node.trees moved = Node.trees nodes ∧
      DerivesAll source room skips other text rest moved := by
  cases derives with
  | nil skipped ending => exact ⟨[], rfl, .nil skipped ending⟩
  | @cons _ _ _ gap inside _ _ _ _ skipped stops head others =>
    obtain ⟨node, same, first⟩ := head.moved (other.after gap)
    obtain ⟨nodes, alike, later⟩ := others.moved (other.after (gap ++ inside))
    refine ⟨node :: nodes, by rw [Node.trees, Node.trees, same, alike], .cons skipped stops first ?_⟩
    rwa [← node.kind_tree, same, Node.kind_tree]

end

/-! ### Blanks behind a keyword -/

/-- The header that is read when the gap stands for the space behind the keyword. -/
def Header.behind (gap : List Char) (header : Header) : Header :=
  if header = .page [] ∧ ∃ character ∈ gap, character ≠ ' ' then .page [""] else header

/-- The tree that is read when the gap stands for the space behind the keyword. -/
def Tree.behind (gap : List Char) : Tree → Tree
  | .leaf content => .leaf content
  | .block header children => .block (header.behind gap) children

namespace Grammar

section

variable {α β : Type} {name : AtKeyword} {gap : List Char} {change : α → α} {pattern : Pattern α}

/-- What the pattern takes behind the keyword and a space, it takes behind the keyword and the gap
as well, and it finds the changed value. -/
def Stretches (name : AtKeyword) (gap : List Char) (change : α → α) (pattern : Pattern α) : Prop :=
  ∀ ⦃value text rest after⦄, pattern.Takes value text rest →
    text ++ rest = name.written ++ ' ' :: after →
      ∃ tail, text = name.written ++ ' ' :: tail ∧
        pattern.Takes (change value) (name.written ++ (gap ++ tail)) rest

theorem trimmed_gap (blank : AllBlank gap) (tail : List Char) :
    trimmed (gap ++ tail) = trimmed (' ' :: tail) := by
  have space : AllBlank [' '] := List.forall_mem_singleton.mpr (by decide)
  rw [trimmed, trimmed, trim_blanks_append blank, ← trim_blanks_append space tail]
  rfl

theorem notMem_gap {mark : Char} {tail : List Char} (blank : AllBlank gap)
    (unblank : isBlank mark = false) (absent : mark ∉ ' ' :: tail) : mark ∉ gap ++ tail := by
  refine List.not_mem_append (fun member => ?_) fun member => absent (List.mem_cons_of_mem _ member)
  rw [blank mark member] at unblank
  cases unblank

theorem exists_tail {inner rest after : List Char} (present : inner ≠ [])
    (parts : inner ++ rest = ' ' :: after) : ∃ tail, inner = ' ' :: tail := by
  obtain ⟨first, tail, rfl⟩ := List.exists_cons_of_ne_nil present
  obtain ⟨rfl, -⟩ := List.cons.inj parts
  exact ⟨tail, rfl⟩

theorem blanks_ne_nil {blanks rest after : List Char} (stops : StopsAt isBlank rest)
    (parts : blanks ++ rest = ' ' :: after) : blanks ≠ [] := by
  rintro rfl
  rw [List.nil_append] at parts
  rw [parts] at stops
  exact not_stopsAt_cons (by decide) stops

theorem stretches_condition (blank : AllBlank gap) (filled : gap ≠ []) :
    Stretches name gap id (condition name) := by
  intro value text rest after takes parts
  obtain ⟨⟨inner, rfl, present, absent, rfl⟩, stops⟩ := takes_condition.mp takes
  rw [List.append_assoc] at parts
  obtain ⟨tail, rfl⟩ := exists_tail present (List.append_cancel_left parts)
  refine ⟨tail, rfl, takes_condition.mpr ⟨⟨gap ++ tail, rfl, ?_, ?_, ?_⟩, stops⟩⟩
  · exact List.append_ne_nil_of_left_ne_nil filled _
  · exact notMem_gap blank (by decide) absent
  · exact (trimmed_gap blank tail).symm

theorem stretches_payload (blank : AllBlank gap) (filled : gap ≠ []) :
    Stretches name gap id (payload name) := by
  intro value text rest after takes parts
  obtain ⟨inner, rfl, present, absent, rfl⟩ := takes_payload.mp takes
  rw [List.append_assoc, List.append_assoc] at parts
  obtain ⟨tail, rfl⟩ := exists_tail present (List.append_cancel_left parts)
  refine ⟨tail ++ [';'], List.append_assoc _ _ _, takes_payload.mpr ⟨gap ++ tail, ?_, ?_, ?_, ?_⟩⟩
  · simp only [List.append_assoc]
  · exact List.append_ne_nil_of_left_ne_nil filled _
  · exact notMem_gap blank (by decide) absent
  · exact (trimmed_gap blank tail).symm

theorem stretches_bare (blank : AllBlank gap) : Stretches name gap id (keyword name).spaced := by
  intro value text rest after takes parts
  obtain ⟨rfl, ⟨blanks, rfl, good⟩, stops⟩ := takes_bare.mp takes
  rw [List.append_assoc] at parts
  have behind := List.append_cancel_left parts
  obtain ⟨tail, rfl⟩ := exists_tail (blanks_ne_nil stops behind) behind
  have later := (List.forall_mem_cons.mp good).2
  exact ⟨tail, rfl, takes_bare.mpr
    ⟨rfl, ⟨gap ++ tail, rfl, List.forall_mem_append.mpr ⟨blank, later⟩⟩, stops⟩⟩

theorem stretches_map {change : β → β} {make : α → β} (stretches : Stretches name gap id pattern)
    (same : ∀ value, change (make value) = make value) :
    Stretches name gap change (make <$> pattern) := by
  intro value text rest after takes parts
  obtain ⟨found, rfl, taken⟩ := takes_map.mp takes
  obtain ⟨tail, rfl, longer⟩ := stretches taken parts
  exact ⟨tail, rfl, takes_map.mpr ⟨found, same found, longer⟩⟩

theorem stopsAt_gap (blank : AllBlank gap) (filled : gap ≠ []) (behind : List Char) :
    StopsAt isIdentifierChar (gap ++ behind) := by
  obtain ⟨first, others, rfl⟩ := List.exists_cons_of_ne_nil filled
  refine Bool.eq_false_iff.mpr fun good => ?_
  have unblank := isBlank_of_isIdentifierChar good
  rw [blank first List.mem_cons_self] at unblank
  cases unblank

/-- A keyword that may have a vendor has none where a space follows it. -/
theorem bare_of_vendorKeyword {vendor : Option String} {text rest after : List Char}
    (takes : (vendorKeyword name).Takes vendor text rest)
    (parts : text ++ rest = name.written ++ ' ' :: after) :
    vendor = none ∧ text = name.written := by
  have good : IsVendor none := by rintro vendor ⟨⟩
  have bare : (vendorKeyword name).Takes none name.written (' ' :: after) :=
    takes_vendorKeyword good (by decide : isIdentifierChar ' ' = false)
  obtain ⟨rfl, rfl, -⟩ := takes_unique takes bare parts
  exact ⟨rfl, rfl⟩

theorem takes_vendorKeyword_gap (blank : AllBlank gap) (filled : gap ≠ []) (behind : List Char) :
    (vendorKeyword name).Takes none name.written (gap ++ behind) :=
  takes_vendorKeyword (by rintro vendor ⟨⟩) (stopsAt_gap blank filled behind)

theorem stretches_keyframes (blank : AllBlank gap) (filled : gap ≠ []) :
    Stretches name gap id (vendorKeyword name).spaced := by
  intro vendor text rest after takes parts
  obtain ⟨former, blanks, rfl, vendored, good, stops⟩ := takes_spaced.mp takes
  rw [List.append_assoc] at parts
  obtain ⟨rfl, rfl⟩ := bare_of_vendorKeyword vendored parts
  have behind := List.append_cancel_left parts
  obtain ⟨tail, rfl⟩ := exists_tail (blanks_ne_nil stops behind) behind
  have later := (List.forall_mem_cons.mp good).2
  refine ⟨tail, rfl, takes_spaced.mpr ⟨_, gap ++ tail, rfl, ?_, ?_, stops⟩⟩
  · rw [List.append_assoc]
    exact takes_vendorKeyword_gap blank filled _
  · exact List.forall_mem_append.mpr ⟨blank, later⟩

theorem stretches_documentOpening (blank : AllBlank gap) (filled : gap ≠ []) :
    Stretches .document gap (Header.behind gap) documentOpening := by
  intro header text rest after takes parts
  obtain ⟨vendor, former, latter, rfl, vendored, later⟩ := takes_bind.mp takes
  rw [List.append_assoc] at parts
  obtain ⟨rfl, rfl⟩ := bare_of_vendorKeyword vendored parts
  obtain ⟨inner, last, rfl, present, absent, stops, finished⟩ := takes_run1_bind.mp later
  obtain ⟨rfl, rfl⟩ := takes_pure.mp finished
  rw [List.append_nil] at parts ⊢
  obtain ⟨tail, rfl⟩ := exists_tail present (List.append_cancel_left parts)
  refine ⟨tail, rfl, takes_bind.mpr ⟨none, _, gap ++ tail, rfl, ?_, takes_run1_bind.mpr ?_⟩⟩
  · rw [List.append_assoc]
    exact takes_vendorKeyword_gap blank filled _
  · refine ⟨gap ++ tail, [], (List.append_nil _).symm, ?_, ?_, stops, takes_pure.mpr ⟨?_, rfl⟩⟩
    · exact List.append_ne_nil_of_left_ne_nil filled _
    · exact all_ne_iff.mpr (notMem_gap blank (by decide) (all_ne_iff.mp absent))
    · rw [trimmed_gap blank]
      exact if_neg fun both => by cases both.1

theorem stretches_customMedia (blank : AllBlank gap) (filled : gap ≠ []) :
    Stretches .customMedia gap id customMedia := by
  intro leaf text rest after takes parts
  obtain ⟨latter, rfl, later⟩ := takes_exactly_bind.mp takes
  obtain ⟨blanks, named, rfl, present, good, stops, query⟩ := takes_run1_bind.mp later
  have behind := List.append_cancel_left ((List.append_assoc _ _ _).symm.trans parts)
  rw [List.append_assoc] at behind
  obtain ⟨tail, rfl⟩ := exists_tail present behind
  refine ⟨tail ++ named, rfl, takes_exactly_bind.mpr ⟨_, rfl, takes_run1_bind.mpr ?_⟩⟩
  refine ⟨gap ++ tail, named, (List.append_assoc _ _ _).symm, ?_, ?_, stops, query⟩
  · exact List.append_ne_nil_of_left_ne_nil filled _
  · exact List.forall_mem_append.mpr ⟨blank, (List.forall_mem_cons.mp good).2⟩

/-! ### Blanks behind `@page` -/

theorem splitSelectors_blanks_append (blank : AllBlank gap) (text : List Char) :
    splitSelectors (gap ++ text) = splitSelectors text := by
  rw [splitSelectors, splitSelectors, trim_blanks_append blank]

theorem splitSelectors_of_blank (blank : AllBlank gap) : splitSelectors gap = [[]] := by
  have empty : splitSelectors [] = [[]] := by cbv
  rw [← empty, ← splitSelectors_blanks_append blank [], List.append_nil]

/-- The selectors of a page, of which there may be none, go to a brace or to the end. -/
theorem takes_pageSelectors {found : Option (List Char)} {text rest : List Char} :
    (optional selectorText).Takes found text rest ↔
      found = (if text = [] then none else some text) ∧ '{' ∉ text ∧
        StopsAt (fun character => character != '{') rest := by
  refine takes_optional_of_iff (fun _ _ _ => takes_selectorText) fun rest => ?_
  rw [selectorText, read_run1_eq_none_iff]
  exact (and_iff_right List.not_mem_nil).symm

/-- Spaces are passed over, and all text from the first other character on is selectors. -/
theorem takes_pageOpening_iff {header : Header} {text rest : List Char} :
    pageOpening.Takes header text rest ↔
      ∃ spaces inner, text = AtKeyword.page.written ++ (spaces ++ inner) ∧
        (∀ character ∈ spaces, (character == ' ') = true) ∧
        StopsAt (· == ' ') (inner ++ rest) ∧ '{' ∉ inner ∧
        StopsAt (fun character => character != '{') rest ∧
        header = .page (if inner = [] then [] else (splitSelectors inner).map String.ofList) := by
  constructor
  · intro takes
    obtain ⟨latter, rfl, later⟩ := takes_exactly_bind.mp takes
    obtain ⟨spaces, tail, rfl, good, stops, ending⟩ := takes_run_bind.mp later
    obtain ⟨found, inner, last, rfl, selectors, finished⟩ := takes_bind.mp ending
    obtain ⟨rfl, rfl⟩ := takes_pure.mp finished
    obtain ⟨rfl, absent, closes⟩ := takes_pageSelectors.mp selectors
    rw [List.append_nil] at stops ⊢
    refine ⟨spaces, inner, rfl, good, stops, absent, closes, ?_⟩
    split <;> rfl
  · rintro ⟨spaces, inner, rfl, good, stops, absent, closes, rfl⟩
    refine takes_exactly_bind.mpr ⟨_, rfl, takes_run_bind.mpr ⟨spaces, inner, rfl, good, stops, ?_⟩⟩
    have selectors := takes_pageSelectors.mpr ⟨rfl, absent, closes⟩
    refine takes_bind.mpr ⟨_, inner, [], (List.append_nil _).symm, selectors, takes_pure.mpr ?_⟩
    refine ⟨?_, rfl⟩
    split <;> rfl

/-- Behind a gap that is not spaces alone there are selectors, if only an empty one. -/
theorem takes_pageOpening_gap {tail inner rest : List Char} (blank : AllBlank gap)
    (other : ∃ character ∈ gap, character ≠ ' ') (good : AllBlank tail) (absent : '{' ∉ inner)
    (closes : StopsAt (fun character => character != '{') rest) :
    pageOpening.Takes (.page ((splitSelectors inner).map String.ofList))
      (AtKeyword.page.written ++ (gap ++ (tail ++ inner))) rest := by
  have parts := List.takeWhile_append_dropWhile (p := (· == ' ')) (l := gap)
  have spaces : ∀ character ∈ gap.takeWhile (· == ' '), (character == ' ') = true :=
    List.all_eq_true.mp List.all_takeWhile
  have stops := stopsAt_dropWhile (· == ' ') gap
  have lead : gap.dropWhile (· == ' ') ≠ [] := by
    intro empty
    obtain ⟨character, member, differ⟩ := other
    rw [empty, List.append_nil] at parts
    rw [← parts] at member
    exact differ (eq_of_beq (spaces character member))
  have blanks : AllBlank (gap.dropWhile (· == ' ') ++ tail) := by
    refine List.forall_mem_append.mpr ⟨fun character member => blank character ?_, good⟩
    exact (List.dropWhile_suffix _).subset member
  have filled : gap.dropWhile (· == ' ') ++ tail ++ inner ≠ [] :=
    List.append_ne_nil_of_left_ne_nil (List.append_ne_nil_of_left_ne_nil lead _) _
  refine takes_pageOpening_iff.mpr ⟨gap.takeWhile (· == ' '),
    gap.dropWhile (· == ' ') ++ tail ++ inner, ?_, spaces, ?_, ?_, closes, ?_⟩
  · rw [List.append_assoc, ← List.append_assoc (gap.takeWhile _), parts]
  · rw [List.append_assoc, List.append_assoc]
    exact stops.append lead _
  · refine List.not_mem_append (fun member => ?_) absent
    have brace := blanks _ member
    exact absurd brace (by decide)
  · rw [if_neg filled, splitSelectors_blanks_append blanks]

theorem stretches_pageOpening (blank : AllBlank gap) :
    Stretches .page gap (Header.behind gap) pageOpening := by
  intro header text rest after takes parts
  obtain ⟨spaces, inner, rfl, good, stops, absent, closes, rfl⟩ := takes_pageOpening_iff.mp takes
  rw [List.append_assoc, List.append_assoc] at parts
  have behind := List.append_cancel_left parts
  have present : spaces ≠ [] := by
    rintro rfl
    rw [List.nil_append] at behind
    rw [behind] at stops
    exact not_stopsAt_cons rfl stops
  obtain ⟨tail, rfl⟩ := exists_tail present behind
  have spaced := (List.forall_mem_cons.mp good).2
  refine ⟨tail ++ inner, rfl, ?_⟩
  by_cases other : ∃ character ∈ gap, character ≠ ' '
  · have blanks : AllBlank tail := fun character member => by
      rw [eq_of_beq (spaced character member)]
      decide
    have same : Header.behind gap
        (.page (if inner = [] then [] else (splitSelectors inner).map String.ofList)) =
          .page ((splitSelectors inner).map String.ofList) := by
      by_cases empty : inner = []
      · rw [if_pos empty, empty, splitSelectors_of_blank allBlank_nil]
        exact if_pos ⟨rfl, other⟩
      · rw [if_neg empty]
        refine if_neg fun both => splitSelectors_ne_nil inner ?_
        exact List.map_eq_nil_iff.mp (Header.page.inj both.1)
    rw [same]
    exact takes_pageOpening_gap blank other blanks absent closes
  · have alone : ∀ character ∈ gap, (character == ' ') = true := by
      intro character member
      refine beq_iff_eq.mpr (Classical.byContradiction fun differ => ?_)
      exact other ⟨character, member, differ⟩
    rw [Header.behind, if_neg fun both => other both.2]
    refine takes_pageOpening_iff.mpr ⟨gap ++ tail, inner, ?_, ?_, stops, absent, closes, rfl⟩
    · rw [List.append_assoc]
    · exact List.forall_mem_append.mpr ⟨alone, spaced⟩

/-! ### Blanks behind any keyword -/

theorem stretches_of_statement {opening : Pattern Leaf} (blank : AllBlank gap) (filled : gap ≠ [])
    (form : name.form = .statement opening) : Stretches name gap id opening := by
  cases name <;> cases form
  case customMedia => exact stretches_customMedia blank filled
  case importRule | charset | namespaceRule =>
    exact stretches_map (stretches_payload blank filled) fun _ => rfl

theorem stretches_of_conditional {opening : Pattern Header} {room : Room} (blank : AllBlank gap)
    (filled : gap ≠ []) (form : name.form = .conditional opening room) :
    Stretches name gap (Header.behind gap) opening := by
  cases name <;> cases form
  case media | supports =>
    exact stretches_map (stretches_condition blank filled) fun _ => if_neg fun both => by cases both.1
  case document => exact stretches_documentOpening blank filled
  case page => exact stretches_pageOpening blank
  case host | fontFace =>
    exact stretches_map (stretches_bare blank) fun _ => if_neg fun both => by cases both.1

end

end Grammar

/-! ### Nodes behind any keyword -/

section

variable {name : AtKeyword} {gap : List Char}

theorem Room.TakesLeaf.behind {content : Leaf} {text rest after : List Char}
    (takes : Room.rules.TakesLeaf content text rest) (blank : AllBlank gap) (filled : gap ≠ [])
    (kind : content.kind = .atRule name) (parts : text ++ rest = name.written ++ ' ' :: after) :
    ∃ tail, text = name.written ++ ' ' :: tail ∧
      Room.rules.TakesLeaf content (name.written ++ (gap ++ tail)) rest := by
  cases takes with
  | comment => cases kind
  | statement continues form earlier takes =>
    obtain rfl := Kind.atRule.inj ((kind_of_statement form takes).symm.trans kind)
    obtain ⟨tail, rfl, longer⟩ := stretches_of_statement blank filled form takes parts
    refine ⟨tail, rfl, .statement (continues_of_sign _ _) form ?_ longer⟩
    rw [List.append_assoc, List.append_assoc]
    exact absent_of_earlier (stopsAt_gap blank filled _)

theorem Room.Opens.behind {header : Header} {text rest after : List Char}
    (opens : Room.rules.Opens header text rest) (blank : AllBlank gap) (filled : gap ≠ [])
    (kind : header.kind = .atRule name) (parts : text ++ rest = name.written ++ ' ' :: after) :
    ∃ tail, text = name.written ++ ' ' :: tail ∧
      Room.rules.Opens (header.behind gap) (name.written ++ (gap ++ tail)) rest := by
  cases opens with
  | conditional form earlier takes =>
    obtain rfl := Kind.atRule.inj ((kind_and_room_of_conditional form takes).1.symm.trans kind)
    obtain ⟨tail, rfl, longer⟩ := stretches_of_conditional blank filled form takes parts
    refine ⟨tail, rfl, .conditional form ?_ longer⟩
    rw [List.append_assoc, List.append_assoc]
    exact absent_of_earlier (stopsAt_gap blank filled _)
  | keyframes vendored named =>
    obtain rfl := Kind.atRule.inj kind
    rw [List.append_assoc] at parts
    obtain ⟨tail, rfl, longer⟩ := stretches_keyframes blank filled vendored parts
    rw [Header.behind, if_neg fun both => by cases both.1]
    refine ⟨tail ++ _, List.append_assoc _ _ _, ?_⟩
    have opens := Room.Opens.keyframes longer named
    rwa [List.append_assoc, List.append_assoc] at opens
  | rule => cases kind

theorem Header.room_behind (gap : List Char) (header : Header) :
    (header.behind gap).room = header.room := by
  unfold Header.behind
  split
  · rename_i both
    rw [both.1]
    rfl
  · rfl

/-- An at-rule can be read behind the gap as it can be behind a space. -/
theorem Derives.behind {source : Option String} {place : Location} {text rest after : List Char}
    {node : Node} (derives : Derives source .rules place text rest node) (blank : AllBlank gap)
    (filled : gap ≠ []) (kind : node.kind = .atRule name)
    (parts : text ++ rest = name.written ++ ' ' :: after) :
    ∃ tail moved, text = name.written ++ ' ' :: tail ∧ moved.tree = node.tree.behind gap ∧
      Derives source .rules place (name.written ++ (gap ++ tail)) rest moved := by
  cases derives with
  | @leaf _ _ _ _ content takes =>
    obtain ⟨tail, rfl, longer⟩ := takes.behind blank filled kind parts
    exact ⟨tail, .leaf content _, rfl, rfl, .leaf longer⟩
  | @block _ _ _ opening inside _ header _ continues opens body behind =>
    have whole : opening ++ ('{' :: inside ++ '}' :: rest) = name.written ++ ' ' :: after := by
      rw [← parts]
      simp
    obtain ⟨tail, rfl, longer⟩ := opens.behind blank filled kind whole
    obtain ⟨children, trees, derived⟩ :=
      body.moved (place.after (name.written ++ (gap ++ tail) ++ ['{']))
    rw [← header.room_behind gap] at derived
    have block := Derives.block (continues_of_sign _ _) longer derived rfl
    have joined : name.written ++ (gap ++ tail) ++ '{' :: inside ++ ['}'] =
        name.written ++ (gap ++ (tail ++ '{' :: inside ++ ['}'])) := by
      simp only [List.append_assoc, List.cons_append]
    rw [joined] at block
    refine ⟨tail ++ '{' :: inside ++ ['}'], _, ?_, ?_, block⟩
    · simp only [List.append_assoc, List.cons_append]
    · exact congrArg (Tree.block _) trees

/-- The same goes for an at-rule that is alone. -/
theorem DerivesAll.behind {source : Option String} {place : Location}
    {text rest after : List Char} {nodes : List Node} {tree : Tree}
    (derives : DerivesAll source .rules isBlank place text rest nodes) (blank : AllBlank gap)
    (filled : gap ≠ []) (single : Node.trees nodes = [tree]) (kind : tree.kind = .atRule name)
    (parts : text ++ rest = name.written ++ ' ' :: after) :
    ∃ tail moved, text = name.written ++ ' ' :: tail ∧
      Node.trees moved = [tree.behind gap] ∧
        DerivesAll source .rules isBlank place (name.written ++ (gap ++ tail)) rest moved := by
  have sign (behind : List Char) : StopsAt isBlank (name.written ++ behind) :=
    (by decide : isBlank '@' = false)
  cases derives with
  | nil => cases single
  | @cons _ _ _ lead inner tail _ node nodes skipped stops head others =>
    obtain ⟨rfl, none⟩ := List.cons.inj single
    simp only [List.append_assoc] at parts
    obtain rfl : lead = [] := eq_nil_of_blank_front skipped (parts ▸ sign _)
    obtain ⟨after, moved, rfl, same, derived⟩ :=
      head.behind blank filled (node.kind_tree.symm.trans kind) parts
    obtain ⟨nodes, alike, later⟩ :=
      others.moved (place.after ([] ++ (name.written ++ (gap ++ after))))
    rw [Room.skipsBehind_rules, ← Room.skipsBehind_rules moved.kind] at later
    have opening : StopsAt isBlank (name.written ++ (gap ++ after) ++ (tail ++ rest)) := by
      rw [List.append_assoc]
      exact sign _
    have whole := DerivesAll.cons (List.forall_mem_nil _) opening derived later
    simp only [List.nil_append, List.append_assoc] at whole
    refine ⟨after ++ tail, _, ?_, ?_, whole⟩
    · simp
    · rw [Node.trees, same, alike, none]

end

/-! ### Stylesheets -/

/-- Any blanks do for the space behind the keyword of an at-rule that is alone in its stylesheet,
but for a page without selectors. -/
theorem parse_of_gap (name : AtKeyword) (gap css : String) {sheet : Stylesheet} {tree : Tree}
    (filled : gap ≠ "") (blank : AllBlank gap.toList)
    (read : parse ("@" ++ name.text ++ " " ++ css) = .ok sheet)
    (single : Node.trees sheet.rules = [tree]) (kind : tree.kind = .atRule name) :
    ∃ other, parse ("@" ++ name.text ++ gap ++ css) = .ok other ∧
      Node.trees other.rules = [tree.behind gap.toList] := by
  have given : ("@" ++ name.text ++ " " ++ css).toList = name.written ++ ' ' :: css.toList := by
    simp [AtKeyword.written]
  have asked : ("@" ++ name.text ++ gap ++ css).toList =
      name.written ++ (gap.toList ++ css.toList) := by
    simp [AtKeyword.written]
  have present : gap.toList ≠ [] := by simpa using filled
  obtain ⟨text, rest, parts, ending, derives⟩ := derivesAll_of_parse read
  rw [given] at parts
  obtain ⟨tail, moved, rfl, same, derived⟩ :=
    derives.behind blank present single kind parts.symm
  have behind : tail ++ rest = css.toList := by simpa using parts.symm
  refine ⟨_, strict_of_derives ?_ derived, same⟩
  rw [asked, ← behind]
  simp only [List.append_assoc]

/-- A page with one declaration, on one line or two. -/
def pageSheet (selectors : List String) (line column : Nat) : Stylesheet :=
  .ofRules none
    [.block (.page selectors) ⟨⟨1, 1⟩, ⟨line, column + 4⟩, none⟩
      [.leaf (.declaration "a" "b") ⟨⟨line, column⟩, ⟨line, column + 3⟩, none⟩]] []

theorem parse_pageSheet : parse "@page \x7ba:b\x7d" = .ok (pageSheet [] 1 8) := by cbv

theorem parse_of_gap_pageSheet :
    "\n\t" ≠ "" ∧ AllBlank "\n\t".toList ∧ parse "@page \x7ba:b\x7d" = .ok (pageSheet [] 1 8) ∧
      ∃ other, parse "@page\n\t\x7ba:b\x7d" = .ok other ∧
        Node.trees other.rules = [.block (.page [""]) [.leaf (.declaration "a" "b")]] := by
  have blank : AllBlank "\n\t".toList :=
    List.forall_mem_cons.mpr ⟨by decide, List.forall_mem_singleton.mpr (by decide)⟩
  have text : "@" ++ AtKeyword.page.text ++ "\n\t" ++ "\x7ba:b\x7d" = "@page\n\t\x7ba:b\x7d" := by
    decide
  have changed : Header.behind "\n\t".toList (.page []) = .page [""] :=
    if_pos ⟨rfl, '\n', by decide, by decide⟩
  have single : Node.trees (pageSheet [] 1 8).rules =
      [.block (.page []) [.leaf (.declaration "a" "b")]] := rfl
  obtain ⟨other, found, trees⟩ :=
    parse_of_gap .page "\n\t" "\x7ba:b\x7d" (by decide) blank parse_pageSheet single rfl
  rw [text] at found
  rw [Tree.behind, changed] at trees
  exact ⟨by decide, blank, parse_pageSheet, other, found, trees⟩

/-- A line break in front of the brace gives a page a selector. -/
theorem not_parse_of_gap_unchanged :
    ¬ ∀ (name : AtKeyword) (gap css : String) (sheet : Stylesheet) (tree : Tree),
      gap ≠ "" → AllBlank gap.toList → parse ("@" ++ name.text ++ " " ++ css) = .ok sheet →
        Node.trees sheet.rules = [tree] → tree.kind = .atRule name →
          ∃ other, parse ("@" ++ name.text ++ gap ++ css) = .ok other ∧
            Node.trees other.rules = [tree] := by
  intro always
  have blank : AllBlank "\n".toList := List.forall_mem_singleton.mpr (by decide)
  have broken : parse "@page\n\x7ba:b\x7d" = .ok (pageSheet [""] 2 2) := by cbv
  obtain ⟨other, found, trees⟩ :=
    always .page "\n" "\x7ba:b\x7d" _ _ (by decide) blank parse_pageSheet rfl rfl
  obtain rfl := Except.ok.inj (broken.symm.trans found)
  cases trees

end CssSyntax
