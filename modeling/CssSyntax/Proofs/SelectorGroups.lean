/-
This file says at which commas a list of selectors is cut.

A list is meant to be cut at the commas that stand in no group. To tell those, one would count the
parentheses in front of a comma. The next parenthesis behind it is looked at instead, and in a text
whose groups are all closed this tells the same, with one exception: a comma in a group is taken for
one outside if another group opens behind it before its own is closed, as in `:is(a, :not(b))`.

Here a text is cut at chosen positions, so that commas can be told apart by where they stand.
-/

import CssSyntax.Proofs.Shapes

namespace CssSyntax

/-! ### Cuts at chosen positions -/

/-- The pieces of a text between the chosen positions. The characters there are left out. -/
def piecesAt : (Nat → Bool) → List Char → List (List Char)
  | _, [] => [[]]
  | chosen, first :: rest =>
    let later := piecesAt (fun index => chosen (index + 1)) rest
    if chosen 0 then [] :: later else later.modifyHead (first :: ·)

theorem piecesAt_cons (chosen : Nat → Bool) (first : Char) (rest : List Char) :
    piecesAt chosen (first :: rest) =
      if chosen 0 then [] :: piecesAt (fun index => chosen (index + 1)) rest
      else (piecesAt (fun index => chosen (index + 1)) rest).modifyHead (first :: ·) := rfl

variable {former latter : Nat → Bool} {text : List Char}

/-- Only the positions in the text count. -/
theorem piecesAt_congr (same : ∀ index < text.length, former index = latter index) :
    piecesAt former text = piecesAt latter text := by
  induction text generalizing former latter with
  | nil => rfl
  | cons first rest inductionHypothesis =>
    have later := inductionHypothesis fun index inside =>
      same (index + 1) (Nat.succ_lt_succ inside)
    rw [piecesAt_cons, piecesAt_cons, same 0 (Nat.succ_pos _), later]

theorem length_piecesAt_cons (chosen : Nat → Bool) (first : Char) (rest : List Char) :
    (piecesAt chosen (first :: rest)).length =
      (piecesAt (fun index => chosen (index + 1)) rest).length + (chosen 0).toNat := by
  rw [piecesAt_cons]
  cases chosen 0
  · exact List.length_modifyHead
  · rfl

theorem length_piecesAt_le (more : ∀ index, former index = true → latter index = true) :
    (piecesAt former text).length ≤ (piecesAt latter text).length := by
  induction text generalizing former latter with
  | nil => exact Nat.le_refl _
  | cons first rest inductionHypothesis =>
    rw [length_piecesAt_cons, length_piecesAt_cons]
    exact Nat.add_le_add (inductionHypothesis fun index => more (index + 1))
      (Bool.toNat_le_toNat (more 0))

/-- More positions make more pieces. -/
theorem eq_of_length_piecesAt (more : ∀ index, former index = true → latter index = true)
    (same : (piecesAt former text).length = (piecesAt latter text).length) :
    ∀ index < text.length, former index = latter index := by
  induction text generalizing former latter with
  | nil => exact fun index inside => absurd inside (Nat.not_lt_zero _)
  | cons first rest inductionHypothesis =>
    have moreLater : ∀ index, former (index + 1) = true → latter (index + 1) = true :=
      fun index => more (index + 1)
    rw [length_piecesAt_cons, length_piecesAt_cons] at same
    have longer : (piecesAt (fun index => former (index + 1)) rest).length ≤
        (piecesAt (fun index => latter (index + 1)) rest).length := length_piecesAt_le moreLater
    have here := Bool.toNat_le_toNat (more 0)
    intro index inside
    cases index with
    | zero =>
      have equal : (former 0).toNat = (latter 0).toNat := by omega
      revert equal
      cases former 0 <;> cases latter 0 <;> decide
    | succ index =>
      exact inductionHypothesis moreLater (by omega) index (Nat.lt_of_succ_lt_succ inside)

/-! ### Commas and groups -/

/-- Whether a comma stands at the position. -/
def commaAt (text : List Char) (index : Nat) : Bool := text[index]? == some ','

/-- The number of groups that are open at the position. -/
def depth (text : List Char) (index : Nat) : Nat :=
  (text.take index).count '(' - (text.take index).count ')'

/-- The first parenthesis of a text. -/
def nextParenthesis? (text : List Char) : Option Char :=
  text.find? fun character => character == '(' || character == ')'

/-- Whether a comma behind which no group is closed first stands at the position. -/
def cutsAt (text : List Char) (index : Nat) : Bool :=
  commaAt text index && !insideGroup (text.drop (index + 1))

/-- Whether a comma that is in no group stands at the position. -/
def bareComma (text : List Char) (index : Nat) : Bool :=
  commaAt text index && depth text index == 0

/-- Whether a comma behind which a group opens next stands at the position. -/
def openingComma (text : List Char) (index : Nat) : Bool :=
  commaAt text index && nextParenthesis? (text.drop (index + 1)) == some '('

theorem splitOutsideGroups_eq_piecesAt (text : List Char) :
    splitOutsideGroups text = piecesAt (cutsAt text) text := by
  induction text with
  | nil => rfl
  | cons first rest inductionHypothesis =>
    have here : cutsAt (first :: rest) 0 = true ↔ first = ',' ∧ insideGroup rest = false := by
      simp [cutsAt, commaAt]
    have later : (fun index => cutsAt (first :: rest) (index + 1)) = cutsAt rest := rfl
    rw [splitOutsideGroups, piecesAt_cons, later, inductionHypothesis]
    by_cases cut : first = ',' ∧ insideGroup rest = false
    · rw [if_pos cut, if_pos (here.mpr cut)]
    · rw [if_neg cut, if_neg fun chosen => cut (here.mp chosen)]

/-! ### Texts whose groups are closed -/

/-- Every group of the text is closed, and no group is closed that is not open. -/
structure Balanced (text : List Char) : Prop where
  opened : ∀ index ≤ text.length, (text.take index).count ')' ≤ (text.take index).count '('
  closed : text.count ')' = text.count '('

theorem nextParenthesis?_cases (text : List Char) :
    nextParenthesis? text = none ∨ nextParenthesis? text = some '(' ∨
      nextParenthesis? text = some ')' := by
  cases next : nextParenthesis? text with
  | none => exact .inl rfl
  | some parenthesis =>
    have either := List.find?_some next
    rw [Bool.or_eq_true, beq_iff_eq, beq_iff_eq] at either
    rcases either with rfl | rfl
    · exact .inr (.inl rfl)
    · exact .inr (.inr rfl)

theorem insideGroup_eq (text : List Char) :
    insideGroup text = (nextParenthesis? text == some ')') := rfl

/-- Where there is no next parenthesis, there is none to count. -/
theorem count_of_nextParenthesis? (none : nextParenthesis? text = none) :
    text.count '(' = 0 ∧ text.count ')' = 0 := by
  have absent := List.find?_eq_none.mp none
  constructor
  · exact List.count_eq_zero.mpr fun member => absent '(' member rfl
  · exact List.count_eq_zero.mpr fun member => absent ')' member rfl

theorem lt_of_commaAt {index : Nat} (comma : commaAt text index = true) : index < text.length :=
  (List.getElem?_eq_some_iff.mp (beq_iff_eq.mp comma)).1

/-- A comma parts the text in front of it from the text behind it. -/
theorem parts_of_commaAt {index : Nat} (comma : commaAt text index = true) :
    text = text.take index ++ ',' :: text.drop (index + 1) := by
  obtain ⟨inside, same⟩ := List.getElem?_eq_some_iff.mp (beq_iff_eq.mp comma)
  rw [← same, ← List.drop_eq_getElem_cons inside, List.take_append_drop]

namespace Balanced

variable {index : Nat} (balanced : Balanced text) (comma : commaAt text index = true)
include balanced

theorem count_le {front : List Char} (start : front <+: text) :
    front.count ')' ≤ front.count '(' := by
  have bound := balanced.opened front.length start.length_le
  rwa [← List.prefix_iff_eq_take.mp start] at bound

include comma

/-- A group that is closed next has been opened in front of the comma. -/
theorem depth_ne_zero (next : nextParenthesis? (text.drop (index + 1)) = some ')') :
    depth text index ≠ 0 := by
  obtain ⟨-, between, behind, parts, passed⟩ := List.find?_eq_some_iff_append.mp next
  have none : nextParenthesis? between = none :=
    List.find?_eq_none.mpr fun character member => by simpa using passed character member
  obtain ⟨noneOpened, noneClosed⟩ := count_of_nextParenthesis? none
  have start : text.take index ++ (',' :: between ++ [')']) <+: text := by
    refine ⟨behind, ?_⟩
    conv => rhs; rw [parts_of_commaAt comma, parts]
    simp
  have bound : (text.take index).count ')' + 1 ≤ (text.take index).count '(' := by
    simpa [List.count_append, noneOpened, noneClosed] using balanced.count_le start
  rw [depth]
  omega

/-- Behind the last parenthesis no group is open. -/
theorem depth_eq_zero (next : nextParenthesis? (text.drop (index + 1)) = none) :
    depth text index = 0 := by
  obtain ⟨noneOpened, noneClosed⟩ := count_of_nextParenthesis? next
  have closed := balanced.closed
  rw [parts_of_commaAt comma] at closed
  have same : (text.take index).count ')' = (text.take index).count '(' := by
    simpa [List.count_append, noneOpened, noneClosed] using closed
  rw [depth, same, Nat.sub_self]

end Balanced

/-- In a text whose groups are closed, a comma cuts if it is in no group or a group opens next. -/
theorem Balanced.cutsAt_eq (balanced : Balanced text) (index : Nat) :
    cutsAt text index = (bareComma text index || openingComma text index) := by
  rw [cutsAt, bareComma, openingComma, ← Bool.and_or_distrib_left]
  by_cases comma : commaAt text index = true
  · rw [comma, Bool.true_and, Bool.true_and]
    rcases nextParenthesis?_cases (text.drop (index + 1)) with next | next | next
    · rw [balanced.depth_eq_zero comma next, insideGroup_eq, next]
      rfl
    · rw [insideGroup_eq, next]
      simp
    · have depth := balanced.depth_ne_zero comma next
      rw [insideGroup_eq, next]
      simp [depth]
  · rw [Bool.eq_false_iff.mpr comma]
    rfl

/-! ### Blanks at the ends of a list -/

theorem trim_blanks_append {gap : List Char} (blank : AllBlank gap) (text : List Char) :
    trim (gap ++ text) = trim text := by
  rw [trim, trim, List.dropWhile_append_of_pos blank]

theorem trimEnd_append_blanks {gap : List Char} (blank : AllBlank gap) (text : List Char) :
    trimEnd (text ++ gap) = trimEnd text := by
  have reversed : ∀ character ∈ gap.reverse, isBlank character = true :=
    fun character member => blank character (List.mem_reverse.mp member)
  rw [trimEnd, trimEnd, List.reverse_append, List.dropWhile_append_of_pos reversed]

theorem trim_append_blanks {gap : List Char} (blank : AllBlank gap) (text : List Char) :
    trim (text ++ gap) = trim text := by
  rw [trim, trim, List.dropWhile_append]
  split
  · rename_i none
    rw [List.isEmpty_iff.mp none, ← List.append_nil gap, List.dropWhile_append_of_pos blank]
    rfl
  · exact trimEnd_append_blanks blank _

/-- A text is its trimmed text between blanks. -/
theorem exists_blanks_of_trim (text : List Char) :
    ∃ front behind, AllBlank front ∧ AllBlank behind ∧ text = front ++ (trim text ++ behind) := by
  have reversed := List.takeWhile_append_dropWhile (p := isBlank)
    (l := (text.dropWhile isBlank).reverse)
  refine ⟨text.takeWhile isBlank, ((text.dropWhile isBlank).reverse.takeWhile isBlank).reverse,
    fun character => accepted_of_mem_takeWhile, fun character member => ?_, ?_⟩
  · exact accepted_of_mem_takeWhile (List.mem_reverse.mp member)
  · rw [trim, trimEnd, ← List.reverse_append, reversed, List.reverse_reverse,
      List.takeWhile_append_dropWhile]

theorem insideGroup_append_blanks {gap : List Char} (blank : AllBlank gap) (text : List Char) :
    insideGroup (text ++ gap) = insideGroup text := by
  have outside : insideGroup gap = false := by
    refine Bool.eq_false_iff.mpr fun inside => ?_
    have member := List.mem_of_find?_eq_some (beq_iff_eq.mp inside)
    exact absurd (blank ')' member) (by decide)
  cases inside : insideGroup text with
  | true => exact insideGroup_append_of_true inside
  | false => exact insideGroup_append_of_false inside outside

/-- Blanks behind a list come to its last piece. -/
theorem splitOutsideGroups_append_blanks {gap : List Char} (blank : AllBlank gap)
    (text : List Char) :
    ∃ pieces last, splitOutsideGroups text = pieces ++ [last] ∧
      splitOutsideGroups (text ++ gap) = pieces ++ [last ++ gap] := by
  induction text with
  | nil =>
    have whole : ',' ∉ gap := fun member => absurd (blank ',' member) (by decide)
    have alone := splitOutsideGroups_append whole []
    rw [List.append_nil] at alone
    refine ⟨[], [], rfl, alone.trans ?_⟩
    rw [splitOutsideGroups, List.modifyHead_cons, List.append_nil]
    rfl
  | cons first rest inductionHypothesis =>
    obtain ⟨pieces, last, cut, longer⟩ := inductionHypothesis
    rw [List.cons_append, splitOutsideGroups, splitOutsideGroups,
      insideGroup_append_blanks blank, cut, longer]
    split
    · exact ⟨[] :: pieces, last, rfl, rfl⟩
    · cases pieces with
      | nil => exact ⟨[], first :: last, rfl, rfl⟩
      | cons head others => exact ⟨(first :: head) :: others, last, rfl, rfl⟩

/-- A list may be trimmed as a whole before it is cut, because its selectors are trimmed then. -/
theorem map_trim_splitOutsideGroups_trim (text : List Char) :
    (splitOutsideGroups (trim text)).map trim = (splitOutsideGroups text).map trim := by
  obtain ⟨front, behind, blankFront, blankBehind, parts⟩ := exists_blanks_of_trim text
  have whole : ',' ∉ front := fun member => absurd (blankFront ',' member) (by decide)
  have ending : (splitOutsideGroups (trim text ++ behind)).map trim =
      (splitOutsideGroups (trim text)).map trim := by
    obtain ⟨pieces, last, cut, longer⟩ := splitOutsideGroups_append_blanks blankBehind (trim text)
    rw [cut, longer, List.map_append, List.map_append, List.map_singleton, List.map_singleton,
      trim_append_blanks blankBehind]
  obtain ⟨head, others, cut⟩ :=
    List.exists_cons_of_ne_nil (splitOutsideGroups_ne_nil (trim text ++ behind))
  conv => rhs; rw [parts]
  rw [splitOutsideGroups_append whole, ← ending, cut, List.modifyHead_cons, List.map_cons,
    List.map_cons, trim_blanks_append blankFront]

/-! ### Lists of selectors -/

/-- Nothing in the text hides a comma, and no comment is in it. -/
structure Plain (text : List Char) : Prop where
  double : '"' ∉ text
  single : '\'' ∉ text
  uncommented : ¬ commentOpener <:+: text
  standIn : commaStandIn ∉ text

theorem hideQuotedCommas_of_notMem (double : '"' ∉ text) (single : '\'' ∉ text) :
    hideQuotedCommas text = text := by
  induction text with
  | nil => rw [hideQuotedCommas]
  | cons first rest inductionHypothesis =>
    rw [List.mem_cons, not_or] at double single
    rw [hideQuotedCommas_plain (Ne.symm double.1) (Ne.symm single.1),
      inductionHypothesis double.2 single.2]

theorem Plain.trimmed (plain : Plain text) : Plain (trim text) where
  double := notMem_trim plain.double
  single := notMem_trim plain.single
  uncommented inside := plain.uncommented (inside.trans (infix_of_trim text))
  standIn := notMem_trim plain.standIn

theorem Plain.removeComments_eq (plain : Plain text) : removeComments true text = text := by
  refine removeComments_of_uncommented fun before body after parts => plain.uncommented ?_
  rw [parts, List.append_assoc, List.append_assoc]
  exact ⟨before, body ++ (commentCloser ++ after), rfl⟩

/-- A plain list is cut and its pieces are trimmed. -/
theorem Plain.splitSelectors_eq (plain : Plain text) :
    splitSelectors text = (piecesAt (cutsAt text) text).map trim := by
  have restored : ∀ piece ∈ splitOutsideGroups (trim text),
      trim (piece.map restoreComma) = trim piece := fun piece member => by
    rw [restore_of_notMem (notMem_splitOutsideGroups plain.trimmed.standIn piece member)]
  rw [splitSelectors, plain.trimmed.removeComments_eq,
    hideQuotedCommas_of_notMem plain.trimmed.double plain.trimmed.single, List.map_congr_left restored,
    map_trim_splitOutsideGroups_trim, splitOutsideGroups_eq_piecesAt]

/-- The selectors between the chosen positions of a text. -/
def selectorsAt (chosen : Nat → Bool) (text : String) : List String :=
  ((piecesAt chosen text.toList).map trim).map String.ofList

/-- Where some positions are chosen, others can be chosen too with the same result only if they are
behind the text. -/
theorem selectorsAt_eq_iff {text : String}
    (more : ∀ index, former index = true → latter index = true) :
    selectorsAt latter text = selectorsAt former text ↔
      ∀ index < text.toList.length, former index = latter index := by
  constructor
  · intro same
    -- the same number of pieces leaves no room for one more cut
    have lengths := congrArg List.length same
    simp only [selectorsAt, List.length_map] at lengths
    exact eq_of_length_piecesAt more lengths.symm
  · intro same
    rw [selectorsAt, selectorsAt, piecesAt_congr same]

/-- A plain list whose groups are closed is cut at the commas in no group and at those in a group
behind which another one opens next. So it falls apart at the commas in no group exactly if there is
none of the others in a group. -/
theorem selectors_of_balanced {text : String} (plain : Plain text.toList)
    (balanced : Balanced text.toList) :
    selectors text =
        selectorsAt (fun index => bareComma text.toList index || openingComma text.toList index)
          text ∧
      (selectors text = selectorsAt (bareComma text.toList) text ↔
        ∀ index, openingComma text.toList index = true → depth text.toList index = 0) := by
  have split : selectors text = selectorsAt (cutsAt text.toList) text := by
    rw [selectors, selectorsAt, plain.splitSelectors_eq]
  have more : ∀ index, bareComma text.toList index = true → cutsAt text.toList index = true := by
    intro index bare
    rw [balanced.cutsAt_eq, bare, Bool.true_or]
  refine ⟨by rw [split, funext balanced.cutsAt_eq], ?_⟩
  rw [split, selectorsAt_eq_iff more]
  constructor
  · intro same index opening
    have comma := (Bool.and_eq_true_iff.mp opening).1
    have bare := same index (lt_of_commaAt comma)
    rw [balanced.cutsAt_eq, opening, Bool.or_true] at bare
    exact beq_iff_eq.mp (Bool.and_eq_true_iff.mp bare).2
  · intro outside index inside
    rw [balanced.cutsAt_eq, eq_comm, Bool.or_eq_left_iff_imp]
    intro opening
    rw [bareComma, (Bool.and_eq_true_iff.mp opening).1, outside index opening]
    rfl

theorem selectors_of_balanced_nestedGroups :
    let text := ":is(a), :not(:is(b, c), d)"
    (Plain text.toList ∧ Balanced text.toList) ∧
      selectors text = [":is(a)", ":not(:is(b, c), d)"] ∧
      selectors text = selectorsAt (bareComma text.toList) text := by
  intro text
  have plain : Plain text.toList := ⟨by decide, by decide, by decide +kernel, by decide⟩
  have balanced : Balanced text.toList := ⟨by decide, by decide⟩
  obtain ⟨cut, bare⟩ := selectors_of_balanced plain balanced
  have outside : ∀ index < text.toList.length,
      openingComma text.toList index = true → depth text.toList index = 0 := by decide
  refine ⟨⟨plain, balanced⟩, cut.trans (by decide), bare.mpr fun index opening => ?_⟩
  exact outside index (lt_of_commaAt (Bool.and_eq_true_iff.mp opening).1) opening

/-- A comma in a group cuts where another group opens behind it. -/
theorem not_selectors_eq_selectorsAt_bareComma :
    ¬ ∀ text : String, Plain text.toList → Balanced text.toList →
      selectors text = selectorsAt (bareComma text.toList) text := by
  intro always
  have plain : Plain ":is(a, :not(b))".toList :=
    ⟨by decide, by decide, by decide +kernel, by decide⟩
  have balanced : Balanced ":is(a, :not(b))".toList := ⟨by decide, by decide⟩
  have cut : selectors ":is(a, :not(b))" = [":is(a", ":not(b))"] := by cbv
  have whole : selectorsAt (bareComma ":is(a, :not(b))".toList) ":is(a, :not(b))" =
      [":is(a, :not(b))"] := by decide
  have same := always _ plain balanced
  rw [cut, whole] at same
  exact absurd same (by decide)

end CssSyntax
