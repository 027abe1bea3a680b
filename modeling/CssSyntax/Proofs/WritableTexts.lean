/-
This file shows that texts that can be written come back from the functions that take texts apart.

Trimming and the removal of comments leave them alone, a quoted string is measured to its last
quote, and a list of selectors falls apart where it was joined.
-/

import CssSyntax.Proofs.Canonical
import CssSyntax.Proofs.Quotes

namespace CssSyntax

/-! ### Blanks at the ends -/

theorem dropWhile_isBlank {text : List Char} (first : ∀ head ∈ text.head?, isBlank head = false) :
    text.dropWhile isBlank = text := by
  cases text with
  | nil => rfl
  | cons head rest => exact dropWhile_of_stopsAt (first head rfl)

theorem trim_of_trimmed {text : List Char} (trimmed : Trimmed text) : trim text = text := by
  rw [trim, dropWhile_isBlank trimmed.1, trimEnd]
  have reversed : ∀ head ∈ text.reverse.head?, isBlank head = false := by
    rw [List.head?_reverse]
    exact trimmed.2
  rw [dropWhile_isBlank reversed, List.reverse_reverse]

/-- A space in front of a trimmed text is trimmed away. -/
theorem trim_space {text : List Char} (trimmed : Trimmed text) : trim (' ' :: text) = text := by
  have same : trim (' ' :: text) = trim text := by
    rw [trim, trim, List.dropWhile_cons_of_pos (by decide)]
  rw [same, trim_of_trimmed trimmed]

/-! ### Comments -/

theorem trimmed_of_unblank {text : List Char}
    (unblank : ∀ character ∈ text, isBlank character = false) : Trimmed text :=
  ⟨fun first head => unblank first (List.mem_of_mem_head? head),
    fun last final => unblank last (List.mem_of_mem_getLast? final)⟩

theorem uncommented_of_notMem {text : List Char} (absent : '/' ∉ text) : Uncommented text := by
  rintro before body after rfl
  exact absent (by simp [commentOpener])

theorem removeComments_of_uncommented {withSlashes : Bool} {text : List Char}
    (uncommented : Uncommented text) : removeComments withSlashes text = text := by
  rw [removeComments]
  split
  · rfl
  · rename_i before body after found
    exact absurd (eq_append_of_firstComment? found) (uncommented before body after)

/-! ### Quoted strings -/

theorem closingQuote?_of_quotedBody {quote : Char} {body : List Char} (mark : quote ≠ '\\')
    (quoted : QuotedBody quote body) (after : List Char) :
    closingQuote? quote (body ++ quote :: after) = some body.length := by
  induction quoted with
  | nil =>
    cases after with
    | nil => simp [closingQuote?]
    | cons second after => simp [closingQuote?, mark]
  | @plain character rest other unescaped others inductionHypothesis =>
    obtain ⟨second, tail, parts⟩ : ∃ second tail, rest ++ quote :: after = second :: tail :=
      List.exists_cons_of_ne_nil (by simp)
    rw [List.cons_append, parts, closingQuote?, if_neg fun both => unescaped both.1, if_neg other,
      ← parts, inductionHypothesis]
    rfl
  | @escaped rest others inductionHypothesis =>
    rw [List.cons_append, List.cons_append, closingQuote?, if_pos ⟨rfl, rfl⟩, inductionHypothesis]
    rfl
  | @backslash character rest other others inductionHypothesis =>
    rw [List.cons_append, List.cons_append, closingQuote?, if_neg fun both => other both.2,
      if_neg mark.symm, ← List.cons_append, inductionHypothesis]
    rfl

theorem length?_of_quotedBody {quoting : Quoting} {quote : Char} {body after : List Char}
    (mark : quote ≠ '\\') (quoted : QuotedBody quote body)
    (reached : ∃ tail, quoting.reach (body ++ quote :: after) = body ++ quote :: tail) :
    quoting.length? quote (quote :: body ++ quote :: after) = some (body.length + 2) := by
  obtain ⟨tail, line⟩ := reached
  rw [List.cons_append, Quoting.length?, if_pos rfl]
  simp only [line, closingQuote?_of_quotedBody mark quoted]
  rfl

theorem lengthAt?_of_quotedBody {quoting : Quoting} {quote : Char} {body after : List Char}
    (mark : quote = '"' ∨ quote = '\'') (quoted : QuotedBody quote body)
    (reached : ∃ tail, quoting.reach (body ++ quote :: after) = body ++ quote :: tail) :
    quoting.lengthAt? (quote :: body ++ quote :: after) = some (body.length + 2) := by
  rcases mark with rfl | rfl
  · rw [Quoting.lengthAt?, length?_of_quotedBody (by decide) quoted reached]
    rfl
  · rw [Quoting.lengthAt?, length?_of_quotedBody (by decide) quoted reached]
    rfl

theorem reach_value {quote : Char} {body after : List Char} (mark : quote = '"' ∨ quote = '\'')
    (line : ∀ character ∈ body, isLineBreak character = false) :
    ∃ tail, Quoting.value.reach (body ++ quote :: after) = body ++ quote :: tail := by
  have good : ∀ character ∈ body, (!isLineBreak character) = true := fun character member => by
    rw [line character member]
    rfl
  have unbroken : (!isLineBreak quote) = true := by
    rcases mark with rfl | rfl <;> decide
  refine ⟨after.takeWhile fun character => !isLineBreak character, ?_⟩
  rw [Quoting.reach, List.takeWhile_append_of_pos good]
  rw [List.takeWhile_cons_of_pos (p := fun character => !isLineBreak character) unbroken]

theorem lengthAt?_of_unquoted {quoting : Quoting} {first : Char} {rest : List Char}
    (double : first ≠ '"') (single : first ≠ '\'') : quoting.lengthAt? (first :: rest) = none := by
  rw [Quoting.lengthAt?, Quoting.length?, Quoting.length?, if_neg double, if_neg single]
  rfl

/-! ### Commas in strings -/

/-- A measured string and the text behind it, in the form in which the measure is used. -/
theorem take_append_drop_of_lengthAt? {quoting : Quoting} {first : Char} {rest : List Char}
    {size : Nat} (measured : quoting.lengthAt? (first :: rest) = some size) :
    (first :: rest).take size ++ rest.drop (size - 1) = first :: rest := by
  have long := (bounds_of_lengthAt? measured).1
  obtain ⟨size, rfl⟩ : ∃ shorter, size = shorter + 1 := ⟨size - 1, by omega⟩
  rw [Nat.add_sub_cancel, List.take_succ_cons, List.cons_append, List.take_append_drop]

theorem restoreComma_of_ne {character : Char} (other : character ≠ commaStandIn) :
    restoreComma character = character := if_neg other

theorem restore_of_notMem {text : List Char} (absent : commaStandIn ∉ text) :
    text.map restoreComma = text := by
  refine (List.map_congr_left fun character member => ?_).trans (List.map_id text)
  exact restoreComma_of_ne fun same => absent (same ▸ member)

theorem restoreComma_hideComma (character : Char) :
    restoreComma (hideComma character) = restoreComma character := by
  unfold hideComma
  split
  · rename_i comma
    rw [comma]
    rfl
  · rfl

/-- Hidden commas come out again, together with the stand-ins that were in the text before. -/
theorem restore_hideQuotedCommas (text : List Char) :
    (hideQuotedCommas text).map restoreComma = text.map restoreComma := by
  fun_induction hideQuotedCommas text with
  | case1 => rfl
  | case2 first rest size measured inductionHypothesis =>
    have string : (((first :: rest).take size).map hideComma).map restoreComma =
        ((first :: rest).take size).map restoreComma := by
      rw [List.map_map]
      exact List.map_congr_left fun character _ => restoreComma_hideComma character
    rw [List.map_append, string, inductionHypothesis, ← List.map_append,
      take_append_drop_of_lengthAt? measured]
  | case3 first rest unmeasured inductionHypothesis =>
    rw [List.map_cons, List.map_cons, inductionHypothesis]

/-! ### Commas in groups -/

theorem insideGroup_cons (first : Char) (rest : List Char) :
    insideGroup (first :: rest) =
      if first = '(' then false else if first = ')' then true else insideGroup rest := by
  rw [insideGroup, List.find?_cons]
  by_cases opens : first = '('
  · rw [if_pos opens, opens]
    rfl
  · by_cases closes : first = ')'
    · rw [if_neg opens, if_pos closes, closes]
      rfl
    · rw [if_neg opens, if_neg closes, beq_false_of_ne opens, beq_false_of_ne closes]
      rfl

theorem insideGroup_append_of_true {former latter : List Char}
    (inside : insideGroup former = true) : insideGroup (former ++ latter) = true := by
  induction former with
  | nil => cases inside
  | cons first rest inductionHypothesis =>
    rw [insideGroup_cons] at inside
    rw [List.cons_append, insideGroup_cons]
    split at inside
    · cases inside
    · split at inside
      · rename_i opens closes
        rw [if_neg opens, if_pos closes]
      · rename_i opens closes
        rw [if_neg opens, if_neg closes, inductionHypothesis inside]

theorem insideGroup_append_of_false {former latter : List Char}
    (outside : insideGroup former = false) (behind : insideGroup latter = false) :
    insideGroup (former ++ latter) = false := by
  induction former with
  | nil => exact behind
  | cons first rest inductionHypothesis =>
    rw [insideGroup_cons] at outside
    rw [List.cons_append, insideGroup_cons]
    split at outside
    · rename_i opens
      rw [if_pos opens]
    · split at outside
      · cases outside
      · rename_i opens closes
        rw [if_neg opens, if_neg closes, inductionHypothesis outside]

/-- Hidden commas are no parentheses. -/
theorem insideGroup_hideComma_cons (first : Char) {rest others : List Char}
    (same : insideGroup others = insideGroup rest) :
    insideGroup (hideComma first :: others) = insideGroup (first :: rest) := by
  rw [insideGroup_cons, insideGroup_cons, same]
  unfold hideComma
  split
  · rename_i comma
    rw [comma]
    rfl
  · rfl

theorem insideGroup_map_hideComma (text : List Char) {rest others : List Char}
    (same : insideGroup others = insideGroup rest) :
    insideGroup (text.map hideComma ++ others) = insideGroup (text ++ rest) := by
  induction text with
  | nil => exact same
  | cons first text inductionHypothesis =>
    exact insideGroup_hideComma_cons first inductionHypothesis

theorem insideGroup_hideQuotedCommas (text : List Char) :
    insideGroup (hideQuotedCommas text) = insideGroup text := by
  fun_induction hideQuotedCommas text with
  | case1 => rfl
  | case2 first rest size measured inductionHypothesis =>
    rw [insideGroup_map_hideComma _ inductionHypothesis, take_append_drop_of_lengthAt? measured]
  | case3 first rest unmeasured inductionHypothesis =>
    rw [insideGroup_cons, insideGroup_cons, inductionHypothesis]

/-! ### Selectors that stay whole -/

theorem hideQuotedCommas_string {quote : Char} {body rest : List Char}
    (mark : quote = '"' ∨ quote = '\'') (quoted : QuotedBody quote body) :
    hideQuotedCommas (quote :: body ++ quote :: rest) =
      (quote :: body ++ [quote]).map hideComma ++ hideQuotedCommas rest := by
  have measured : Quoting.selector.lengthAt? (quote :: body ++ quote :: rest) =
      some (body.length + 2) := lengthAt?_of_quotedBody mark quoted ⟨rest, rfl⟩
  have front : (quote :: body ++ quote :: rest).take (body.length + 2) =
      quote :: body ++ [quote] := by
    have parts : quote :: body ++ quote :: rest = (quote :: body ++ [quote]) ++ rest := by simp
    rw [parts]
    exact List.take_left' (by simp)
  have back : (body ++ quote :: rest).drop (body.length + 2 - 1) = rest := by
    rw [List.append_cons]
    exact List.drop_left' (by simp)
  rw [List.cons_append] at measured front ⊢
  rw [hideQuotedCommas]
  split
  · rename_i size found
    obtain rfl := Option.some.inj (found.symm.trans measured)
    rw [front, back]
  · rename_i absent
    cases absent.symm.trans measured

theorem hideQuotedCommas_plain {first : Char} {rest : List Char} (double : first ≠ '"')
    (single : first ≠ '\'') :
    hideQuotedCommas (first :: rest) = first :: hideQuotedCommas rest := by
  rw [hideQuotedCommas]
  split
  · rename_i size found
    rw [lengthAt?_of_unquoted double single] at found
    cases found
  · rfl

theorem splitOutsideGroups_append {front : List Char} (whole : ',' ∉ front) (rest : List Char) :
    splitOutsideGroups (front ++ rest) = (splitOutsideGroups rest).modifyHead (front ++ ·) := by
  induction front with
  | nil => exact (congrFun List.modifyHead_id _).symm
  | cons first front inductionHypothesis =>
    rw [List.mem_cons, not_or] at whole
    rw [List.cons_append, splitOutsideGroups, if_neg fun both => whole.1 both.1.symm,
      inductionHypothesis whole.2, List.modifyHead_modifyHead]
    rfl

theorem comma_notMem_map_hideComma (text : List Char) : ',' ∉ text.map hideComma := by
  intro member
  obtain ⟨character, -, same⟩ := List.mem_map.mp member
  unfold hideComma at same
  split at same
  · exact absurd same (by decide)
  · rename_i other
    exact other same

/-- A closed selector is not cut, and what comes behind it is cut as if nothing stood before it. -/
theorem splitOutsideGroups_closed {selector : List Char} (closed : ClosedSelector selector)
    (rest : List Char) :
    splitOutsideGroups (hideQuotedCommas selector ++ rest) =
      (splitOutsideGroups rest).modifyHead (hideQuotedCommas selector ++ ·) := by
  induction closed with
  | nil =>
    rw [hideQuotedCommas]
    exact (congrFun List.modifyHead_id _).symm
  | @string quote body others mark quoted closed inductionHypothesis =>
    rw [hideQuotedCommas_string mark quoted, List.append_assoc,
      splitOutsideGroups_append (comma_notMem_map_hideComma _), inductionHypothesis,
      List.modifyHead_modifyHead]
    simp only [Function.comp_def, List.append_assoc]
  | @comma others inside closed inductionHypothesis =>
    have hidden : insideGroup (hideQuotedCommas others ++ rest) = true :=
      insideGroup_append_of_true (by rw [insideGroup_hideQuotedCommas, inside])
    have uncut : ¬ (',' = ',' ∧ insideGroup (hideQuotedCommas others ++ rest) = false) := by
      rw [hidden]
      exact fun both => absurd both.2 (by decide)
    rw [hideQuotedCommas_plain (by decide) (by decide), List.cons_append, splitOutsideGroups,
      if_neg uncut, inductionHypothesis, List.modifyHead_modifyHead]
    rfl
  | @plain character others bare closed inductionHypothesis =>
    simp only [List.mem_cons, List.not_mem_nil, or_false, not_or] at bare
    rw [hideQuotedCommas_plain bare.1 bare.2.1, List.cons_append, splitOutsideGroups,
      if_neg fun both => bare.2.2 both.1, inductionHypothesis, List.modifyHead_modifyHead]
    rfl

theorem hideQuotedCommas_append {selector : List Char} (closed : ClosedSelector selector)
    (rest : List Char) :
    hideQuotedCommas (selector ++ rest) = hideQuotedCommas selector ++ hideQuotedCommas rest := by
  induction closed with
  | nil =>
    rw [hideQuotedCommas]
    rfl
  | @string quote body others mark quoted closed inductionHypothesis =>
    rw [List.append_assoc, hideQuotedCommas_string mark quoted, List.append_assoc,
      ← inductionHypothesis]
    exact hideQuotedCommas_string mark quoted
  | @comma others inside closed inductionHypothesis =>
    rw [List.cons_append, hideQuotedCommas_plain (by decide) (by decide),
      hideQuotedCommas_plain (by decide) (by decide), inductionHypothesis, List.cons_append]
  | @plain character others bare closed inductionHypothesis =>
    simp only [List.mem_cons, List.not_mem_nil, or_false, not_or] at bare
    rw [List.cons_append, hideQuotedCommas_plain bare.1 bare.2.1,
      hideQuotedCommas_plain bare.1 bare.2.1, inductionHypothesis, List.cons_append]

/-! ### Lists of selectors -/

theorem joined_cons_cons (first second : List Char) (others : List (List Char)) :
    joined (first :: second :: others) = first ++ ',' :: joined (second :: others) := rfl

theorem joined_eq_append (first : List Char) (others : List (List Char)) :
    ∃ tail, joined (first :: others) = first ++ tail := by
  cases others with
  | nil => exact ⟨[], (List.append_nil first).symm⟩
  | cons second others => exact ⟨_, joined_cons_cons first second others⟩

theorem insideGroup_joined {pieces : List (List Char)} (each : ∀ piece ∈ pieces, IsSelector piece) :
    insideGroup (joined pieces) = false := by
  induction pieces with
  | nil => rfl
  | cons first others inductionHypothesis =>
    have former := (each first List.mem_cons_self).outside
    have latter := inductionHypothesis fun piece member =>
      each piece (List.mem_cons_of_mem _ member)
    cases others with
    | nil => exact former
    | cons second others => exact insideGroup_append_of_false former latter

theorem splitOutsideGroups_joined {pieces : List (List Char)} (present : pieces ≠ [])
    (each : ∀ piece ∈ pieces, IsSelector piece) :
    splitOutsideGroups (hideQuotedCommas (joined pieces)) = pieces.map hideQuotedCommas := by
  induction pieces with
  | nil => exact absurd rfl present
  | cons first others inductionHypothesis =>
    have closed := (each first List.mem_cons_self).closed
    have remaining : ∀ piece ∈ others, IsSelector piece :=
      fun piece member => each piece (List.mem_cons_of_mem _ member)
    cases others with
    | nil =>
      have alone := splitOutsideGroups_closed closed []
      rw [List.append_nil] at alone
      rw [joined, alone, splitOutsideGroups, List.modifyHead_cons, List.append_nil]
      rfl
    | cons second others =>
      have outside : insideGroup (hideQuotedCommas (joined (second :: others))) = false := by
        rw [insideGroup_hideQuotedCommas, insideGroup_joined remaining]
      rw [joined_cons_cons, hideQuotedCommas_append closed,
        hideQuotedCommas_plain (by decide) (by decide),
        splitOutsideGroups_closed closed, splitOutsideGroups, if_pos ⟨rfl, outside⟩,
        inductionHypothesis (List.cons_ne_nil _ _) remaining, List.modifyHead_cons, List.append_nil]
      rfl

theorem trimmed_joined {pieces : List (List Char)} (each : ∀ piece ∈ pieces, Trimmed piece) :
    Trimmed (joined pieces) := by
  induction pieces with
  | nil => exact trimmed_of_unblank (List.forall_mem_nil _)
  | cons first others inductionHypothesis =>
    have former := each first List.mem_cons_self
    have latter := inductionHypothesis fun piece member =>
      each piece (List.mem_cons_of_mem _ member)
    cases others with
    | nil => exact former
    | cons second others =>
      rw [joined_cons_cons]
      refine ⟨fun head member => ?_, fun last member => ?_⟩
      · cases first with
        | nil =>
          obtain rfl := Option.some.inj member
          decide
        | cons letter first => exact former.1 head member
      · rw [List.getLast?_append, List.getLast?_cons] at member
        cases ending : (joined (second :: others)).getLast? with
        | none =>
          rw [ending] at member
          obtain rfl := Option.some.inj member
          decide
        | some letter =>
          rw [ending] at member
          obtain rfl := Option.some.inj member
          exact latter.2 letter ending

/-- A list of selectors falls apart where it was joined. -/
theorem splitSelectors_listed {selectors : List String} (list : IsSelectorList selectors) :
    (splitSelectors (listed selectors)).map String.ofList = selectors := by
  have each : ∀ piece ∈ selectors.map String.toList, IsSelector piece := by
    intro piece member
    obtain ⟨selector, inside, rfl⟩ := List.mem_map.mp member
    exact list.each selector inside
  have present : selectors.map String.toList ≠ [] := by
    intro none
    exact list.nonempty (congrArg joined none)
  have trimmed : Trimmed (listed selectors) :=
    trimmed_joined fun piece member => (each piece member).trimmed
  rw [splitSelectors, trim_of_trimmed trimmed, removeComments_of_uncommented list.uncommented,
    listed, splitOutsideGroups_joined present each]
  simp only [List.map_map]
  refine (List.map_congr_left fun selector member => ?_).trans (List.map_id selectors)
  have good := list.each selector member
  simp only [Function.comp_apply, restore_hideQuotedCommas, restore_of_notMem good.standIn,
    trim_of_trimmed good.trimmed, String.ofList_toList, id_eq]

end CssSyntax
