/-
This file holds what the patterns of the grammar take.

Most patterns take exactly the texts of one form, whatever comes behind, and then an equivalence
says so. Where the next character decides how far a pattern goes, the equivalence names the
condition on the rest.
-/

import CssSyntax.Grammar.AtRule
import CssSyntax.Proofs.Forms
import CssSyntax.Proofs.Quotes

namespace CssSyntax.Grammar

open Pattern

/-! ### Marks, comments and selectors -/

theorem all_ne_iff {mark : Char} {text : List Char} :
    (∀ character ∈ text, (character != mark) = true) ↔ mark ∉ text := by
  constructor
  · intro good member
    exact absurd (good mark member) (by simp)
  · rintro absent character member
    rw [bne_iff_ne]
    rintro rfl
    exact absent member

theorem takes_mark {mark : Char} {value text rest : List Char} :
    (spaced (exactly [mark])).Takes value text rest ↔
      value = [mark] ∧ ∃ gap, text = mark :: gap ∧ AllBlank gap ∧ StopsAt isBlank rest := by
  rw [takes_spaced]
  constructor
  · rintro ⟨former, gap, rfl, takes, blank, stops⟩
    obtain ⟨rfl, rfl⟩ := takes_exactly.mp takes
    exact ⟨rfl, gap, rfl, blank, stops⟩
  · rintro ⟨rfl, gap, rfl, blank, stops⟩
    exact ⟨[mark], gap, rfl, takes_exactly.mpr ⟨rfl, rfl⟩, blank, stops⟩

theorem takes_commentBody {body text rest : List Char} :
    commentBody.Takes body text rest ↔
      text = commentOpener ++ body ++ commentCloser ∧ ¬ commentCloser <:+: body := by
  rw [commentBody, takes_exactly_bind]
  constructor
  · rintro ⟨latter, rfl, later⟩
    obtain ⟨found, former, tail, rfl, takes, ending⟩ := takes_bind.mp later
    obtain ⟨last, rfl, finished⟩ := takes_exactly_bind.mp ending
    obtain ⟨rfl, rfl⟩ := takes_pure.mp finished
    obtain ⟨rfl, after, parts, first⟩ := takes_upTo.mp takes
    refine ⟨?_, (firstCut_pair_iff (by decide)).mp first⟩
    rw [List.append_nil, List.append_assoc]
  · rintro ⟨rfl, unclosed⟩
    refine ⟨body ++ commentCloser, by rw [List.append_assoc], takes_bind.mpr ?_⟩
    refine ⟨body, body, commentCloser, rfl, takes_upTo.mpr ?_, takes_exactly_bind.mpr ?_⟩
    · exact ⟨rfl, rest, rfl, (firstCut_pair_iff (by decide)).mpr unclosed⟩
    · exact ⟨[], (List.append_nil _).symm, takes_pure.mpr ⟨rfl, rfl⟩⟩

theorem commentForm_of_takes {body text rest : List Char}
    (takes : commentBody.Takes body text rest) :
    (Leaf.comment (String.ofList body)).WrittenAs text := by
  rw [Leaf.WrittenAs, String.toList_ofList]
  exact takes_commentBody.mp takes

theorem takes_selectorText {value text rest : List Char} :
    selectorText.Takes value text rest ↔
      value = text ∧ text ≠ [] ∧ '{' ∉ text ∧ StopsAt (fun character => character != '{') rest := by
  rw [selectorText, takes_run1, all_ne_iff]

theorem ruleForm_of_takes {value text rest : List Char}
    (takes : selectorText.Takes value text rest) :
    (Header.rule ((splitSelectors value).map String.ofList)).WrittenAs text := by
  obtain ⟨rfl, nonempty, absent, -⟩ := takes_selectorText.mp takes
  exact ⟨nonempty, absent, rfl⟩

/-! ### Properties and values -/

theorem takes_attribute {value : List Char} {text rest : List Char} :
    (do
      let _ ← exactly ['[']
      let _ ← run1 isAttributeChar
      exactly [']']).Takes value text rest ↔ value = [']'] ∧ IsAttribute text := by
  rw [takes_exactly_bind]
  constructor
  · rintro ⟨latter, rfl, later⟩
    obtain ⟨inner, tail, rfl, nonempty, good, stops, ending⟩ := takes_run1_bind.mp later
    obtain ⟨rfl, rfl⟩ := takes_exactly.mp ending
    exact ⟨rfl, inner, rfl, nonempty, good⟩
  · rintro ⟨rfl, inner, rfl, nonempty, good⟩
    refine ⟨inner ++ [']'], rfl, takes_run1_bind.mpr ⟨inner, [']'], rfl, nonempty, good, ?_, ?_⟩⟩
    · exact (by decide : isAttributeChar ']' = false)
    · exact takes_exactly.mpr ⟨rfl, rfl⟩

/-- Only a name is taken for the name of a property. -/
theorem isProperty_of_takes {value text rest : List Char}
    (takes : propertyName.Takes value text rest) :
    ∃ gap, text = value ++ gap ∧ IsProperty value ∧ AllBlank gap := by
  obtain ⟨former, gap, rfl, named, blank, -⟩ := takes_spaced.mp takes
  obtain ⟨rfl, found, parts⟩ := takes_text.mp named
  refine ⟨gap, rfl, ?_, blank⟩
  obtain ⟨star, first, others, rfl, starTakes, later⟩ := takes_bind.mp parts
  obtain ⟨name, bracket, rfl, nonempty, good, -, ending⟩ := takes_run1_bind.mp later
  have attributes : bracket = [] ∨ IsAttribute bracket := by
    rcases takes_optional.mp ending with ⟨mark, -, closed⟩ | ⟨-, nothing, -⟩
    · exact .inr (takes_attribute.mp closed).2
    · exact .inl nothing
  rcases takes_optional.mp starTakes with ⟨mark, -, starred⟩ | ⟨-, rfl, absent⟩
  · obtain ⟨-, rfl⟩ := takes_exactly.mp starred
    refine ⟨'*' :: name, bracket, rfl, List.cons_ne_nil _ _, ?_, ?_, attributes⟩
    · intro same
      exact nonempty (List.cons.inj same).2
    · exact List.forall_mem_cons.mpr ⟨by decide, good⟩
  · refine ⟨name, bracket, rfl, nonempty, ?_, good, attributes⟩
    rintro rfl
    exact read_exactly_eq_none.mp absent (List.prefix_append _ _)

theorem takes_groupSegment {value text rest : List Char} :
    groupSegment.Takes value text rest ↔
      value = text ∧ ∃ inner, text = '(' :: inner ++ [')'] ∧ ')' ∉ inner := by
  rw [groupSegment, takes_text]
  refine and_congr_right fun _ => ?_
  constructor
  · rintro ⟨found, takes⟩
    obtain ⟨latter, rfl, later⟩ := takes_exactly_bind.mp takes
    obtain ⟨mark, inner, tail, rfl, closed, ending⟩ := takes_bind.mp later
    obtain ⟨-, rfl⟩ := takes_exactly.mp ending
    obtain ⟨-, after, -, first⟩ := takes_upTo.mp closed
    exact ⟨inner, rfl, firstCut_singleton_iff.mp first⟩
  · rintro ⟨inner, rfl, closed⟩
    refine ⟨[')'], takes_exactly_bind.mpr ⟨inner ++ [')'], rfl, takes_bind.mpr ?_⟩⟩
    refine ⟨inner, inner, [')'], rfl, takes_upTo.mpr ?_, takes_exactly.mpr ⟨rfl, rfl⟩⟩
    exact ⟨rfl, rest, rfl, firstCut_singleton_iff.mpr closed⟩

theorem takes_bareSegment {value text rest : List Char} :
    bareSegment.Takes value text rest ↔
      value = text ∧ ∃ character, text = [character] ∧ character ≠ '}' ∧ character ≠ ';' := by
  rw [bareSegment, takes_text]
  refine and_congr_right fun _ => ?_
  constructor
  · rintro ⟨character, takes⟩
    obtain ⟨rfl, good⟩ := takes_one.mp takes
    refine ⟨character, rfl, ?_⟩
    simpa using good
  · rintro ⟨character, rfl, brace, semicolon⟩
    refine ⟨character, takes_one.mpr ⟨rfl, ?_⟩⟩
    simp [brace, semicolon]

theorem valueText_of_takes_segment {value text rest others : List Char}
    (takes : segment.Takes value text rest) (later : ValueText others) :
    ValueText (text ++ others) := by
  rcases takes_orElse.mp takes with quoted | ⟨-, unquoted⟩
  · obtain ⟨rfl, measured⟩ := takes_sized.mp quoted
    obtain ⟨quote, body, after, parts, length, mark, line⟩ := split_of_lengthAt? measured
    have split : value ++ rest = (quote :: body ++ [quote]) ++ after := by
      rw [parts, List.append_assoc]
      rfl
    have size : value.length = (quote :: body ++ [quote]).length := by
      rw [length]
      simp
    rw [(List.append_inj split size).1, List.append_assoc]
    exact .string mark line later
  · rcases takes_orElse.mp unquoted with group | ⟨-, bare⟩
    · obtain ⟨rfl, inner, rfl, closed⟩ := takes_groupSegment.mp group
      rw [List.append_assoc]
      exact .group closed later
    · obtain ⟨rfl, character, rfl, brace, semicolon⟩ := takes_bareSegment.mp bare
      exact .plain brace semicolon later

theorem valueText_of_takes_many {values : List (List Char)} {text rest : List Char}
    (takes : (many segment).Takes values text rest) : ValueText text := by
  induction values generalizing text with
  | nil =>
    rcases takes_many.mp takes with ⟨-, rfl, -⟩ | ⟨value, others, former, latter, absurdity, -⟩
    · exact .nil
    · cases absurdity
  | cons value others inductionHypothesis =>
    rcases takes_many.mp takes with ⟨absurdity, -⟩ |
      ⟨value, others, former, latter, same, rfl, -, first, later⟩
    · cases absurdity
    · obtain ⟨rfl, rfl⟩ := List.cons.inj same
      exact valueText_of_takes_segment first (inductionHypothesis later)

theorem valueText_of_takes {value text rest : List Char}
    (takes : declarationValue.Takes value text rest) : value = text ∧ ValueText text := by
  obtain ⟨pieces, -⟩ := takes_nonempty.mp takes
  obtain ⟨rfl, values, many⟩ := takes_text.mp pieces
  exact ⟨rfl, valueText_of_takes_many many⟩

theorem valueText_of_optional {value : Option (List Char)} {text rest : List Char}
    (takes : (optional declarationValue).Takes value text rest) :
    value.getD [] = text ∧ ValueText text := by
  rcases takes_optional.mp takes with ⟨found, rfl, present⟩ | ⟨rfl, rfl, -⟩
  · exact valueText_of_takes present
  · exact ⟨rfl, .nil⟩

theorem declarationForm_of_takes {property former sign mark latter first second third : List Char}
    {value : Option (List Char)} (named : propertyName.Takes property former first)
    (marked : colon.Takes sign mark second)
    (valued : (optional declarationValue).Takes value latter third) :
    (Leaf.declaration (uncommented property) (uncommented (trim (value.getD [])))).WrittenAs
      (former ++ mark ++ latter) := by
  obtain ⟨gap, rfl, good, blank⟩ := isProperty_of_takes named
  obtain ⟨-, lead, rfl, leading, -⟩ := takes_mark.mp marked
  obtain ⟨same, form⟩ := valueText_of_optional valued
  exact ⟨_, gap, lead, _, rfl, good, blank, leading, form, rfl, by rw [same]⟩

/-! ### Openings of at-rules -/

theorem takes_keyword {name : AtKeyword} {value text rest : List Char} :
    (keyword name).Takes value text rest ↔ value = name.written ∧ text = name.written :=
  takes_exactly

theorem takes_bare {name : AtKeyword} {value text rest : List Char} :
    (keyword name).spaced.Takes value text rest ↔
      value = name.written ∧ name.Bare text ∧ StopsAt isBlank rest := by
  rw [takes_spaced]
  constructor
  · rintro ⟨former, gap, rfl, takes, blank, stops⟩
    obtain ⟨rfl, rfl⟩ := takes_keyword.mp takes
    exact ⟨rfl, ⟨gap, rfl, blank⟩, stops⟩
  · rintro ⟨rfl, ⟨gap, rfl, blank⟩, stops⟩
    exact ⟨name.written, gap, rfl, takes_keyword.mpr ⟨rfl, rfl⟩, blank, stops⟩

theorem takes_condition {name : AtKeyword} {value : String} {text rest : List Char} :
    (condition name).Takes value text rest ↔
      name.Condition value text ∧ StopsAt (fun character => character != '{') rest := by
  rw [condition, keyword, takes_exactly_bind]
  constructor
  · rintro ⟨latter, rfl, later⟩
    obtain ⟨inner, tail, rfl, nonempty, good, stops, finished⟩ := takes_run1_bind.mp later
    obtain ⟨rfl, rfl⟩ := takes_pure.mp finished
    rw [List.append_nil]
    exact ⟨⟨inner, rfl, nonempty, all_ne_iff.mp good, rfl⟩, stops⟩
  · rintro ⟨⟨inner, rfl, nonempty, absent, rfl⟩, stops⟩
    refine ⟨inner, rfl, takes_run1_bind.mpr ⟨inner, [], (List.append_nil _).symm, nonempty, ?_⟩⟩
    exact ⟨all_ne_iff.mpr absent, stops, takes_pure.mpr ⟨rfl, rfl⟩⟩

theorem takes_payload {name : AtKeyword} {value : String} {text rest : List Char} :
    (payload name).Takes value text rest ↔ name.Payload value text := by
  rw [payload, keyword, takes_exactly_bind]
  constructor
  · rintro ⟨latter, rfl, later⟩
    obtain ⟨inner, tail, rfl, nonempty, good, -, ending⟩ := takes_run1_bind.mp later
    obtain ⟨last, rfl, finished⟩ := takes_exactly_bind.mp ending
    obtain ⟨rfl, rfl⟩ := takes_pure.mp finished
    refine ⟨inner, ?_, nonempty, all_ne_iff.mp good, rfl⟩
    rw [List.append_nil, ← List.append_assoc]
    rfl
  · rintro ⟨inner, rfl, nonempty, absent, rfl⟩
    refine ⟨inner ++ [';'], List.append_assoc .., takes_run1_bind.mpr ?_⟩
    refine ⟨inner, [';'], rfl, nonempty, all_ne_iff.mpr absent, rfl, takes_exactly_bind.mpr ?_⟩
    exact ⟨[], rfl, takes_pure.mpr ⟨rfl, rfl⟩⟩

theorem prefix_of_cutLast? {accepted : Char → Bool} {word ahead before after : List Char}
    (occurrence : cutLast? word (ahead.takeWhile accepted) = some (before, after)) :
    ∃ others, ahead = before ++ others ∧ ∀ character ∈ before, accepted character = true := by
  have parts := eq_append_of_cutLast? occurrence
  obtain ⟨others, whole⟩ := List.takeWhile_prefix (p := accepted) (l := ahead)
  refine ⟨word ++ after ++ others, ?_, fun character member => ?_⟩
  · rw [← whole, parts]
    simp only [List.append_assoc]
  · apply accepted_of_mem_takeWhile
    rw [parts, List.append_assoc]
    exact List.mem_append_left _ member

/-- Only a vendor and the keyword are taken for a keyword with a vendor. -/
theorem vendored_of_takes {name : AtKeyword} {vendor : Option String} {text rest : List Char}
    (takes : (vendorKeyword name).Takes vendor text rest) :
    text = name.vendored vendor ∧ IsVendor vendor := by
  obtain ⟨latter, rfl, later⟩ := takes_exactly_bind.mp takes
  obtain ⟨found, former, tail, rfl, measured, ending⟩ := takes_bind.mp later
  obtain ⟨last, rfl, finished⟩ := takes_exactly_bind.mp ending
  obtain ⟨rfl, rfl⟩ := takes_pure.mp finished
  obtain ⟨rfl, size⟩ := takes_sized.mp measured
  obtain ⟨⟨before, after⟩, occurrence, length⟩ := Option.map_eq_some_iff.mp size
  obtain ⟨others, same, good⟩ := prefix_of_cutLast? occurrence
  rw [List.append_assoc] at same
  obtain rfl := (List.append_inj same length.symm).1
  cases found with
  | nil =>
    refine ⟨by rw [List.append_nil]; rfl, ?_⟩
    rintro prefixed ⟨⟩
  | cons first found =>
    refine ⟨?_, ?_⟩
    · rw [List.append_nil, AtKeyword.vendored]
      simp
    · rintro prefixed equal
      obtain rfl := Option.some.inj equal
      rw [IsIdentifier, String.toList_ofList]
      exact ⟨List.cons_ne_nil _ _, good⟩

theorem keyframesForm_of_takes {vendor : Option String}
    {name former latter first second : List Char}
    (vendored : (vendorKeyword .keyframes).spaced.Takes vendor former first)
    (named : identifier.spaced.Takes name latter second) :
    (Header.keyframes vendor (String.ofList name)).WrittenAs (former ++ latter) := by
  obtain ⟨word, gap, rfl, keyword, blank, -⟩ := takes_spaced.mp vendored
  obtain ⟨letters, tail, rfl, identified, trailing, -⟩ := takes_spaced.mp named
  obtain ⟨rfl, good⟩ := vendored_of_takes keyword
  obtain ⟨rfl, nonempty, allowed, -⟩ := takes_run1.mp identified
  refine ⟨gap, tail, ?_, good, blank, ?_, trailing⟩
  · simp only [String.toList_ofList, List.append_assoc]
  · rw [IsIdentifier, String.toList_ofList]
    exact ⟨nonempty, allowed⟩

theorem documentForm_of_takes {header : Header} {text rest : List Char}
    (takes : documentOpening.Takes header text rest) : header.WrittenAs text := by
  obtain ⟨vendor, former, latter, rfl, vendored, later⟩ := takes_bind.mp takes
  obtain ⟨rfl, good⟩ := vendored_of_takes vendored
  obtain ⟨inner, tail, rfl, nonempty, absent, -, finished⟩ := takes_run1_bind.mp later
  obtain ⟨rfl, rfl⟩ := takes_pure.mp finished
  rw [List.append_nil]
  exact ⟨inner, rfl, good, nonempty, all_ne_iff.mp absent, rfl⟩

theorem pageForm_of_takes {header : Header} {text rest : List Char}
    (takes : pageOpening.Takes header text rest) : header.WrittenAs text := by
  obtain ⟨latter, rfl, later⟩ := takes_exactly_bind.mp takes
  obtain ⟨spaces, tail, rfl, good, -, ending⟩ := takes_run_bind.mp later
  obtain ⟨found, inner, last, rfl, selectors, finished⟩ := takes_bind.mp ending
  obtain ⟨rfl, rfl⟩ := takes_pure.mp finished
  rw [List.append_nil, ← List.append_assoc]
  have blank : ∀ character ∈ spaces, character = ' ' := fun character member =>
    eq_of_beq (good character member)
  refine ⟨spaces, inner, rfl, blank, ?_⟩
  rcases takes_optional.mp selectors with ⟨listed, rfl, present⟩ | ⟨rfl, rfl, -⟩
  · obtain ⟨rfl, nonempty, absent, -⟩ := takes_selectorText.mp present
    exact ⟨absent, (if_neg nonempty).symm⟩
  · exact ⟨List.not_mem_nil, rfl⟩

/-! ### Custom media queries -/

theorem takes_customQuery {query text rest : List Char} :
    customQuery.Takes query text rest ↔
      text = query ++ [';'] ∧ query ≠ [] ∧ '{' ∉ query ∧ ';' ∉ query := by
  have split : (∀ character ∈ query, (character != '{' && character != ';') = true) ↔
      '{' ∉ query ∧ ';' ∉ query := by
    simp only [← all_ne_iff, Bool.and_eq_true]
    constructor
    · intro good
      exact ⟨fun character member => (good character member).1,
        fun character member => (good character member).2⟩
    · rintro ⟨former, latter⟩ character member
      exact ⟨former character member, latter character member⟩
  rw [customQuery, takes_run1_bind]
  constructor
  · rintro ⟨former, tail, rfl, nonempty, good, -, ending⟩
    obtain ⟨last, rfl, finished⟩ := takes_exactly_bind.mp ending
    obtain ⟨rfl, rfl⟩ := takes_pure.mp finished
    exact ⟨rfl, nonempty, split.mp good⟩
  · rintro ⟨rfl, nonempty, absent⟩
    refine ⟨query, [';'], rfl, nonempty, split.mpr absent, rfl, takes_exactly_bind.mpr ?_⟩
    exact ⟨[], rfl, takes_pure.mpr ⟨rfl, rfl⟩⟩

/-- Searching down from a bound finds the greatest number that is accepted. -/
theorem find?_reverse_range {accepted : Nat → Bool} {bound found : Nat} :
    (List.range bound).reverse.find? accepted = some found ↔
      (found < bound ∧ accepted found = true) ∧
        ∀ other, other < bound ∧ accepted other = true → other ≤ found := by
  induction bound with
  | zero =>
    constructor
    · rintro ⟨⟩
    · rintro ⟨⟨absurdity, -⟩, -⟩
      exact absurd absurdity (Nat.not_lt_zero _)
  | succ bound inductionHypothesis =>
    rw [List.range_succ, List.reverse_append, List.reverse_singleton, List.singleton_append]
    by_cases good : accepted bound = true
    · rw [List.find?_cons_of_pos good, Option.some.injEq]
      constructor
      · rintro rfl
        exact ⟨⟨Nat.lt_succ_self _, good⟩, fun other less => Nat.le_of_lt_succ less.1⟩
      · rintro ⟨⟨less, -⟩, greatest⟩
        exact Nat.le_antisymm (greatest bound ⟨Nat.lt_succ_self _, good⟩) (Nat.le_of_lt_succ less)
    · rw [List.find?_cons_of_neg good, inductionHypothesis]
      have same : ∀ other, other < bound + 1 ∧ accepted other = true ↔
          other < bound ∧ accepted other = true := by
        refine fun other => and_congr_left fun present => ?_
        rw [Nat.lt_succ_iff_lt_or_eq]
        refine or_iff_left ?_
        rintro rfl
        exact good present
      simp only [same]

/-- A length that the name of a custom media query may have. -/
def NameLength (ahead : List Char) (length : Nat) : Prop :=
  ['-', '-'] <+: ahead.takeWhile (fun character => !isBlank character) ∧
    length ≤ (ahead.takeWhile fun character => !isBlank character).length ∧ 3 ≤ length ∧
    customQuery.read (ahead.drop length) ≠ none

theorem customNameLength?_eq_some_iff {ahead : List Char} {length : Nat} :
    customNameLength? ahead = some length ↔
      NameLength ahead length ∧ ∀ other, NameLength ahead other → other ≤ length := by
  simp only [customNameLength?, NameLength]
  by_cases dashes : ['-', '-'] <+: ahead.takeWhile fun character => !isBlank character
  · rw [if_pos (List.isPrefixOf_iff_prefix.mpr dashes), find?_reverse_range]
    simp only [dashes, true_and, Nat.lt_succ_iff, Bool.and_eq_true, decide_eq_true_eq,
      Option.isSome_iff_ne_none]
  · rw [if_neg fun start => dashes (List.isPrefixOf_iff_prefix.mp start)]
    constructor
    · rintro ⟨⟩
    · rintro ⟨⟨start, -⟩, -⟩
      exact absurd start dashes

theorem customNameLength?_eq_none_iff {ahead : List Char} :
    customNameLength? ahead = none ↔ ∀ length, ¬ NameLength ahead length := by
  constructor
  · rintro absent length ⟨dashes, short, long, query⟩
    rw [customNameLength?, if_pos (List.isPrefixOf_iff_prefix.mpr dashes)] at absent
    have inside := List.mem_reverse.mpr (List.mem_range.mpr (Nat.lt_succ_of_le short))
    refine List.find?_eq_none.mp absent length inside ?_
    rw [Bool.and_eq_true, decide_eq_true_eq, Option.isSome_iff_ne_none]
    exact ⟨long, query⟩
  · intro never
    cases found : customNameLength? ahead with
    | none => rfl
    | some length => exact absurd (customNameLength?_eq_some_iff.mp found).1 (never length)

/-- What a name has to be and what has to follow it, told apart. -/
theorem nameLength_append {name others : List Char} :
    NameLength (name ++ others) name.length ↔
      ['-', '-'] <+: name ∧ 3 ≤ name.length ∧ (∀ character ∈ name, isBlank character = false) ∧
        customQuery.read others ≠ none := by
  rw [NameLength, List.drop_left]
  constructor
  · rintro ⟨dashes, short, long, query⟩
    have inside : name <+: (name ++ others).takeWhile fun character => !isBlank character :=
      List.prefix_of_prefix_length_le (List.prefix_append name others)
        (List.takeWhile_prefix _) short
    refine ⟨?_, long, fun character member => ?_, query⟩
    · exact List.prefix_of_prefix_length_le dashes inside (Nat.le_of_succ_le long)
    · have good := accepted_of_mem_takeWhile (inside.subset member)
      simpa using good
  · rintro ⟨dashes, long, unbroken, query⟩
    have word : (name ++ others).takeWhile (fun character => !isBlank character) =
        name ++ others.takeWhile fun character => !isBlank character := by
      refine List.takeWhile_append_of_pos fun character member => ?_
      rw [unbroken character member]
      rfl
    rw [word, List.length_append]
    exact ⟨dashes.trans (List.prefix_append _ _), Nat.le_add_right _ _, long, query⟩

theorem name_of_customNameLength? {name rest : List Char}
    (measured : customNameLength? (name ++ rest) = some name.length) :
    ['-', '-'] <+: name ∧ 3 ≤ name.length ∧ ∀ character ∈ name, isBlank character = false := by
  obtain ⟨dashes, long, unbroken, -⟩ :=
    nameLength_append.mp (customNameLength?_eq_some_iff.mp measured).1
  exact ⟨dashes, long, unbroken⟩

theorem customMediaForm_of_takes {leaf : Leaf} {text rest : List Char}
    (takes : customMedia.Takes leaf text rest) :
    ∃ name query, leaf = .customMedia name query ∧ CustomMediaForm name query text := by
  obtain ⟨latter, rfl, later⟩ := takes_exactly_bind.mp takes
  obtain ⟨gap, tail, rfl, nonempty, blank, -, named⟩ := takes_run1_bind.mp later
  obtain ⟨name, former, others, rfl, measured, query⟩ := takes_bind.mp named
  obtain ⟨inner, last, end', rfl, queried, finished⟩ := takes_bind.mp query
  obtain ⟨rfl, rfl⟩ := takes_pure.mp finished
  obtain ⟨rfl, size⟩ := takes_sized.mp measured
  obtain ⟨rfl, present, brace, semicolon⟩ := takes_customQuery.mp queried
  obtain ⟨dashes, long, unbroken⟩ := name_of_customNameLength? size
  refine ⟨_, _, rfl, gap, inner, ?_, nonempty, blank, ?_, ?_, ?_, present, brace, semicolon, rfl⟩
  · simp only [String.toList_ofList, List.append_assoc, List.append_nil]
    rfl
  · rwa [String.toList_ofList]
  · rwa [String.length_ofList]
  · rwa [String.toList_ofList]

/-! ### Offsets of keyframes -/

theorem isDecimal_of_takes {value text rest : List Char} (takes : decimal.Takes value text rest) :
    value = text ∧ IsDecimal text := by
  rcases takes_orElse.mp takes with both | ⟨-, fewer⟩
  · obtain ⟨rfl, places, parts⟩ := takes_text.mp both
    obtain ⟨digits, tail, rfl, nonempty, good, -, later⟩ := takes_run1_bind.mp parts
    obtain ⟨last, rfl, ending⟩ := takes_exactly_bind.mp later
    obtain ⟨rfl, present, fine, -⟩ := takes_run1.mp ending
    exact ⟨rfl, .both ⟨nonempty, good⟩ ⟨present, fine⟩⟩
  · rcases takes_orElse.mp fewer with fraction | ⟨-, whole⟩
    · obtain ⟨rfl, places, parts⟩ := takes_text.mp fraction
      obtain ⟨last, rfl, ending⟩ := takes_exactly_bind.mp parts
      obtain ⟨rfl, present, fine, -⟩ := takes_run1.mp ending
      exact ⟨rfl, .fraction ⟨present, fine⟩⟩
    · obtain ⟨rfl, nonempty, good, -⟩ := takes_run1.mp whole
      exact ⟨rfl, .whole ⟨nonempty, good⟩⟩

theorem isOffset_of_takes {value text rest : List Char}
    (takes : keyframeOffset.Takes value text rest) :
    ∃ gap, text = value ++ gap ∧ IsOffset value ∧ AllBlank gap := by
  obtain ⟨former, gap, rfl, found, blank, -⟩ := takes_spaced.mp takes
  rcases takes_orElse.mp found with number | ⟨-, word⟩
  · obtain ⟨rfl, mark, parts⟩ := takes_text.mp number
    obtain ⟨digits, first, tail, rfl, decimals, ending⟩ := takes_bind.mp parts
    obtain ⟨rfl, good⟩ := isDecimal_of_takes decimals
    refine ⟨gap, rfl, ?_, blank⟩
    rcases takes_optional.mp ending with ⟨percent, -, marked⟩ | ⟨-, rfl, -⟩
    · obtain ⟨-, rfl⟩ := takes_exactly.mp marked
      exact .percentage good
    · rw [List.append_nil]
      exact .number good
  · obtain ⟨rfl, nonempty, small, -⟩ := takes_run1.mp word
    exact ⟨gap, rfl, .word nonempty small, blank⟩

theorem eq_nil_of_offsetsText {text : List Char} (form : OffsetsText [] text) :
    text = [] := by
  cases form
  rfl

theorem offsetsText_of_takes {values : List (List Char)} {text rest : List Char}
    (takes : offsets.Takes values text rest) : OffsetsText values text := by
  induction values generalizing text with
  | nil =>
    rcases takes_many.mp takes with ⟨-, rfl, -⟩ | ⟨value, others, former, latter, absurdity, -⟩
    · exact .nil
    · cases absurdity
  | cons value others inductionHypothesis =>
    rcases takes_many.mp takes with ⟨absurdity, -⟩ |
      ⟨value, others, former, latter, same, rfl, -, first, later⟩
    · cases absurdity
    · obtain ⟨rfl, rfl⟩ := List.cons.inj same
      obtain ⟨offset, head, tail, rfl, offsetTakes, ending⟩ := takes_bind.mp first
      obtain ⟨mark, lead, last, rfl, marked, finished⟩ := takes_bind.mp ending
      obtain ⟨rfl, rfl⟩ := takes_pure.mp finished
      obtain ⟨gap, rfl, good, blank⟩ := isOffset_of_takes offsetTakes
      rw [List.append_nil]
      rcases takes_optional.mp marked with ⟨comma, -, present⟩ | ⟨-, rfl, -⟩
      · obtain ⟨-, blanks, rfl, leading, -⟩ := takes_mark.mp present
        exact .comma good blank leading (inductionHypothesis later)
      · rw [List.append_nil]
        exact .bare good blank (inductionHypothesis later)

theorem keyframeForm_of_takes {found : List (List Char)} {text rest : List Char}
    (takes : (nonempty offsets).Takes found text rest) :
    (Header.keyframe (found.map String.ofList)).WrittenAs text := by
  obtain ⟨taken, nonempty⟩ := takes_nonempty.mp takes
  have form := offsetsText_of_takes taken
  refine ⟨fun none => ?_, found, rfl, form⟩
  rw [List.map_eq_nil_iff.mp none] at form
  exact nonempty (eq_nil_of_offsetsText form)

end CssSyntax.Grammar
