/-
This file shows that the patterns of the grammar take the canonical texts.

What a pattern takes depends on what comes behind it, so every lemma says what that has to be. The
second half says which openings an at-rule passes by: a keyword that is not ahead is left alone,
even if the word behind the at-sign begins or ends like it.
-/

import CssSyntax.Proofs.Openings
import CssSyntax.Proofs.WritableTexts

namespace CssSyntax.Grammar

open Pattern

/-! ### Characters that are not blank -/

theorem isBlank_eq_false {character : Char} (low : 32 < character.toNat)
    (high : character.toNat < 127) : isBlank character = false := by
  simp only [isBlank, blankRanges, List.any_cons, List.any_nil]
  simp
  omega

theorem code_of_isLower {character : Char} (small : character.isLower = true) :
    97 ≤ character.toNat ∧ character.toNat ≤ 122 := by
  obtain ⟨low, high⟩ := Bool.and_eq_true_iff.mp small
  exact ⟨UInt32.le_iff_toNat_le.mp (of_decide_eq_true low),
    UInt32.le_iff_toNat_le.mp (of_decide_eq_true high)⟩

theorem code_of_isDigit {character : Char} (digit : character.isDigit = true) :
    48 ≤ character.toNat ∧ character.toNat ≤ 57 := by
  obtain ⟨low, high⟩ := Bool.and_eq_true_iff.mp digit
  exact ⟨UInt32.le_iff_toNat_le.mp (of_decide_eq_true low),
    UInt32.le_iff_toNat_le.mp (of_decide_eq_true high)⟩

theorem code_of_isUpper {character : Char} (capital : character.isUpper = true) :
    65 ≤ character.toNat ∧ character.toNat ≤ 90 := by
  obtain ⟨low, high⟩ := of_decide_eq_true capital
  exact ⟨UInt32.le_iff_toNat_le.mp low, UInt32.le_iff_toNat_le.mp high⟩

theorem isBlank_of_isAlphanum {character : Char} (good : character.isAlphanum = true) :
    isBlank character = false := by
  rcases Bool.or_eq_true_iff.mp good with letter | digit
  · rcases Bool.or_eq_true_iff.mp letter with capital | small
    · have bounds := code_of_isUpper capital
      exact isBlank_eq_false (by omega) (by omega)
    · have bounds := code_of_isLower small
      exact isBlank_eq_false (by omega) (by omega)
  · have bounds := code_of_isDigit digit
    exact isBlank_eq_false (by omega) (by omega)

theorem isBlank_of_isPropertyChar {character : Char} (good : isPropertyChar character = true) :
    isBlank character = false := by
  rcases Bool.or_eq_true_iff.mp good with ordinary | special
  · exact isBlank_of_isAlphanum ordinary
  · have unblank : (['-', '_', '#', '/', '*', '\\'].all fun other => !isBlank other) = true := by
      decide
    have member := List.contains_iff_mem.mp special
    exact Bool.not_inj (List.all_eq_true.mp unblank character member)

theorem isBlank_of_isIdentifierChar {character : Char} (good : isIdentifierChar character = true) :
    isBlank character = false := by
  simp only [isIdentifierChar, Bool.or_eq_true, beq_iff_eq] at good
  rcases good with (ordinary | rfl) | rfl
  · exact isBlank_of_isAlphanum ordinary
  · decide
  · decide

/-! ### Declarations -/

theorem takes_propertyName {name rest : List Char} (good : IsProperty name) :
    propertyName.Takes name name (':' :: rest) := by
  obtain ⟨word, bracket, rfl, nonempty, starless, allowed, ending⟩ := good
  have behind : StopsAt isPropertyChar (bracket ++ ':' :: rest) := by
    rcases ending with rfl | ⟨inner, rfl, -⟩
    · exact (by decide : isPropertyChar ':' = false)
    · exact (by decide : isPropertyChar '[' = false)
  have last : ∃ found, (optional do
      let _ ← exactly ['[']
      let _ ← run1 isAttributeChar
      exactly [']']).Takes found bracket (':' :: rest) := by
    rcases ending with rfl | bracketed
    · exact ⟨none, takes_optional.mpr (.inr ⟨rfl, rfl, rfl⟩)⟩
    · exact ⟨_, takes_optional.mpr (.inl ⟨_, rfl, takes_attribute.mpr ⟨rfl, bracketed⟩⟩)⟩
  obtain ⟨found, last⟩ := last
  refine takes_spaced.mpr ⟨word ++ bracket, [], (List.append_nil _).symm, ?_, allBlank_nil, ?_⟩
  · refine takes_text.mpr ⟨rfl, found, takes_bind.mpr ?_⟩
    by_cases starred : ['*'] <+: word
    · obtain ⟨tail, rfl⟩ := starred
      have named : tail ≠ [] := fun none => starless (by rw [none]; rfl)
      refine ⟨some ['*'], ['*'], tail ++ bracket, rfl, ?_, takes_run1_bind.mpr ?_⟩
      · exact takes_optional.mpr (.inl ⟨_, rfl, takes_exactly.mpr ⟨rfl, rfl⟩⟩)
      · exact ⟨tail, bracket, rfl, named, (List.forall_mem_cons.mp allowed).2, behind, last⟩
    · refine ⟨none, [], word ++ bracket, rfl, ?_, takes_run1_bind.mpr ?_⟩
      · refine takes_optional.mpr (.inr ⟨rfl, rfl, read_exactly_eq_none.mpr ?_⟩)
        obtain ⟨first, tail, rfl⟩ := List.exists_cons_of_ne_nil nonempty
        rintro ⟨others, start⟩
        exact starred ⟨tail, by rw [(List.cons.inj start).1]; rfl⟩
      · exact ⟨word, bracket, rfl, nonempty, allowed, behind, last⟩
  · exact (by decide : isBlank ':' = false)

theorem takes_string {quote : Char} {body rest : List Char} (mark : quote = '"' ∨ quote = '\'')
    (line : ∀ character ∈ body, isLineBreak character = false) (quoted : QuotedBody quote body) :
    segment.Takes (quote :: body ++ [quote]) (quote :: body ++ [quote]) rest := by
  have measured : Quoting.value.lengthAt? (quote :: body ++ quote :: rest) =
      some (body.length + 2) := lengthAt?_of_quotedBody mark quoted (reach_value mark line)
  have whole : (quote :: body ++ [quote]) ++ rest = quote :: body ++ quote :: rest := by simp
  refine takes_orElse.mpr (.inl (takes_sized.mpr ⟨rfl, ?_⟩))
  rw [whole, measured]
  simp

theorem read_quotedSegment_eq_none {first : Char} {rest : List Char} (double : first ≠ '"')
    (single : first ≠ '\'') : quotedSegment.read (first :: rest) = none :=
  read_sized_of_none (lengthAt?_of_unquoted double single)

theorem read_groupSegment_eq_none {first : Char} {rest : List Char} (bare : first ≠ '(') :
    groupSegment.read (first :: rest) = none := by
  rw [read_eq_none_iff]
  rintro value text others parts takes
  obtain ⟨-, inner, rfl, -⟩ := takes_groupSegment.mp takes
  exact bare (List.cons.inj parts).1

theorem read_segment_eq_none (rest : List Char) : segment.read (';' :: rest) = none := by
  refine read_orElse_eq_none.mpr ⟨read_quotedSegment_eq_none (by decide) (by decide), ?_⟩
  exact read_orElse_eq_none.mpr ⟨read_groupSegment_eq_none (by decide), rfl⟩

theorem takes_group {inner rest : List Char} (closed : ')' ∉ inner) :
    segment.Takes ('(' :: inner ++ [')']) ('(' :: inner ++ [')']) rest := by
  refine takes_orElse.mpr (.inr ⟨read_quotedSegment_eq_none (by decide) (by decide), ?_⟩)
  exact takes_orElse.mpr (.inl (takes_groupSegment.mpr ⟨rfl, inner, rfl, closed⟩))

theorem takes_plain {character : Char} {rest : List Char}
    (bare : character ∉ ['}', ';', '(', '"', '\'']) :
    segment.Takes [character] [character] rest := by
  simp only [List.mem_cons, List.not_mem_nil, or_false, not_or] at bare
  obtain ⟨brace, semicolon, group, double, single⟩ := bare
  refine takes_orElse.mpr (.inr ⟨read_quotedSegment_eq_none double single, ?_⟩)
  refine takes_orElse.mpr (.inr ⟨read_groupSegment_eq_none group, ?_⟩)
  exact takes_bareSegment.mpr ⟨rfl, character, rfl, brace, semicolon⟩

/-- A closed value falls into pieces up to the semicolon behind it. -/
theorem takes_segments {value : List Char} (closed : ClosedValue value) (rest : List Char) :
    ∃ pieces, (many segment).Takes pieces value (';' :: rest) := by
  induction closed with
  | nil => exact ⟨[], takes_many_nil (read_segment_eq_none rest)⟩
  | string mark line quoted closed inductionHypothesis =>
    obtain ⟨pieces, later⟩ := inductionHypothesis
    rw [List.append_cons]
    exact ⟨_, takes_many_cons (by simp) (takes_string mark line quoted) later⟩
  | group absent closed inductionHypothesis =>
    obtain ⟨pieces, later⟩ := inductionHypothesis
    rw [List.append_cons]
    exact ⟨_, takes_many_cons (by simp) (takes_group absent) later⟩
  | plain bare closed inductionHypothesis =>
    obtain ⟨pieces, later⟩ := inductionHypothesis
    rw [← List.singleton_append]
    exact ⟨_, takes_many_cons (by simp) (takes_plain bare) later⟩

theorem takes_declarationValue {value : List Char} (closed : ClosedValue value)
    (present : value ≠ []) (rest : List Char) :
    declarationValue.Takes value value (';' :: rest) := by
  obtain ⟨pieces, takes⟩ := takes_segments closed rest
  exact takes_nonempty.mpr ⟨takes_text.mpr ⟨rfl, pieces, takes⟩, present⟩

theorem read_declarationValue_eq_none (rest : List Char) :
    declarationValue.read (';' :: rest) = none := by
  rw [read_eq_none_iff]
  rintro value text others parts takes
  obtain ⟨pieces, nonempty⟩ := takes_nonempty.mp takes
  obtain ⟨rfl, values, many⟩ := takes_text.mp pieces
  rcases takes_many.mp many with ⟨-, rfl, -⟩ | ⟨piece, pieces, former, latter, -, rfl, -, first, -⟩
  · exact nonempty rfl
  · rw [List.append_assoc] at parts
    rw [Takes, ← parts, read_segment_eq_none] at first
    cases first

/-! ### Keywords with a vendor -/

theorem cutLast?_eq_none {word text : List Char} (absent : ¬ word <:+: text) :
    cutLast? word text = none := by
  cases present : cutLast? word text with
  | none => rfl
  | some sides =>
    have parts := eq_append_of_cutLast? present
    exact absurd ⟨sides.1, sides.2, parts.symm⟩ absent

theorem cutLast?_append {word : List Char} (nonempty : word ≠ []) (before : List Char) :
    cutLast? word (before ++ word) = some (before, []) := by
  induction before with
  | nil =>
    obtain ⟨first, rest, rfl⟩ := List.exists_cons_of_ne_nil nonempty
    have absent : cutLast? (first :: rest) rest = none := by
      refine cutLast?_eq_none fun inside => ?_
      have short := inside.length_le
      rw [List.length_cons] at short
      omega
    have whole := isPrefixOf?_append (first :: rest) []
    rw [List.append_nil] at whole
    rw [List.nil_append, cutLast?, absent, whole]
    rfl
  | cons first before inductionHypothesis =>
    rw [List.cons_append, cutLast?, inductionHypothesis]

theorem identifier_of_keyword (name : AtKeyword) :
    ∀ character ∈ name.text.toList, isIdentifierChar character = true :=
  List.all_eq_true.mp (by cases name <;> decide)

theorem text_ne_nil (name : AtKeyword) : name.text.toList ≠ [] := by
  cases name <;> decide

/-- The word behind the at-sign is made of identifier characters, vendor and keyword alike. -/
theorem identifier_of_vendor {name : AtKeyword} {vendor : Option String} (good : IsVendor vendor) :
    ∀ character ∈ (vendor.getD "").toList ++ name.text.toList,
      isIdentifierChar character = true := by
  intro character member
  rcases List.mem_append.mp member with former | latter
  · cases vendor with
    | none => exact absurd former List.not_mem_nil
    | some prefixed => exact (good prefixed rfl).2 character former
  · exact identifier_of_keyword name character latter

theorem takes_vendorKeyword {name : AtKeyword} {vendor : Option String} {rest : List Char}
    (good : IsVendor vendor) (stops : StopsAt isIdentifierChar rest) :
    (vendorKeyword name).Takes vendor (name.vendored vendor) rest := by
  have word : ((vendor.getD "").toList ++ (name.text.toList ++ rest)).takeWhile isIdentifierChar =
      (vendor.getD "").toList ++ name.text.toList := by
    rw [← List.append_assoc]
    exact takeWhile_append_of_stopsAt (identifier_of_vendor good) stops
  refine takes_exactly_bind.mpr ⟨(vendor.getD "").toList ++ name.text.toList, rfl, ?_⟩
  refine takes_bind.mpr
    ⟨(vendor.getD "").toList, (vendor.getD "").toList, name.text.toList, rfl, ?_, ?_⟩
  · refine takes_sized.mpr ⟨rfl, ?_⟩
    rw [word, cutLast?_append (text_ne_nil name)]
    rfl
  · refine takes_exactly_bind.mpr ⟨[], (List.append_nil _).symm, takes_pure.mpr ⟨?_, rfl⟩⟩
    cases vendor with
    | none => rfl
    | some prefixed =>
      have present := (good prefixed rfl).1
      rw [Option.getD_some, List.isEmpty_eq_false_iff.mpr present, String.ofList_toList]
      rfl

/-! ### Texts behind a keyword -/

theorem notMem_space_cons {mark : Char} {text : List Char} (other : mark ≠ ' ')
    (absent : mark ∉ text) : mark ∉ ' ' :: text := by
  rw [List.mem_cons, not_or]
  exact ⟨other, absent⟩

theorem trimmed_space {text : String} (fits : Trimmed text.toList) :
    trimmed (' ' :: text.toList) = text := by
  rw [trimmed, trim_space fits, String.ofList_toList]

theorem condition_canonical {name : AtKeyword} {condition : String} (fits : IsCondition condition) :
    name.Condition condition (name.written ++ ' ' :: condition.toList) :=
  ⟨_, rfl, List.cons_ne_nil _ _, notMem_space_cons (by decide) fits.2, (trimmed_space fits.1).symm⟩

theorem payload_canonical {name : AtKeyword} {payload : String} (fits : IsPayload payload) :
    name.Payload payload (name.written ++ ' ' :: payload.toList ++ [';']) :=
  ⟨_, rfl, List.cons_ne_nil _ _, notMem_space_cons (by decide) fits.2, (trimmed_space fits.1).symm⟩

theorem takes_documentOpening {vendor : Option String} {address : String} {rest : List Char}
    (good : IsVendor vendor) (fits : IsCondition address) :
    documentOpening.Takes (.document vendor address)
      (Header.document vendor address).canonical ('{' :: rest) := by
  refine takes_bind.mpr ⟨vendor, _, ' ' :: address.toList, rfl, ?_, takes_run1_bind.mpr ?_⟩
  · exact takes_vendorKeyword good (by decide : isIdentifierChar ' ' = false)
  · refine ⟨' ' :: address.toList, [], (List.append_nil _).symm, List.cons_ne_nil _ _, ?_, ?_, ?_⟩
    · exact all_ne_iff.mpr (notMem_space_cons (by decide) fits.2)
    · exact (by decide : ('{' != '{') = false)
    · exact takes_pure.mpr ⟨by rw [trimmed_space fits.1], rfl⟩

theorem brace_notMem_joined {pieces : List (List Char)} (each : ∀ piece ∈ pieces, '{' ∉ piece) :
    '{' ∉ joined pieces := by
  induction pieces with
  | nil => exact List.not_mem_nil
  | cons first others inductionHypothesis =>
    have former := each first List.mem_cons_self
    have latter := inductionHypothesis fun piece member =>
      each piece (List.mem_cons_of_mem _ member)
    cases others with
    | nil => exact former
    | cons second others =>
      rw [joined_cons_cons, List.mem_append, List.mem_cons]
      rintro (inside | absurdity | behind)
      · exact former inside
      · exact absurd absurdity (by decide)
      · exact latter behind

theorem brace_notMem_listed {selectors : List String} (list : IsSelectorList selectors) :
    '{' ∉ listed selectors := by
  refine brace_notMem_joined fun piece member => ?_
  obtain ⟨selector, inside, rfl⟩ := List.mem_map.mp member
  exact (list.each selector inside).brace

theorem trimmed_listed {selectors : List String} (list : IsSelectorList selectors) :
    Trimmed (listed selectors) := by
  refine trimmed_joined fun piece member => ?_
  obtain ⟨selector, inside, rfl⟩ := List.mem_map.mp member
  exact (list.each selector inside).trimmed

theorem takes_selectors {selectors : List String} (list : IsSelectorList selectors)
    (rest : List Char) :
    selectorText.Takes (listed selectors) (listed selectors) ('{' :: rest) := by
  refine takes_selectorText.mpr ⟨rfl, list.nonempty, brace_notMem_listed list, ?_⟩
  exact (by decide : ('{' != '{') = false)

theorem takes_pageOpening {selectors : List String} {rest : List Char}
    (good : selectors = [] ∨ IsSelectorList selectors) :
    pageOpening.Takes (.page selectors) (Header.page selectors).canonical ('{' :: rest) := by
  refine takes_exactly_bind.mpr ⟨' ' :: listed selectors, rfl, takes_run_bind.mpr ?_⟩
  have space : ∀ character ∈ [' '], (character == ' ') = true :=
    List.forall_mem_singleton.mpr rfl
  rcases good with rfl | list
  · refine ⟨[' '], [], rfl, space, (by decide : ('{' == ' ') = false), takes_bind.mpr ?_⟩
    refine ⟨none, [], [], rfl, takes_optional.mpr (.inr ⟨rfl, rfl, rfl⟩), takes_pure.mpr ⟨rfl, rfl⟩⟩
  · refine ⟨[' '], listed selectors, rfl, space, ?_, takes_bind.mpr ?_⟩
    · obtain ⟨first, others, parts⟩ := List.exists_cons_of_ne_nil list.nonempty
      have unblank := (trimmed_listed list).1 first (by rw [parts]; rfl)
      rw [parts]
      refine beq_false_of_ne fun space => ?_
      rw [space] at unblank
      exact absurd unblank (by decide)
    · refine ⟨some (listed selectors), listed selectors, [], (List.append_nil _).symm, ?_, ?_⟩
      · exact takes_optional.mpr (.inl ⟨_, rfl, takes_selectors list rest⟩)
      · refine takes_pure.mpr ⟨congrArg Header.page ?_, rfl⟩
        exact (splitSelectors_listed list).symm

theorem customNameLength?_of_query {name rest : List Char} {found : Match (List Char)}
    (dashes : ['-', '-'] <+: name) (long : 3 ≤ name.length)
    (unbroken : ∀ character ∈ name, isBlank character = false) (stops : StopsAt (!isBlank ·) rest)
    (query : customQuery.read rest = some found) :
    customNameLength? (name ++ rest) = some name.length := by
  have word : (name ++ rest).takeWhile (fun character => !isBlank character) = name := by
    refine takeWhile_append_of_stopsAt (fun character member => ?_) stops
    rw [unbroken character member]
    rfl
  simp only [customNameLength?, word]
  rw [if_pos (List.isPrefixOf_iff_prefix.mpr dashes), List.range_succ, List.reverse_append,
    List.reverse_singleton, List.singleton_append, List.find?_cons_of_pos]
  rw [List.drop_left, query, Bool.and_eq_true, decide_eq_true_eq]
  exact ⟨long, rfl⟩

theorem takes_customMedia {name query : String} {rest : List Char}
    (good : (Leaf.customMedia name query).Writable) :
    customMedia.Takes (.customMedia name query) (Leaf.customMedia name query).canonical rest := by
  obtain ⟨dashes, long, unbroken, fits, brace⟩ := good
  have queried : customQuery.Takes (' ' :: query.toList) (' ' :: query.toList ++ [';']) rest :=
    takes_customQuery.mpr ⟨rfl, List.cons_ne_nil _ _, notMem_space_cons (by decide) brace,
      notMem_space_cons (by decide) fits.2⟩
  have blank : AllBlank [' '] := List.forall_mem_singleton.mpr (by decide)
  have parts : (Leaf.customMedia name query).canonical =
      AtKeyword.customMedia.written ++
        ([' '] ++ (name.toList ++ (' ' :: query.toList ++ [';']))) := by
    simp [Leaf.canonical]
  rw [parts]
  refine takes_exactly_bind.mpr ⟨_, rfl, takes_run1_bind.mpr ?_⟩
  refine ⟨[' '], _, rfl, List.cons_ne_nil _ _, blank, ?_, takes_bind.mpr ?_⟩
  · obtain ⟨tail, start⟩ := dashes
    rw [← start]
    exact (by decide : isBlank '-' = false)
  · refine ⟨name.toList, name.toList, _, rfl, takes_sized.mpr ⟨rfl, ?_⟩, takes_bind.mpr ?_⟩
    · refine customNameLength?_of_query dashes long unbroken ?_ queried
      exact (by decide : (!isBlank ' ') = false)
    · refine ⟨_, _, [], (List.append_nil _).symm, queried, takes_pure.mpr ⟨?_, rfl⟩⟩
      rw [trimmed_space fits.1, String.ofList_toList]

/-! ### Offsets of keyframes -/

/-- No digit and no point begins the text. -/
def EndsNumber (text : List Char) : Prop :=
  StopsAt (fun character => character.isDigit || character == '.') text

theorem EndsNumber.digit {text : List Char} (ends : EndsNumber text) :
    StopsAt Char.isDigit text := by
  cases text with
  | nil => exact trivial
  | cons first rest => exact (Bool.or_eq_false_iff.mp ends).1

theorem EndsNumber.point {text : List Char} (ends : EndsNumber text) : ¬ ['.'] <+: text := by
  rintro ⟨rest, rfl⟩
  exact absurd (Bool.or_eq_false_iff.mp ends).2 (by decide)

theorem takes_digits {digits rest : List Char} (good : IsDigits digits)
    (stops : StopsAt Char.isDigit rest) : (run1 Char.isDigit).Takes digits digits rest :=
  takes_run1.mpr ⟨rfl, good.1, good.2, stops⟩

theorem takes_decimal {digits rest : List Char} (good : IsDecimal digits) (ends : EndsNumber rest) :
    decimal.Takes digits digits rest := by
  have point : StopsAt Char.isDigit ['.'] := (by decide : Char.isDigit '.' = false)
  cases good with
  | @whole digits good =>
    have noBoth := takes_digits good ends.digit
    refine takes_orElse.mpr (.inr ⟨read_text_of_none (read_bind_of_takes noBoth ?_), ?_⟩)
    · exact read_bind_of_none (read_exactly_eq_none.mpr ends.point)
    · refine takes_orElse.mpr (.inr ⟨read_text_of_none (read_bind_of_none ?_), noBoth⟩)
      obtain ⟨first, others, rfl⟩ := List.exists_cons_of_ne_nil good.1
      rw [read_exactly_eq_none]
      rintro ⟨tail, start⟩
      have digit := good.2 first List.mem_cons_self
      rw [← (List.cons.inj start).1] at digit
      exact absurd digit (by decide)
  | @fraction digits good =>
    refine takes_orElse.mpr (.inr ⟨read_text_of_none (read_bind_of_none ?_), ?_⟩)
    · exact read_run1_of_stopsAt (by decide : Char.isDigit '.' = false)
    · refine takes_orElse.mpr (.inl (takes_text.mpr ⟨rfl, digits, takes_exactly_bind.mpr ?_⟩))
      exact ⟨digits, rfl, takes_digits good ends.digit⟩
  | @both digits places good fine =>
    refine takes_orElse.mpr (.inl (takes_text.mpr ⟨rfl, places, takes_run1_bind.mpr ?_⟩))
    refine ⟨digits, '.' :: places, rfl, good.1, good.2, point, takes_exactly_bind.mpr ?_⟩
    exact ⟨places, rfl, takes_digits fine ends.digit⟩

theorem read_decimal_eq_none {text : List Char} (ends : EndsNumber text) :
    decimal.read text = none := by
  refine read_orElse_eq_none.mpr ⟨?_, read_orElse_eq_none.mpr ⟨?_, ?_⟩⟩
  · exact read_text_of_none (read_bind_of_none (read_run1_of_stopsAt ends.digit))
  · exact read_text_of_none (read_bind_of_none (read_exactly_eq_none.mpr ends.point))
  · exact read_run1_of_stopsAt ends.digit

/-- A comma or an opening brace begins the text. -/
def EndsOffset : List Char → Prop
  | first :: _ => first = ',' ∨ first = '{'
  | [] => False

theorem EndsOffset.stopsAt {accepted : Char → Bool} {text : List Char} (ends : EndsOffset text)
    (comma : accepted ',' = false) (brace : accepted '{' = false) : StopsAt accepted text := by
  cases text with
  | nil => exact trivial
  | cons first rest =>
    rcases ends with rfl | rfl
    · exact comma
    · exact brace

theorem takes_keyframeOffset {offset rest : List Char} (good : IsOffset offset)
    (ends : EndsOffset rest) : keyframeOffset.Takes offset offset rest := by
  have blank : StopsAt isBlank rest := ends.stopsAt (by decide) (by decide)
  have number : EndsNumber rest := ends.stopsAt (by decide) (by decide)
  refine takes_spaced.mpr ⟨offset, [], (List.append_nil _).symm, ?_, allBlank_nil, blank⟩
  cases good with
  | @number digits good =>
    refine takes_orElse.mpr (.inl (takes_text.mpr ⟨rfl, none, takes_bind.mpr ?_⟩))
    refine ⟨offset, offset, [], (List.append_nil _).symm, takes_decimal good number, ?_⟩
    refine takes_optional.mpr (.inr ⟨rfl, rfl, read_exactly_eq_none.mpr ?_⟩)
    rintro ⟨tail, rfl⟩
    exact absurd ends (by simp [EndsOffset])
  | @percentage digits good =>
    refine takes_orElse.mpr (.inl (takes_text.mpr ⟨rfl, some ['%'], takes_bind.mpr ?_⟩))
    refine ⟨digits, digits, ['%'], rfl, takes_decimal good ?_, takes_optional.mpr (.inl ?_)⟩
    · exact (by decide : (Char.isDigit '%' || '%' == '.') = false)
    · exact ⟨_, rfl, takes_exactly.mpr ⟨rfl, rfl⟩⟩
  | @word letters present small =>
    have noNumber : EndsNumber (offset ++ rest) := by
      obtain ⟨first, others, rfl⟩ := List.exists_cons_of_ne_nil present
      have lower := small first List.mem_cons_self
      refine Bool.or_eq_false_iff.mpr ⟨?_, ?_⟩
      · refine Bool.eq_false_iff.mpr fun digit => ?_
        have bounds := code_of_isLower lower
        have others := code_of_isDigit digit
        omega
      · refine beq_false_of_ne ?_
        rintro rfl
        exact absurd lower (by decide)
    refine takes_orElse.mpr (.inr ⟨?_, ?_⟩)
    · exact read_text_of_none (read_bind_of_none (read_decimal_eq_none noNumber))
    · exact takes_run1.mpr ⟨rfl, present, small, ends.stopsAt (by decide) (by decide)⟩

theorem isOffset_head {offset : List Char} (good : IsOffset offset) :
    ∃ first rest, offset = first :: rest ∧
      (first.isDigit = true ∨ first = '.' ∨ first.isLower = true) := by
  have decimals : ∀ {digits : List Char}, IsDecimal digits → ∃ first rest, digits = first :: rest ∧
      (first.isDigit = true ∨ first = '.' ∨ first.isLower = true) := by
    intro digits good
    cases good with
    | whole good =>
      obtain ⟨first, rest, rfl⟩ := List.exists_cons_of_ne_nil good.1
      exact ⟨first, rest, rfl, .inl (good.2 first List.mem_cons_self)⟩
    | fraction good => exact ⟨'.', _, rfl, .inr (.inl rfl)⟩
    | both good fine =>
      obtain ⟨first, rest, rfl⟩ := List.exists_cons_of_ne_nil good.1
      exact ⟨first, _, rfl, .inl (good.2 first List.mem_cons_self)⟩
  cases good with
  | number good => exact decimals good
  | percentage good =>
    obtain ⟨first, rest, rfl, start⟩ := decimals good
    exact ⟨first, _, rfl, start⟩
  | word present small =>
    obtain ⟨first, rest, rfl⟩ := List.exists_cons_of_ne_nil present
    exact ⟨first, rest, rfl, .inr (.inr (small first List.mem_cons_self))⟩

theorem isBlank_offset_head {first : Char}
    (start : first.isDigit = true ∨ first = '.' ∨ first.isLower = true) :
    isBlank first = false := by
  rcases start with digit | rfl | small
  · have bounds := code_of_isDigit digit
    exact isBlank_eq_false (by omega) (by omega)
  · decide
  · have bounds := code_of_isLower small
    exact isBlank_eq_false (by omega) (by omega)

theorem takes_listedOffset {offset mark rest : List Char} {found : Option (List Char)}
    (takes : keyframeOffset.Takes offset offset (mark ++ rest))
    (marked : (optional comma).Takes found mark rest) :
    (do
      let offset ← keyframeOffset
      let _ ← optional comma
      return offset).Takes offset (offset ++ mark) rest := by
  refine takes_bind.mpr ⟨offset, offset, mark, rfl, takes, takes_bind.mpr ?_⟩
  exact ⟨found, mark, [], (List.append_nil _).symm, marked, takes_pure.mpr ⟨rfl, rfl⟩⟩

theorem read_keyframeOffset_eq_none {text : List Char} (number : EndsNumber text)
    (letter : StopsAt Char.isLower text) : keyframeOffset.read text = none := by
  refine read_bind_of_none (read_orElse_eq_none.mpr ⟨?_, read_run1_of_stopsAt letter⟩)
  exact read_text_of_none (read_bind_of_none (read_decimal_eq_none number))

theorem stopsAt_isBlank_offsets {first : List Char} (good : IsOffset first)
    (others : List (List Char)) (rest : List Char) :
    StopsAt isBlank (joined (first :: others) ++ rest) := by
  obtain ⟨head, tail, rfl, start⟩ := isOffset_head good
  obtain ⟨behind, parts⟩ := joined_eq_append (head :: tail) others
  rw [parts]
  exact isBlank_offset_head start

/-- The brace behind the list and the commas in it both end an offset. -/
theorem takes_offsets {values : List (List Char)} (each : ∀ value ∈ values, IsOffset value)
    (rest : List Char) : offsets.Takes values (joined values) ('{' :: rest) := by
  induction values with
  | nil =>
    have brace : EndsOffset ('{' :: rest) := .inr rfl
    have number : EndsNumber ('{' :: rest) := brace.stopsAt (by decide) (by decide)
    have letter : StopsAt Char.isLower ('{' :: rest) := brace.stopsAt (by decide) (by decide)
    exact takes_many_nil (read_bind_of_none (read_keyframeOffset_eq_none number letter))
  | cons first others inductionHypothesis =>
    have good := each first List.mem_cons_self
    have later := inductionHypothesis fun value member => each value (List.mem_cons_of_mem _ member)
    obtain ⟨head, tail, parts, -⟩ := isOffset_head good
    have filled : ∀ mark, first ++ mark ≠ [] := fun mark => by simp [parts]
    cases others with
    | nil =>
      have noComma : (optional comma).Takes none [] ('{' :: rest) :=
        takes_optional.mpr (.inr ⟨rfl, rfl, rfl⟩)
      have last : EndsOffset ('{' :: rest) := .inr rfl
      have item := takes_listedOffset (takes_keyframeOffset good last) noComma
      have whole := takes_many_cons (filled []) item later
      rw [joined, List.append_nil, List.append_nil] at whole
      exact whole
    | cons second others =>
      have next := each second (List.mem_cons_of_mem _ List.mem_cons_self)
      have blank := stopsAt_isBlank_offsets next others ('{' :: rest)
      have marked : (optional comma).Takes (some [',']) [',']
          (joined (second :: others) ++ '{' :: rest) :=
        takes_optional.mpr (.inl ⟨_, rfl, takes_mark.mpr ⟨rfl, [], rfl, allBlank_nil, blank⟩⟩)
      have inner : EndsOffset ([','] ++ (joined (second :: others) ++ '{' :: rest)) := .inl rfl
      have item := takes_listedOffset (takes_keyframeOffset good inner) marked
      have whole := takes_many_cons (filled [',']) item later
      rw [List.append_assoc] at whole
      exact whole

end CssSyntax.Grammar
