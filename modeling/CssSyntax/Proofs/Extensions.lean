/-
This file puts blanks behind a text.

Cutting a text can only take away what a pattern looks for; putting more behind it can bring such a
thing into being. Blanks bring in no quote, no parenthesis, no semicolon and no brace, so whatever
ends with one of those is found where it was found before. What reads on to a brace is another
matter: it reads the blanks as well, unless the brace is already there. A derivation has all the
braces it needs, and it holds in front of more blanks. And since every pattern takes one text only,
a text has no second derivation with the same tree.
-/

import CssSyntax.Proofs.Excerpts
import CssSyntax.Proofs.Reports
import CssSyntax.Proofs.Roundtrip

namespace CssSyntax

variable {more : List Char}

theorem StopsAt.append {accepted : Char → Bool} {text : List Char} (stops : StopsAt accepted text)
    (filled : text ≠ []) (more : List Char) : StopsAt accepted (text ++ more) := by
  cases text with
  | nil => exact absurd rfl filled
  | cons first rest => exact stops

namespace Pattern

variable {α β : Type} {pattern first second : Pattern α} {next : α → Pattern β}

theorem takes_unique {value other : α} {text rest part left : List Char}
    (takes : pattern.Takes value text rest) (others : pattern.Takes other part left)
    (same : text ++ rest = part ++ left) : value = other ∧ text = part ∧ rest = left := by
  unfold Takes at takes others
  rw [same, others] at takes
  obtain ⟨rfl, rfl, rfl⟩ := Match.mk.inj (Option.some.inj takes)
  exact ⟨rfl, rfl, rfl⟩

/-! ### Texts that end early enough -/

/-- In front of more text, the pattern takes nothing that reaches behind the input. -/
def Confined (pattern : Pattern α) (input more : List Char) : Prop :=
  ∀ ⦃value text rest⦄, pattern.Takes value text rest → text ++ rest = input ++ more → text <+: input

/-- What the pattern takes ends with a character that is no blank. -/
def Firm (pattern : Pattern α) : Prop :=
  ∀ ⦃value text rest⦄, pattern.Takes value text rest →
    ∃ front final, text = front ++ [final] ∧ isBlank final = false

theorem Firm.confined (firm : Firm pattern) (blank : AllBlank more) (input : List Char) :
    Confined pattern input more := by
  intro value text rest takes parts
  obtain ⟨front, final, ending, unblank⟩ := firm takes
  rcases List.append_eq_append_iff.mp parts with ⟨kept, rfl, -⟩ | ⟨tail, rfl, rfl⟩
  · exact List.prefix_append _ _
  · rw [eq_nil_of_blank_end (List.forall_mem_append.mp blank).1 ending unblank, List.append_nil]

/-- A mark that is never taken keeps the pattern in front of it. -/
theorem confined_of_mark {mark : Char} {input : List Char}
    (markless : ∀ ⦃value text rest⦄, pattern.Takes value text rest → mark ∉ text)
    (member : mark ∈ input) : Confined pattern input more := by
  intro value text rest takes parts
  rcases List.append_eq_append_iff.mp parts with ⟨kept, rfl, -⟩ | ⟨tail, rfl, -⟩
  · exact List.prefix_append _ _
  · exact absurd (List.mem_append_left tail member) (markless takes)

theorem Confined.read_eq_none {input : List Char} (confined : Confined pattern input more)
    (steady : Steady pattern) (absent : pattern.read input = none) :
    pattern.read (input ++ more) = none := by
  rw [read_eq_none_iff]
  intro value text rest parts takes
  obtain ⟨kept, rfl⟩ := confined takes parts.symm
  rw [List.append_assoc] at parts
  have less : kept <+: rest := ⟨more, List.append_cancel_left parts⟩
  exact read_ne_none_of_takes (steady less takes) absent

theorem Confined.takes {value : α} {text rest : List Char}
    (confined : Confined pattern (text ++ rest) more) (steady : Steady pattern)
    (takes : pattern.Takes value text rest)
    (present : pattern.read (text ++ (rest ++ more)) ≠ none) :
    pattern.Takes value text (rest ++ more) := by
  obtain ⟨found, read⟩ := Option.ne_none_iff_exists'.mp present
  have parts := pattern.taken_append_rest read
  have found_takes := takes_of_read read
  have parts' : found.taken ++ found.rest = text ++ rest ++ more := by
    rw [parts, List.append_assoc]
  obtain ⟨kept, cut⟩ := confined found_takes parts'
  rw [← cut, List.append_assoc] at parts'
  have less : kept <+: found.rest := ⟨more, (List.append_cancel_left parts').symm⟩
  obtain ⟨rfl, rfl, -⟩ := takes_unique takes (steady less found_takes) cut.symm
  have behind := List.append_cancel_left parts
  rwa [behind] at found_takes

/-! ### Patterns that do not mind blanks -/

/-- What the pattern takes in front of some text, it takes as well when blanks follow. -/
def Lasting (pattern : Pattern α) : Prop :=
  ∀ ⦃value text rest more⦄, AllBlank more → rest ≠ [] → pattern.Takes value text rest →
    pattern.Takes value text (rest ++ more)

/-- Where the pattern finds nothing in some text, it finds nothing when blanks follow. -/
def Missing (pattern : Pattern α) : Prop :=
  ∀ ⦃input more⦄, AllBlank more → input ≠ [] → pattern.read input = none →
    pattern.read (input ++ more) = none

theorem Firm.missing (firm : Firm pattern) (steady : Steady pattern) : Missing pattern :=
  fun _ _ blank _ => (firm.confined blank _).read_eq_none steady

/-- Such a pattern needs no text behind what it takes. -/
theorem Firm.takes (firm : Firm pattern) (steady : Steady pattern) (fading : Fading pattern)
    (blank : AllBlank more) {value : α} {text rest : List Char}
    (takes : pattern.Takes value text rest) : pattern.Takes value text (rest ++ more) := by
  refine (firm.confined blank _).takes steady takes fun absent => ?_
  have less : text ++ rest <+: text ++ (rest ++ more) :=
    (List.prefix_append_right_inj text).mpr (List.prefix_append rest more)
  exact read_ne_none_of_takes takes (fading less absent)

theorem Firm.lasting (firm : Firm pattern) (steady : Steady pattern) (fading : Fading pattern) :
    Lasting pattern :=
  fun _ _ _ _ blank _ => firm.takes steady fading blank

theorem lasting_pure (value : α) : Lasting (pure value : Pattern α) := by
  intro found text rest more blank filled takes
  exact takes_pure.mpr (takes_pure.mp takes)

theorem lasting_bind (former : Lasting pattern) (latter : ∀ value, Lasting (next value)) :
    Lasting (pattern >>= next) := by
  intro value text rest more blank filled takes
  obtain ⟨found, head, tail, rfl, takes, later⟩ := takes_bind.mp takes
  have behind := former blank (List.append_ne_nil_of_right_ne_nil tail filled) takes
  rw [List.append_assoc] at behind
  exact takes_bind.mpr ⟨found, head, tail, rfl, behind, latter found blank filled later⟩

theorem lasting_map (change : α → β) (lasting : Lasting pattern) : Lasting (change <$> pattern) :=
  lasting_bind lasting fun _ => lasting_pure _

theorem lasting_run (accepted : Char → Bool) : Lasting (run accepted) := by
  intro value text rest more blank filled takes
  obtain ⟨same, good, stops⟩ := takes_run.mp takes
  exact takes_run.mpr ⟨same, good, stops.append filled more⟩

theorem lasting_nonempty (lasting : Lasting pattern) : Lasting (nonempty pattern) := by
  intro value text rest more blank filled takes
  obtain ⟨takes, present⟩ := takes_nonempty.mp takes
  exact takes_nonempty.mpr ⟨lasting blank filled takes, present⟩

theorem lasting_run1 (accepted : Char → Bool) : Lasting (run1 accepted) :=
  lasting_nonempty (lasting_run accepted)

theorem missing_run1 (accepted : Char → Bool) : Missing (run1 accepted) := by
  intro input more blank filled absent
  exact read_run1_eq_none_iff.mpr ((read_run1_eq_none_iff.mp absent).append filled more)

theorem lasting_exactly (word : List Char) : Lasting (exactly word) := by
  intro value text rest more blank filled takes
  exact takes_exactly.mpr (takes_exactly.mp takes)

theorem missing_exactly (mark : Char) : Missing (exactly [mark]) := by
  intro input more blank filled absent
  rw [read_exactly_eq_none] at absent ⊢
  obtain ⟨head, others, rfl⟩ := List.exists_cons_of_ne_nil filled
  intro start
  obtain ⟨rfl, -⟩ := List.cons_prefix_cons.mp start
  exact absent (List.cons_prefix_cons.mpr ⟨rfl, List.nil_prefix⟩)

theorem lasting_spaced (lasting : Lasting pattern) : Lasting (spaced pattern) :=
  lasting_bind lasting fun _ => lasting_bind (lasting_run _) fun _ => lasting_pure _

theorem lasting_text (lasting : Lasting pattern) : Lasting (Pattern.text pattern) := by
  intro value text rest more blank filled takes
  obtain ⟨rfl, found, takes⟩ := takes_text.mp takes
  exact takes_text.mpr ⟨rfl, found, lasting blank filled takes⟩

theorem lasting_orElse (former : Lasting first) (missing : Missing first)
    (latter : Lasting second) : Lasting (first <|> second) := by
  intro value text rest more blank filled takes
  rcases takes_orElse.mp takes with takes | ⟨absent, takes⟩
  · exact takes_orElse.mpr (.inl (former blank filled takes))
  · have still := missing blank (List.append_ne_nil_of_right_ne_nil text filled) absent
    rw [List.append_assoc] at still
    exact takes_orElse.mpr (.inr ⟨still, latter blank filled takes⟩)

theorem missing_orElse (former : Missing first) (latter : Missing second) :
    Missing (first <|> second) := by
  intro input more blank filled absent
  obtain ⟨neither, nor⟩ := read_orElse_eq_none.mp absent
  exact read_orElse_eq_none.mpr ⟨former blank filled neither, latter blank filled nor⟩

theorem lasting_optional (lasting : Lasting pattern) (missing : Missing pattern) :
    Lasting (optional pattern) := by
  intro value text rest more blank filled takes
  rcases takes_optional.mp takes with ⟨found, rfl, present⟩ | ⟨rfl, rfl, absent⟩
  · exact takes_optional.mpr (.inl ⟨found, rfl, lasting blank filled present⟩)
  · exact takes_optional.mpr (.inr ⟨rfl, rfl, missing blank filled absent⟩)

theorem lasting_many (lasting : Lasting pattern) (missing : Missing pattern)
    (progresses : Progresses pattern) : Lasting (many pattern) := by
  intro values text rest more blank filled takes
  induction values generalizing text with
  | nil =>
    rcases takes_many.mp takes with ⟨-, rfl, ends⟩ | ⟨value, others, former, latter, absurdity, -⟩
    · exact takes_many_nil (missing blank filled ((ends_iff_of_progresses progresses).mp ends))
    · cases absurdity
  | cons value values inductionHypothesis =>
    rcases takes_many.mp takes with ⟨absurdity, -⟩ |
      ⟨head, others, former, latter, same, rfl, present, takes, later⟩
    · cases absurdity
    · obtain ⟨rfl, rfl⟩ := List.cons.inj same
      have behind := lasting blank (List.append_ne_nil_of_right_ne_nil latter filled) takes
      rw [List.append_assoc] at behind
      exact takes_many_cons present behind (inductionHypothesis later)

end Pattern

namespace Grammar

open Pattern

/-! ### Declarations -/

theorem firm_quotedSegment : Firm quotedSegment := by
  intro value text rest takes
  obtain ⟨rfl, measured⟩ := takes_sized.mp takes
  obtain ⟨quote, body, after, parts, length, mark, -⟩ := split_of_lengthAt? measured
  have whole : value ++ rest = (quote :: body ++ [quote]) ++ after := by rw [parts]; simp
  have same : value = quote :: body ++ [quote] :=
    (List.append_inj whole (by rw [length]; simp)).1
  refine ⟨quote :: body, quote, same, ?_⟩
  rcases mark with rfl | rfl <;> decide

theorem firm_groupSegment : Firm groupSegment := by
  intro value text rest takes
  obtain ⟨-, inner, rfl, -⟩ := takes_groupSegment.mp takes
  exact ⟨'(' :: inner, ')', rfl, by decide⟩

theorem lasting_bareSegment : Lasting bareSegment := by
  intro value text rest more blank filled takes
  exact takes_bareSegment.mpr (takes_bareSegment.mp takes)

theorem missing_bareSegment : Missing bareSegment := by
  intro input more blank filled absent
  rw [read_eq_none_iff] at absent ⊢
  intro value text rest parts takes
  obtain ⟨first, others, rfl⟩ := List.exists_cons_of_ne_nil filled
  obtain ⟨-, character, rfl, -⟩ := takes_bareSegment.mp takes
  obtain ⟨rfl, -⟩ := List.cons.inj parts
  exact absent value [first] others rfl (takes_bareSegment.mpr (takes_bareSegment.mp takes))

theorem missing_quotedSegment : Missing quotedSegment :=
  firm_quotedSegment.missing steady_quotedSegment

theorem missing_groupSegment : Missing groupSegment :=
  firm_groupSegment.missing steady_groupSegment

theorem lasting_segment : Lasting segment := by
  have quoted := firm_quotedSegment.lasting steady_quotedSegment fading_quotedSegment
  have group := firm_groupSegment.lasting steady_groupSegment fading_groupSegment
  exact lasting_orElse quoted missing_quotedSegment
    (lasting_orElse group missing_groupSegment lasting_bareSegment)

theorem missing_segment : Missing segment :=
  missing_orElse missing_quotedSegment (missing_orElse missing_groupSegment missing_bareSegment)

theorem lasting_declarationValue : Lasting declarationValue :=
  lasting_nonempty
    (lasting_text (lasting_many lasting_segment missing_segment progresses_segment))

theorem missing_declarationValue : Missing declarationValue := by
  intro input more blank filled absent
  rw [declarationValue, read_pieces_eq_none_iff progresses_segment] at absent ⊢
  exact missing_segment blank filled absent

theorem lasting_mark (mark : Char) : Lasting (spaced (exactly [mark])) :=
  lasting_spaced (lasting_exactly _)

theorem lasting_propertyName : Lasting propertyName := by
  have bracket : Lasting (exactly [']']) := lasting_exactly _
  have bracketed : Lasting (do
      let _ ← exactly ['[']
      let _ ← run1 isAttributeChar
      exactly [']']) :=
    lasting_bind (lasting_exactly _) fun _ => lasting_bind (lasting_run1 _) fun _ => bracket
  have steady : Steady (do
      let _ ← exactly ['[']
      let _ ← run1 isAttributeChar
      exactly [']']) :=
    steady_bind (steady_exactly _) fun _ => steady_bind (steady_run1 _) fun _ => steady_exactly _
  have firm : Firm (do
      let _ ← exactly ['[']
      let _ ← run1 isAttributeChar
      exactly [']']) := by
    intro value text rest takes
    obtain ⟨-, inner, rfl, -⟩ := takes_attribute.mp takes
    exact ⟨'[' :: inner, ']', rfl, by decide⟩
  have star := lasting_optional (lasting_exactly ['*']) (missing_exactly '*')
  exact lasting_spaced (lasting_text (lasting_bind star fun _ =>
    lasting_bind (lasting_run1 _) fun _ => lasting_optional bracketed (firm.missing steady)))

/-! ### Openings -/

theorem firm_vendorKeyword (name : AtKeyword) : Firm (vendorKeyword name) := by
  intro vendor text rest takes
  obtain ⟨rfl, -, -⟩ := takes_vendorKeyword_iff.mp takes
  have filled := text_ne_nil name
  have last := identifier_of_keyword name _ (List.getLast_mem filled)
  refine ⟨'@' :: (vendor.getD "").toList ++ name.text.toList.dropLast, _, ?_,
    isBlank_of_isIdentifierChar last⟩
  rw [List.append_assoc, List.dropLast_append_getLast filled]
  rfl

theorem lasting_vendorKeyword (name : AtKeyword) : Lasting (vendorKeyword name) :=
  (firm_vendorKeyword name).lasting (steady_vendorKeyword name) (fading_vendorKeyword name)

/-- A text without any blank in it ends with no blank. -/
theorem last_of_unblank {text : List Char} (filled : text ≠ [])
    (unblank : ∀ character ∈ text, isBlank character = false) :
    ∃ front final, text = front ++ [final] ∧ isBlank final = false :=
  ⟨text.dropLast, text.getLast filled, (List.dropLast_append_getLast filled).symm,
    unblank _ (List.getLast_mem filled)⟩

theorem last_of_digits {digits : List Char} (good : IsDigits digits) :
    ∃ front final, digits = front ++ [final] ∧ isBlank final = false := by
  refine last_of_unblank good.1 fun character member => ?_
  have bounds := code_of_isDigit (good.2 character member)
  exact isBlank_eq_false (by omega) (by omega)

theorem last_of_decimal {digits : List Char} (good : IsDecimal digits) :
    ∃ front final, digits = front ++ [final] ∧ isBlank final = false := by
  cases good with
  | whole good => exact last_of_digits good
  | fraction good =>
    obtain ⟨front, final, rfl, unblank⟩ := last_of_digits good
    exact ⟨'.' :: front, final, rfl, unblank⟩
  | @both digits places good fine =>
    obtain ⟨front, final, rfl, unblank⟩ := last_of_digits fine
    exact ⟨digits ++ '.' :: front, final, by rw [List.append_assoc]; rfl, unblank⟩

theorem firm_orElse {α : Type} {first second : Pattern α} (former : Firm first)
    (latter : Firm second) : Firm (first <|> second) := by
  intro value text rest takes
  rcases takes_orElse.mp takes with takes | ⟨-, takes⟩
  · exact former takes
  · exact latter takes

theorem firm_number : Firm (Pattern.text do
    let _ ← decimal
    optional (exactly ['%'])) := by
  intro value text rest takes
  obtain ⟨-, mark, parts⟩ := takes_text.mp takes
  obtain ⟨digits, first, tail, rfl, decimals, ending⟩ := takes_bind.mp parts
  obtain ⟨rfl, good⟩ := isDecimal_of_takes decimals
  rcases takes_optional.mp ending with ⟨percent, -, marked⟩ | ⟨-, rfl, -⟩
  · obtain ⟨-, rfl⟩ := takes_exactly.mp marked
    exact ⟨digits, '%', rfl, by decide⟩
  · rw [List.append_nil]
    exact last_of_decimal good

theorem firm_word : Firm (run1 Char.isLower) := by
  intro value text rest takes
  obtain ⟨-, filled, small, -⟩ := takes_run1.mp takes
  refine last_of_unblank filled fun character member => ?_
  have bounds := code_of_isLower (small character member)
  exact isBlank_eq_false (by omega) (by omega)

theorem lasting_keyframeOffset : Lasting keyframeOffset := by
  refine lasting_spaced ((firm_orElse firm_number firm_word).lasting ?_ ?_)
  · exact steady_orElse steady_number fading_number (steady_run1 _)
  · exact fading_orElse fading_number (fading_run1 _)

theorem missing_keyframeOffset : Missing keyframeOffset := by
  intro input more blank filled absent
  rw [keyframeOffset, read_spaced_eq_none] at absent ⊢
  exact missing_orElse (firm_number.missing steady_number) (missing_run1 _) blank filled absent

theorem lasting_offsets : Lasting offsets := by
  have comma : Lasting (optional comma) :=
    lasting_optional (lasting_mark ',') fun input more blank filled absent =>
      read_spaced_eq_none.mpr (missing_exactly ',' blank filled (read_spaced_eq_none.mp absent))
  refine lasting_many ?_ ?_ progresses_offset
  · exact lasting_bind lasting_keyframeOffset fun _ => lasting_bind comma fun _ => lasting_pure _
  · have total (value : List Char) : Total (do
        let _ ← optional Grammar.comma
        return value) := total_bind (total_optional _) fun _ => total_pure _
    intro input more blank filled absent
    rw [read_bind_eq_none_iff total] at absent ⊢
    exact missing_keyframeOffset blank filled absent

theorem lasting_condition (name : AtKeyword) : Lasting (condition name) :=
  lasting_bind (lasting_exactly _) fun _ => lasting_bind (lasting_run1 _) fun _ => lasting_pure _

theorem lasting_documentOpening : Lasting documentOpening :=
  lasting_bind (lasting_vendorKeyword _) fun _ => lasting_bind (lasting_run1 _) fun _ =>
    lasting_pure _

theorem lasting_pageOpening : Lasting pageOpening := by
  have selectors : Lasting (optional selectorText) :=
    lasting_optional (lasting_run1 _) (missing_run1 _)
  exact lasting_bind (lasting_exactly _) fun _ => lasting_bind (lasting_run _) fun _ =>
    lasting_bind selectors fun _ => lasting_pure _

theorem lasting_of_conditional {name : AtKeyword} {opening : Pattern Header} {room : Room}
    (form : name.form = .conditional opening room) : Lasting opening := by
  cases name <;> cases form
  case media | supports => exact lasting_map _ (lasting_condition _)
  case document => exact lasting_documentOpening
  case page => exact lasting_pageOpening
  case host | fontFace => exact lasting_map _ (lasting_spaced (lasting_exactly _))

theorem fading_of_statement {name : AtKeyword} {opening : Pattern Leaf}
    (form : name.form = .statement opening) : Fading opening := by
  cases name <;> cases form
  case customMedia => exact fading_customMedia
  case importRule | charset | namespaceRule => exact fading_map _ (fading_payload _)

theorem firm_of_statement {name : AtKeyword} {opening : Pattern Leaf}
    (form : name.form = .statement opening) : Firm opening := by
  intro content text rest takes
  obtain ⟨front, parts⟩ := last_of_statement form takes
  exact ⟨front, ';', parts, by decide⟩

end Grammar

open Grammar Pattern

/-! ### At-rules that are not ahead -/

theorem AtKeyword.Absent.extend_keyframes {input : List Char} (blank : AllBlank more)
    (absent : AtKeyword.keyframes.Absent input) : AtKeyword.keyframes.Absent (input ++ more) := by
  have firm := firm_vendorKeyword .keyframes
  refine read_spaced_eq_none.mpr ((firm.confined blank _).read_eq_none (steady_vendorKeyword _) ?_)
  exact read_spaced_eq_none.mp absent

/-- An at-rule with a block may come into being when its opening gets longer, but not behind a
brace. -/
theorem AtKeyword.Absent.extend {name : AtKeyword} {input : List Char} (blank : AllBlank more)
    (brace : '{' ∈ input) (absent : name.Absent input) : name.Absent (input ++ more) := by
  cases form : name.form with
  | keyframes =>
    rw [eq_keyframes form] at absent ⊢
    exact absent.extend_keyframes blank
  | statement opening =>
    unfold AtKeyword.Absent at absent ⊢
    rw [form] at absent ⊢
    exact ((firm_of_statement form).confined blank _).read_eq_none (steady_of_statement form) absent
  | conditional opening room =>
    unfold AtKeyword.Absent at absent ⊢
    rw [form] at absent ⊢
    refine (confined_of_mark ?_ brace).read_eq_none (steady_of_conditional form) absent
    exact fun header text rest takes => (written_of_conditional form takes).braceless

/-- No keyword is the beginning of another one. -/
theorem written_not_prefix {name other : AtKeyword} (differ : other ≠ name) (behind : List Char) :
    ¬ other.written <+: name.written ++ behind := by
  have apart : ¬ other.written <+: name.written ∧ ¬ name.written <+: other.written := by
    cases name <;> cases other <;> first | exact absurd rfl differ | decide +kernel
  intro start
  rcases List.prefix_or_prefix_of_prefix start (List.prefix_append _ _) with less | less
  · exact apart.1 less
  · exact apart.2 less

theorem written_prefix_of_statement {name : AtKeyword} {opening : Pattern Leaf} {content : Leaf}
    {text rest : List Char} (form : name.form = .statement opening)
    (takes : opening.Takes content text rest) : name.written <+: text := by
  cases name <;> cases form
  case customMedia =>
    obtain ⟨word, query, -, gap, inner, rfl, -⟩ := customMediaForm_of_takes takes
    simp only [List.append_assoc, List.prefix_append]
  case importRule | charset | namespaceRule =>
    obtain ⟨payload, -, taken⟩ := takes_map.mp takes
    obtain ⟨inner, rfl, -⟩ := takes_payload.mp taken
    simp only [List.append_assoc, List.prefix_append]

theorem ne_of_mem_earlier {name other : AtKeyword} (member : other ∈ name.earlier) :
    other ≠ name := by
  unfold AtKeyword.earlier at member
  have differ := List.mem_takeWhile_imp member
  exact of_decide_eq_true differ

/-- What passes by a statement passes by it when blanks follow. Most at-rules have another keyword,
and the keyword `keyframes` would have been found. -/
theorem absent_extend_of_statement {name other : AtKeyword} {opening : Pattern Leaf}
    {content : Leaf} {text rest : List Char} (form : name.form = .statement opening)
    (takes : opening.Takes content text rest) (member : other ∈ name.earlier)
    (blank : AllBlank more) (absent : other.Absent (text ++ rest)) :
    other.Absent (text ++ (rest ++ more)) := by
  obtain ⟨tail, rfl⟩ := written_prefix_of_statement form takes
  cases vendored : other.takesVendor with
  | false =>
    refine absent_of_keyword vendored ?_
    rw [List.append_assoc]
    exact written_not_prefix (ne_of_mem_earlier member) _
  | true =>
    cases other with
    | document => exact absurd rfl (not_document_of_earlier form member)
    | keyframes =>
      rw [← List.append_assoc]
      exact absent.extend_keyframes blank
    | _ => cases vendored

/-! ### Choices in front of blanks -/

section

variable {room : Room} {content : Leaf} {header : Header} {text rest input : List Char}

theorem not_prefix_extend {word : List Char} (blank : AllBlank more)
    (unblank : (word.all fun character => !isBlank character) = true) (absent : ¬ word <+: input) :
    ¬ word <+: input ++ more := by
  refine fun start => absent (prefix_of_stopsAt (List.all_eq_true.mp unblank) ?_ start)
  cases more with
  | nil => exact trivial
  | cons first others =>
    rw [StopsAt, blank first List.mem_cons_self]
    rfl

theorem EndsList.extend (filled : rest ≠ []) (ending : EndsList rest) : EndsList (rest ++ more) :=
  .inr ((ending.resolve_left filled).trans (List.prefix_append _ _))

theorem Room.Continues.extend (blank : AllBlank more) (filled : input ≠ [])
    (continues : room.Continues input) : room.Continues (input ++ more) := by
  refine ⟨not_prefix_extend blank (by decide) continues.1, fun isRules ending => ?_⟩
  rcases ending with nothing | closed
  · exact filled (List.append_eq_nil_iff.mp nothing).1
  · refine not_prefix_extend blank (by decide) (fun start => ?_) closed
    exact continues.2 isRules (.inr start)

/-- A declaration has to end in front of something, which it always does in a block. -/
theorem Room.TakesLeaf.extend (blank : AllBlank more) (ends : rest ≠ [] ∨ room ≠ .declarations)
    (takes : room.TakesLeaf content text rest) : room.TakesLeaf content text (rest ++ more) := by
  have filled : text ++ rest ≠ [] := List.append_ne_nil_of_left_ne_nil takes.ne_nil _
  cases takes with
  | comment takes => exact .comment (takes_commentBody.mpr (takes_commentBody.mp takes))
  | @declaration property former sign mark latter _ value continues named marked valued =>
    have filled' : rest ≠ [] := ends.resolve_right fun other => other rfl
    have behindMark : latter ++ rest ≠ [] := List.append_ne_nil_of_right_ne_nil _ filled'
    have behindName : mark ++ (latter ++ rest) ≠ [] :=
      List.append_ne_nil_of_right_ne_nil _ behindMark
    have continues' := continues.extend blank filled
    have named' := lasting_propertyName blank behindName named
    have marked' := lasting_mark ':' blank behindMark marked
    simp only [List.append_assoc] at continues' named' marked'
    refine .declaration ?_ named' marked' ?_
    · simpa only [List.append_assoc] using continues'
    · exact lasting_optional lasting_declarationValue missing_declarationValue blank filled' valued
  | statement continues form earlier takes =>
    have continues' := continues.extend blank filled
    rw [List.append_assoc] at continues'
    refine .statement continues' form (fun other member => ?_) ?_
    · exact absent_extend_of_statement form takes member blank (earlier other member)
    · exact (firm_of_statement form).takes (steady_of_statement form) (fading_of_statement form)
        blank takes

theorem Room.Opens.extend (blank : AllBlank more)
    (opens : room.Opens header text ('{' :: rest)) :
    room.Opens header text ('{' :: rest ++ more) := by
  have filled : '{' :: rest ≠ [] := List.cons_ne_nil _ _
  have brace : '{' ∈ text ++ '{' :: rest := List.mem_append_right _ List.mem_cons_self
  cases opens with
  | conditional form earlier takes =>
    refine .conditional form (fun other member => ?_)
      (lasting_of_conditional form blank filled takes)
    rw [← List.append_assoc]
    exact (earlier other member).extend blank brace
  | @keyframes vendor name former latter _ vendored named =>
    have behindVendor := List.append_ne_nil_of_right_ne_nil latter filled
    have vendored' := lasting_spaced (lasting_vendorKeyword _) blank behindVendor vendored
    rw [List.append_assoc] at vendored'
    exact .keyframes vendored' (lasting_spaced (lasting_run1 _) blank filled named)
  | rule absent takes =>
    refine .rule (fun name => ?_) (lasting_run1 _ blank filled takes)
    rw [← List.append_assoc]
    exact (absent name).extend blank brace
  | keyframe takes => exact .keyframe (lasting_nonempty lasting_offsets blank filled takes)

end

/-! ### Derivations in front of blanks -/

variable {source : Option String}

mutual

/-- A derivation holds when blanks follow. -/
theorem Derives.extend {room : Room} {place : Location} {text rest : List Char} {node : Node}
    (blank : AllBlank more) (ends : rest ≠ [] ∨ room ≠ .declarations)
    (derives : Derives source room place text rest node) :
    Derives source room place text (rest ++ more) node := by
  cases derives with
  | leaf takes => exact .leaf (takes.extend blank ends)
  | @block _ _ _ opening inside _ _ _ continues opens body behind =>
    have filled : opening ++ ('{' :: inside ++ '}' :: rest) ≠ [] :=
      List.append_ne_nil_of_right_ne_nil _ (List.cons_ne_nil _ _)
    have continues' := continues.extend blank filled
    have opens' := opens.extend blank
    have body' := body.extend blank (List.cons_ne_nil _ _)
    simp only [List.append_assoc, List.cons_append] at continues' opens' body'
    exact .block (by simpa using continues') (by simpa using opens') body' behind

theorem DerivesAll.extend {room : Room} {skips : Char → Bool} {place : Location}
    {text rest : List Char} {nodes : List Node} (blank : AllBlank more) (filled : rest ≠ [])
    (derives : DerivesAll source room skips place text rest nodes) :
    DerivesAll source room skips place text (rest ++ more) nodes := by
  cases derives with
  | nil skipped ending => exact .nil skipped (ending.extend filled)
  | @cons _ _ _ gap text tail _ _ _ skipped stops head others =>
    have behind : tail ++ rest ≠ [] := List.append_ne_nil_of_right_ne_nil tail filled
    have head' := head.extend blank (.inl behind)
    have stops' := stops.append (List.append_ne_nil_of_right_ne_nil _ behind) more
    rw [List.append_assoc] at head' stops'
    rw [List.append_assoc] at stops'
    exact .cons skipped stops' head' (others.extend blank filled)

end

/-- At the top level the blanks may stand in front of the end of the text. -/
theorem DerivesAll.extend_end {place : Location} {text : List Char} {nodes : List Node}
    (blank : AllBlank more) (derives : DerivesAll source .rules isBlank place text [] nodes) :
    DerivesAll source .rules isBlank place (text ++ more) [] nodes := by
  cases derives with
  | nil skipped ending => exact .nil (List.forall_mem_append.mpr ⟨skipped, blank⟩) ending
  | @cons _ _ _ gap text tail _ node nodes skipped stops head others =>
    rw [Room.skipsBehind_rules] at others
    have head' := head.extend blank (.inr (by decide))
    have stops' := stops.append (List.append_ne_nil_of_left_ne_nil head.ne_nil _) more
    have later := others.extend_end blank
    simp only [List.append_assoc, List.nil_append] at head' stops'
    rw [List.append_assoc]
    refine .cons skipped ?_ ?_ ?_
    · rwa [List.append_nil]
    · rwa [List.append_nil]
    · rwa [Room.skipsBehind_rules]

/-! ### One derivation for a text -/

section

variable {room : Room} {content : Leaf} {header : Header} {text rest other left : List Char}

theorem Room.TakesLeaf.unique (takes : room.TakesLeaf content text rest)
    (others : room.TakesLeaf content other left) (same : text ++ rest = other ++ left) :
    text = other := by
  cases takes with
  | @comment _ body _ _ takes =>
    generalize leaf : Leaf.comment (String.ofList body) = content at others
    cases others with
    | comment others => exact (takes_unique takes others same).2.1
    | declaration => cases leaf
    | statement continues form earlier others =>
      subst leaf
      cases kind_of_statement form others
  | @declaration property former sign mark latter _ value continues named marked valued =>
    generalize leaf : Leaf.declaration _ _ = content at others
    cases others with
    | comment => cases leaf
    | @declaration _ former' _ mark' latter' _ _ continues' named' marked' valued' =>
      simp only [List.append_assoc] at same
      obtain ⟨-, rfl, behindName⟩ := takes_unique named named' same
      obtain ⟨-, rfl, behindMark⟩ := takes_unique marked marked' behindName
      obtain ⟨-, rfl, -⟩ := takes_unique valued valued' behindMark
      rfl
  | statement continues form earlier takes =>
    have kind := kind_of_statement form takes
    cases others with
    | comment => cases kind
    | statement continues' form' earlier' others =>
      obtain rfl := Kind.atRule.inj (kind.symm.trans (kind_of_statement form' others))
      obtain rfl := AtForm.statement.inj (form.symm.trans form')
      exact (takes_unique takes others same).2.1

theorem Room.Opens.unique (opens : room.Opens header text rest)
    (others : room.Opens header other left) (same : text ++ rest = other ++ left) :
    text = other := by
  cases opens with
  | @conditional name _ _ _ _ _ form earlier takes =>
    have kind := (kind_and_room_of_conditional form takes).1
    cases others with
    | conditional form' earlier' others =>
      have kind' := (kind_and_room_of_conditional form' others).1
      obtain rfl := Kind.atRule.inj (kind.symm.trans kind')
      obtain ⟨rfl, -⟩ := AtForm.conditional.inj (form.symm.trans form')
      exact (takes_unique takes others same).2.1
    | keyframes =>
      obtain rfl := Kind.atRule.inj kind
      cases form
    | rule => cases kind
  | @keyframes vendor name former latter _ vendored named =>
    generalize opened : Header.keyframes vendor (String.ofList name) = header at others
    cases others with
    | conditional form earlier takes =>
      subst opened
      obtain rfl := Kind.atRule.inj (kind_and_room_of_conditional form takes).1
      cases form
    | @keyframes _ _ former' latter' _ vendored' named' =>
      rw [List.append_assoc, List.append_assoc] at same
      obtain ⟨-, rfl, behind⟩ := takes_unique vendored vendored' same
      obtain ⟨-, rfl, -⟩ := takes_unique named named' behind
      rfl
    | rule => cases opened
  | @rule value _ _ absent takes =>
    generalize opened : Header.rule _ = header at others
    cases others with
    | conditional form earlier others =>
      subst opened
      cases (kind_and_room_of_conditional form others).1
    | keyframes => cases opened
    | rule absent' others => exact (takes_unique takes others same).2.1
  | @keyframe found _ _ takes =>
    generalize opened : Header.keyframe _ = header at others
    cases others with
    | keyframe others => exact (takes_unique takes others same).2.1

end

theorem EndsList.stopsAt {skips : Char → Bool} {rest : List Char} (ending : EndsList rest)
    (closes : skips '}' = false) : StopsAt skips rest := by
  rcases ending with rfl | ⟨others, rfl⟩
  · exact trivial
  · exact closes

mutual

/-- A text is chosen as a tree in one way only. -/
theorem Derives.unique {room : Room} {place : Location} {text rest other left : List Char}
    {node twin : Node} (derives : Derives source room place text rest node)
    (others : Derives source room place other left twin) (same : text ++ rest = other ++ left)
    (alike : node.tree = twin.tree) : text = other ∧ node = twin := by
  cases derives with
  | leaf takes =>
    cases others with
    | leaf takes' =>
      obtain rfl := Tree.leaf.inj alike
      obtain rfl := takes.unique takes' same
      exact ⟨rfl, rfl⟩
    | block => cases alike
  | @block _ _ _ opening inside _ header children continues opens body behind =>
    cases others with
    | leaf => cases alike
    | @block _ _ _ opening' inside' _ _ children' continues' opens' body' behind' =>
      obtain ⟨rfl, trees⟩ := Tree.block.inj alike
      have whole : opening ++ ('{' :: inside ++ '}' :: rest) =
          opening' ++ ('{' :: inside' ++ '}' :: left) := by simpa using same
      obtain rfl := opens.unique opens' whole
      have inner : inside ++ '}' :: rest = inside' ++ '}' :: left :=
        List.cons.inj (List.append_cancel_left whole) |>.2
      obtain ⟨rfl, rfl⟩ := body.unique body' (by decide) inner trees
      rw [behind, behind']
      exact ⟨rfl, rfl⟩

theorem DerivesAll.unique {room : Room} {skips : Char → Bool} {place : Location}
    {text rest other left : List Char} {nodes twins : List Node}
    (derives : DerivesAll source room skips place text rest nodes)
    (others : DerivesAll source room skips place other left twins)
    (closes : skips '}' = false) (same : text ++ rest = other ++ left)
    (alike : Node.trees nodes = Node.trees twins) : text = other ∧ nodes = twins := by
  cases derives with
  | nil skipped ending =>
    cases others with
    | nil skipped' ending' =>
      have stops := ending.stopsAt closes
      have stops' := ending'.stopsAt closes
      exact ⟨(gap_unique skipped skipped' stops stops' same).1, rfl⟩
    | cons => cases alike
  | @cons _ _ _ gap text tail _ node nodes skipped stops head later =>
    cases others with
    | nil => cases alike
    | @cons _ _ _ gap' text' tail' _ twin twins skipped' stops' head' later' =>
      obtain ⟨tree, trees⟩ := List.cons.inj alike
      simp only [List.append_assoc] at same
      obtain ⟨rfl, behind⟩ := gap_unique skipped skipped' stops stops' same
      obtain ⟨rfl, rfl⟩ := head.unique head' behind tree
      have closed := room.skipsBehind_brace node.kind
      obtain ⟨rfl, rfl⟩ := later.unique later' closed (List.append_cancel_left behind) trees
      exact ⟨rfl, rfl⟩

end

end CssSyntax
