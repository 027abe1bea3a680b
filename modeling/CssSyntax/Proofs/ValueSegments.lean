/-
This file says where the value of a declaration ends.

A value falls into segments: quoted strings, groups in parentheses and bare characters. A quote or a
parenthesis opens something only if it is closed farther on, sometimes far behind the value. So a
segment is judged with all the text behind it in view, and so is a sequence of segments. The value
ends at the first brace or semicolon that no segment has in it. Nothing of the rest is needed to
find that place: the segments are the same in front of every beginning of the rest.
-/

import CssSyntax.Proofs.Cuts

namespace CssSyntax

open Grammar Pattern

/-! ### Segments -/

/-- What a segment of a value is. -/
inductive SegmentKind where
  | string
  | group
  | bare
  deriving DecidableEq

/-- A part of a value. -/
structure Segment where
  kind : SegmentKind
  text : List Char
  deriving DecidableEq

/-- In front of the text behind it, the text is a segment of the kind. -/
inductive IsSegment : SegmentKind → List Char → List Char → Prop where
  /-- A string has the length that is measured from its opening quote on. -/
  | string {text behind : List Char}
      (measured : Quoting.value.lengthAt? (text ++ behind) = some text.length) :
      IsSegment .string text behind
  /-- A group goes to the first closing parenthesis. -/
  | group {inner behind : List Char} (closed : ')' ∉ inner) :
      IsSegment .group ('(' :: inner ++ [')']) behind
  /-- Any other character is a segment, but for those that end a value. -/
  | bare {character : Char} {behind : List Char} (brace : character ≠ '}')
      (semicolon : character ≠ ';')
      (unquoted : Quoting.value.lengthAt? (character :: behind) = none)
      (unclosed : character = '(' → ')' ∉ behind) : IsSegment .bare [character] behind

/-- In front of the rest, the text is the segments one after another. -/
inductive Segmented : List Segment → List Char → List Char → Prop where
  | nil {rest : List Char} : Segmented [] [] rest
  | cons {kind : SegmentKind} {segments : List Segment} {text later rest : List Char}
      (first : IsSegment kind text (later ++ rest)) (others : Segmented segments later rest) :
      Segmented (⟨kind, text⟩ :: segments) (text ++ later) rest

/-- The text is empty or begins with a character that ends a value. -/
def EndsValue : List Char → Prop
  | [] => True
  | first :: _ => first = '}' ∨ first = ';'

variable {value text rest input : List Char}

/-! ### What is taken for a segment -/

theorem read_groupSegment_cons_eq_none_iff {first : Char} :
    groupSegment.read (first :: rest) = none ↔ (first = '(' → ')' ∉ rest) := by
  rw [read_eq_none_iff]
  constructor
  · rintro never rfl closes
    obtain ⟨inner, behind, rfl, closed⟩ := List.eq_append_cons_of_mem closes
    exact never _ _ behind (by simp) (takes_groupSegment.mpr ⟨rfl, inner, rfl, closed⟩)
  · rintro unclosed found taken behind parts takes
    obtain ⟨-, inner, rfl, -⟩ := takes_groupSegment.mp takes
    obtain ⟨rfl, rfl⟩ := List.cons.inj parts
    exact unclosed rfl (by simp)

theorem takes_segment_iff :
    segment.Takes value text rest ↔ value = text ∧ ∃ kind, IsSegment kind text rest := by
  rw [Grammar.segment, takes_orElse, takes_orElse]
  constructor
  · rintro (quoted | ⟨unquoted, group | ⟨ungrouped, bare⟩⟩)
    · obtain ⟨same, measured⟩ := takes_sized.mp quoted
      exact ⟨same, .string, .string measured⟩
    · obtain ⟨same, inner, rfl, closed⟩ := takes_groupSegment.mp group
      exact ⟨same, .group, .group closed⟩
    · obtain ⟨same, character, rfl, brace, semicolon⟩ := takes_bareSegment.mp bare
      refine ⟨same, .bare, .bare brace semicolon ?_ ?_⟩
      · exact read_quotedSegment_eq_none_iff.mp unquoted
      · exact read_groupSegment_cons_eq_none_iff.mp ungrouped
  · rintro ⟨rfl, kind, isSegment⟩
    cases isSegment with
    | string measured => exact .inl (takes_sized.mpr ⟨rfl, measured⟩)
    | group closed =>
      refine .inr ⟨?_, .inl (takes_groupSegment.mpr ⟨rfl, _, rfl, closed⟩)⟩
      exact read_quotedSegment_eq_none (by decide) (by decide)
    | bare brace semicolon unquoted unclosed =>
      refine .inr ⟨read_quotedSegment_eq_none_iff.mpr unquoted, .inr ⟨?_, ?_⟩⟩
      · exact read_groupSegment_cons_eq_none_iff.mpr unclosed
      · exact takes_bareSegment.mpr ⟨rfl, _, rfl, brace, semicolon⟩

theorem read_segment_eq_none_iff : segment.read input = none ↔ EndsValue input := by
  constructor
  · intro absent
    obtain ⟨-, unquoted⟩ := read_orElse_eq_none.mp absent
    obtain ⟨-, missing⟩ := read_orElse_eq_none.mp unquoted
    cases input with
    | nil => trivial
    | cons first rest =>
      refine Classical.byContradiction fun goesOn => ?_
      obtain ⟨brace, semicolon⟩ := not_or.mp goesOn
      have bare : bareSegment.Takes [first] [first] rest :=
        takes_bareSegment.mpr ⟨rfl, first, rfl, brace, semicolon⟩
      exact read_ne_none_of_takes bare missing
  · intro ends
    cases input with
    | nil => rfl
    | cons first rest =>
      rcases ends with rfl | rfl
      · refine read_orElse_eq_none.mpr ⟨read_quotedSegment_eq_none (by decide) (by decide), ?_⟩
        exact read_orElse_eq_none.mpr ⟨read_groupSegment_eq_none (by decide), rfl⟩
      · exact read_segment_eq_none rest

theorem IsSegment.ne_nil {kind : SegmentKind} (isSegment : IsSegment kind text rest) :
    text ≠ [] := by
  rintro rfl
  exact progresses_segment (takes_segment_iff.mpr ⟨rfl, kind, isSegment⟩)

/-! ### What is taken for a value -/

/-- Segments are taken as long as there are any. -/
theorem takes_segments_iff {values : List (List Char)} :
    (many segment).Takes values text rest ↔
      (∃ segments, Segmented segments text rest ∧ segments.map Segment.text = values) ∧
        EndsValue rest := by
  induction values generalizing text with
  | nil =>
    rw [takes_many, ends_iff_of_progresses progresses_segment, read_segment_eq_none_iff]
    constructor
    · rintro (⟨-, rfl, ends⟩ | ⟨_, _, _, _, absurdity, -⟩)
      · exact ⟨⟨[], .nil, rfl⟩, ends⟩
      · cases absurdity
    · rintro ⟨⟨segments, segmented, same⟩, ends⟩
      obtain rfl := List.map_eq_nil_iff.mp same
      cases segmented
      exact .inl ⟨rfl, rfl, ends⟩
  | cons value values inductionHypothesis =>
    constructor
    · intro takes
      rcases takes_many.mp takes with ⟨absurdity, -⟩ |
        ⟨head, others, former, latter, same, rfl, -, first, later⟩
      · cases absurdity
      · obtain ⟨rfl, rfl⟩ := List.cons.inj same
        obtain ⟨rfl, kind, isSegment⟩ := takes_segment_iff.mp first
        obtain ⟨⟨segments, segmented, rfl⟩, ends⟩ := inductionHypothesis.mp later
        exact ⟨⟨⟨kind, value⟩ :: segments, .cons isSegment segmented, rfl⟩, ends⟩
    · rintro ⟨⟨segments, segmented, same⟩, ends⟩
      cases segmented with
      | nil => cases same
      | cons isSegment others =>
        obtain ⟨rfl, rfl⟩ := List.cons.inj same
        refine takes_many_cons isSegment.ne_nil (takes_segment_iff.mpr ⟨rfl, _, isSegment⟩) ?_
        exact inductionHypothesis.mpr ⟨⟨_, others, rfl⟩, ends⟩

theorem takes_declarationValue_iff :
    declarationValue.Takes value text rest ↔
      value = text ∧ text ≠ [] ∧ (∃ segments, Segmented segments text rest) ∧ EndsValue rest := by
  rw [declarationValue, takes_nonempty, takes_text]
  constructor
  · rintro ⟨⟨rfl, values, takes⟩, filled⟩
    obtain ⟨⟨segments, segmented, -⟩, ends⟩ := takes_segments_iff.mp takes
    exact ⟨rfl, filled, ⟨segments, segmented⟩, ends⟩
  · rintro ⟨rfl, filled, ⟨segments, segmented⟩, ends⟩
    exact ⟨⟨rfl, _, takes_segments_iff.mpr ⟨⟨segments, segmented, rfl⟩, ends⟩⟩, filled⟩

theorem read_declarationValue_eq_none_iff : declarationValue.read input = none ↔ EndsValue input :=
  (read_pieces_eq_none_iff progresses_segment).trans read_segment_eq_none_iff

theorem takes_optional_declarationValue_iff {found : Option (List Char)} :
    (optional declarationValue).Takes found text rest ↔
      found = (if text = [] then none else some text) ∧
        (∃ segments, Segmented segments text rest) ∧ EndsValue rest := by
  refine takes_optional_of_iff (fun _ _ _ => takes_declarationValue_iff) fun rest => ?_
  rw [read_declarationValue_eq_none_iff]
  exact (and_iff_right ⟨[], .nil⟩).symm

/-- A brace or a semicolon in a value is in a string or in a group. -/
theorem Segmented.notMem_bare {segments : List Segment} (segmented : Segmented segments text rest) :
    ∀ segment ∈ segments, segment.kind = .bare → '}' ∉ segment.text ∧ ';' ∉ segment.text := by
  induction segmented with
  | nil => exact List.forall_mem_nil _
  | cons first others inductionHypothesis =>
    refine List.forall_mem_cons.mpr ⟨?_, inductionHypothesis⟩
    rintro rfl
    cases first with
    | bare brace semicolon =>
      exact ⟨fun member => brace (List.mem_singleton.mp member).symm,
        fun member => semicolon (List.mem_singleton.mp member).symm⟩

/-- There is a value ahead unless it would end at once. It is made of segments and goes to the first
brace or semicolon outside strings and groups, and it is the same in front of every beginning of the
rest, the whole rest among them. -/
theorem declarationValue_delimits (input : List Char) :
    (declarationValue.read input = none ↔ EndsValue input) ∧
      (¬ EndsValue input → ∃ segments text rest, input = text ++ rest ∧ EndsValue rest ∧
        Segmented segments text rest ∧
        (∀ segment ∈ segments, segment.kind = .bare →
          '}' ∉ segment.text ∧ ';' ∉ segment.text) ∧
        ∀ kept, kept <+: rest → declarationValue.read (text ++ kept) = some ⟨text, text, kept⟩) := by
  refine ⟨read_declarationValue_eq_none_iff, fun goesOn => ?_⟩
  cases present : declarationValue.read input with
  | none => exact absurd (read_declarationValue_eq_none_iff.mp present) goesOn
  | some found =>
    have takes := takes_of_read present
    have parts := declarationValue.taken_append_rest present
    obtain ⟨same, -, ⟨segments, segmented⟩, ends⟩ := takes_declarationValue_iff.mp takes
    rw [same] at takes
    exact ⟨segments, found.taken, found.rest, parts.symm, ends, segmented, segmented.notMem_bare,
      fun kept less => steady_declarationValue less takes⟩

end CssSyntax
