/-
This file says where the name of a custom media query ends.

A name has no blanks, but a query may begin without one, so the keyword, blanks, a name, a query and
a semicolon can often be found in a text in several ways. Of these the one with the longest name is
read. All of them have the same blanks, since a name begins with a hyphen, and the name decides
about the rest, since a query goes to the first semicolon. So they differ in their names alone, and
no two have names of the same length.
-/

import CssSyntax.Proofs.Cuts

namespace CssSyntax

open Grammar Pattern

/-- A way to take apart a text that begins with a custom media query. -/
structure CustomMediaParts where
  gap : List Char
  name : List Char
  query : List Char
  rest : List Char
  deriving DecidableEq

namespace CustomMediaParts

/-- The text of the at-rule. -/
def text (parts : CustomMediaParts) : List Char :=
  AtKeyword.customMedia.written ++ parts.gap ++ parts.name ++ parts.query ++ [';']

/-- What is found where the text is read in this way. -/
def found (parts : CustomMediaParts) : Match Leaf :=
  ⟨.customMedia (String.ofList parts.name) (trimmed parts.query), parts.text, parts.rest⟩

/-- The input can be read in this way. -/
structure Of (parts : CustomMediaParts) (input : List Char) : Prop where
  whole : input = parts.text ++ parts.rest
  gap_ne_nil : parts.gap ≠ []
  blank : AllBlank parts.gap
  dashes : ['-', '-'] <+: parts.name
  long : 3 ≤ parts.name.length
  unbroken : ∀ character ∈ parts.name, isBlank character = false
  query_ne_nil : parts.query ≠ []
  braceless : '{' ∉ parts.query
  unended : ';' ∉ parts.query

variable {parts other : CustomMediaParts} {input : List Char}

/-- The text behind the keyword and the blanks. -/
def behindGap (parts : CustomMediaParts) : List Char :=
  parts.name ++ (parts.query ++ ';' :: parts.rest)

/-! ### What all ways to read a text have in common -/

theorem Of.eq_append (of : parts.Of input) :
    input = AtKeyword.customMedia.written ++ (parts.gap ++ parts.behindGap) := by
  rw [of.whole, text, behindGap]
  simp only [List.append_assoc, List.cons_append, List.nil_append]

theorem Of.stopsAt_behindGap (of : parts.Of input) : StopsAt isBlank parts.behindGap := by
  obtain ⟨more, dashes⟩ := of.dashes
  rw [behindGap, ← dashes]
  exact (by decide : isBlank '-' = false)

/-- The blanks go to where the name begins, which is the same place for all names. -/
theorem Of.same_gap (of : parts.Of input) (others : other.Of input) :
    other.gap = parts.gap ∧ other.behindGap = parts.behindGap := by
  have ahead : other.gap ++ other.behindGap = parts.gap ++ parts.behindGap :=
    List.append_cancel_left (others.eq_append.symm.trans of.eq_append)
  exact gap_unique others.blank of.blank others.stopsAt_behindGap of.stopsAt_behindGap ahead

/-- A query goes to the first semicolon. -/
theorem Of.same_query (of : parts.Of input) (others : other.Of input)
    (ahead : other.query ++ ';' :: other.rest = parts.query ++ ';' :: parts.rest) :
    other.query = parts.query ∧ other.rest = parts.rest := by
  have cut : cut? [';'] (parts.query ++ ';' :: parts.rest) = some (parts.query, parts.rest) :=
    cut?_eq_some_iff.mpr ⟨by simp, firstCut_singleton_iff.mpr of.unended⟩
  have otherCut : cut? [';'] (other.query ++ ';' :: other.rest) = some (other.query, other.rest) :=
    cut?_eq_some_iff.mpr ⟨by simp, firstCut_singleton_iff.mpr others.unended⟩
  rw [ahead, cut, Option.some.injEq, Prod.mk.injEq] at otherCut
  exact ⟨otherCut.1.symm, otherCut.2.symm⟩

/-- The length of the name decides about everything. -/
theorem Of.eq_of_length (of : parts.Of input) (others : other.Of input)
    (same : other.name.length = parts.name.length) : other = parts := by
  obtain ⟨gap, behind⟩ := of.same_gap others
  obtain ⟨name, ahead⟩ := List.append_inj behind same
  obtain ⟨query, rest⟩ := of.same_query others ahead
  cases parts
  cases other
  rw [mk.injEq]
  exact ⟨gap, name, query, rest⟩

/-! ### The lengths that a name may have -/

theorem Of.takes_query (of : parts.Of input) :
    customQuery.Takes parts.query (parts.query ++ [';']) parts.rest :=
  takes_customQuery.mpr ⟨rfl, of.query_ne_nil, of.braceless, of.unended⟩

theorem Of.nameLength (of : parts.Of input) : NameLength parts.behindGap parts.name.length := by
  refine nameLength_append.mpr ⟨of.dashes, of.long, of.unbroken, ?_⟩
  have queried := read_ne_none_of_takes of.takes_query
  rwa [List.append_assoc] at queried

/-- The text can be read with a name of each of these lengths. -/
theorem Of.exists_of_nameLength {length : Nat} (of : parts.Of input)
    (fits : NameLength parts.behindGap length) :
    ∃ other : CustomMediaParts, other.Of input ∧ other.name.length = length := by
  have short : length ≤ parts.behindGap.length :=
    Nat.le_trans fits.2.1 (List.takeWhile_prefix _).length_le
  have split := List.take_append_drop length parts.behindGap
  have same : (parts.behindGap.take length).length = length := List.length_take_of_le short
  -- the name is any beginning of this length, and the query is what is read behind it
  generalize parts.behindGap.take length = name at split same
  generalize parts.behindGap.drop length = ahead at split
  rw [← split, ← same, nameLength_append] at fits
  obtain ⟨dashes, long, unbroken, queried⟩ := fits
  obtain ⟨found, present⟩ := Option.ne_none_iff_exists'.mp queried
  have whole := customQuery.taken_append_rest present
  obtain ⟨taken, filled, braceless, unended⟩ := takes_customQuery.mp (takes_of_read present)
  refine ⟨⟨parts.gap, name, found.value, found.rest⟩,
    ⟨?_, of.gap_ne_nil, of.blank, dashes, long, unbroken, filled, braceless, unended⟩, same⟩
  rw [of.eq_append, ← split, ← whole, taken, text]
  simp only [List.append_assoc]

/-- The name that is measured is longer than all others. -/
theorem Of.measured_iff (of : parts.Of input) :
    customNameLength? parts.behindGap = some parts.name.length ↔
      ∀ other : CustomMediaParts, other.Of input → other ≠ parts →
        other.name.length < parts.name.length := by
  rw [customNameLength?_eq_some_iff]
  constructor
  · rintro ⟨-, greatest⟩ other others differ
    have fits := others.nameLength
    rw [(of.same_gap others).2] at fits
    refine Nat.lt_of_le_of_ne (greatest _ fits) fun same => differ ?_
    exact of.eq_of_length others same
  · refine fun longest => ⟨of.nameLength, fun length fits => ?_⟩
    obtain ⟨other, others, rfl⟩ := of.exists_of_nameLength fits
    by_cases same : other = parts
    · subst same
      exact Nat.le_refl _
    · exact Nat.le_of_lt (longest other others same)

/-- Where the text can be read at all, there is a longest name. -/
theorem Of.exists_measured (of : parts.Of input) :
    ∃ longest : CustomMediaParts, longest.Of input ∧
      customNameLength? longest.behindGap = some longest.name.length := by
  cases measured : customNameLength? parts.behindGap with
  | none => exact absurd of.nameLength (customNameLength?_eq_none_iff.mp measured _)
  | some length =>
    have fits := (customNameLength?_eq_some_iff.mp measured).1
    obtain ⟨longest, others, rfl⟩ := of.exists_of_nameLength fits
    refine ⟨longest, others, ?_⟩
    rw [(of.same_gap others).2, measured]

/-! ### What is read -/

theorem Of.read_eq (of : parts.Of input)
    (measured : customNameLength? parts.behindGap = some parts.name.length) :
    customMedia.read input = some parts.found := by
  have takes : customMedia.Takes (.customMedia (String.ofList parts.name) (trimmed parts.query))
      (AtKeyword.customMedia.written ++ (parts.gap ++ (parts.name ++ (parts.query ++ [';']))))
      parts.rest := by
    refine takes_exactly_bind.mpr ⟨_, rfl, takes_run1_bind.mpr ?_⟩
    refine ⟨parts.gap, _, rfl, of.gap_ne_nil, of.blank, ?_, takes_bind.mpr ?_⟩
    · simpa [behindGap] using of.stopsAt_behindGap
    · refine ⟨parts.name, parts.name, _, rfl, takes_sized.mpr ⟨rfl, ?_⟩, takes_bind.mpr ?_⟩
      · simpa [behindGap] using measured
      · exact ⟨_, _, [], (List.append_nil _).symm, of.takes_query, takes_pure.mpr ⟨rfl, rfl⟩⟩
  unfold Takes at takes
  rw [of.whole, found, text]
  simpa using takes

theorem exists_of_takes {leaf : Leaf} {taken rest : List Char}
    (takes : customMedia.Takes leaf taken rest) :
    ∃ parts : CustomMediaParts, parts.Of (taken ++ rest) ∧
      customNameLength? parts.behindGap = some parts.name.length ∧
      (⟨leaf, taken, rest⟩ : Match Leaf) = parts.found := by
  obtain ⟨latter, rfl, later⟩ := takes_exactly_bind.mp takes
  obtain ⟨gap, tail, rfl, present, blank, -, named⟩ := takes_run1_bind.mp later
  obtain ⟨name, former, others, rfl, sizedTakes, queried⟩ := takes_bind.mp named
  obtain ⟨query, last, ending, rfl, queryTakes, finished⟩ := takes_bind.mp queried
  obtain ⟨rfl, rfl⟩ := takes_pure.mp finished
  obtain ⟨rfl, measured⟩ := takes_sized.mp sizedTakes
  obtain ⟨rfl, filled, braceless, unended⟩ := takes_customQuery.mp queryTakes
  obtain ⟨dashes, long, unbroken⟩ := name_of_customNameLength? measured
  have whole : ('@' :: AtKeyword.customMedia.text.toList) ++
      (gap ++ (name ++ (query ++ [';'] ++ []))) = text ⟨gap, name, query, rest⟩ := by
    simp [text, AtKeyword.written]
  refine ⟨⟨gap, name, query, rest⟩, ⟨?_, present, blank, dashes, long, unbroken, filled,
    braceless, unended⟩, ?_, ?_⟩
  · rw [whole]
  · simpa [behindGap] using measured
  · rw [whole, found]

theorem read_eq_some_iff {found : Match Leaf} :
    customMedia.read input = some found ↔ ∃ parts : CustomMediaParts, parts.Of input ∧
      customNameLength? parts.behindGap = some parts.name.length ∧ found = parts.found := by
  constructor
  · intro present
    have parts := exists_of_takes (takes_of_read present)
    rwa [customMedia.taken_append_rest present] at parts
  · rintro ⟨parts, of, measured, rfl⟩
    exact of.read_eq measured

end CustomMediaParts

open CustomMediaParts in
/-- A custom media query is read wherever the text can be taken apart into the keyword, blanks, a
name, a query, a semicolon and a rest. Of all ways to do that the one with the longest name is
taken, and there is one such way only. The query is found trimmed, and the taken text has it as it
stands. -/
theorem customMedia_reads_longest_name (input : List Char) :
    (customMedia.read input = none ↔ ∀ parts : CustomMediaParts, ¬ parts.Of input) ∧
    ∀ found, customMedia.read input = some found ↔ ∃ parts : CustomMediaParts, parts.Of input ∧
      (∀ other : CustomMediaParts, other.Of input → other ≠ parts →
        other.name.length < parts.name.length) ∧ found = parts.found := by
  refine ⟨⟨?_, ?_⟩, fun found => ?_⟩
  · intro absent parts of
    obtain ⟨longest, others, measured⟩ := of.exists_measured
    rw [others.read_eq measured] at absent
    cases absent
  · intro never
    cases present : customMedia.read input with
    | none => rfl
    | some found =>
      obtain ⟨parts, of, -⟩ := read_eq_some_iff.mp present
      exact absurd of (never parts)
  · rw [read_eq_some_iff]
    refine exists_congr fun parts => and_congr_right fun of => ?_
    rw [of.measured_iff]

example : (customMedia.read "@custom-media --a(b);".toList).map Match.value =
    some (.customMedia "--a(b" ")") := by cbv

end CssSyntax
