/-
This file says which comments are removed from a text.

The first complete comment begins at the first opener and goes to the first closer behind that. What
follows it, less the slashes that go with it, is looked at afresh. So a text falls into comments and
the texts between them in one way only, and these texts are what is left of it. An opener that comes
into being where two of them meet is no opener of the text and removes nothing.
-/

import CssSyntax.Proofs.Matching
import CssSyntax.Text.Comment

namespace CssSyntax

variable {withSlashes : Bool} {text : List Char}

/-! ### The first complete comment -/

/-- If there is an opener in the text, there is no closer behind the first one. -/
def OpenEnded (text : List Char) : Prop :=
  ∀ before after, text = before ++ commentOpener ++ after → FirstCut commentOpener before after →
    ¬ commentCloser <:+: after

theorem firstComment?_eq_some_iff {before body after : List Char} :
    firstComment? text = some (before, body, after) ↔
      text = before ++ commentOpener ++ (body ++ commentCloser ++ after) ∧
        FirstCut commentOpener before (body ++ commentCloser ++ after) ∧
        ¬ commentCloser <:+: body := by
  simp only [firstComment?, Option.bind_eq_bind, Option.bind_eq_some_iff, Option.pure_def,
    Option.some.injEq, Prod.mk.injEq, Prod.exists, cut?_eq_some_iff]
  constructor
  · rintro ⟨before, opened, ⟨rfl, first⟩, body, after, ⟨rfl, closed⟩, rfl, rfl, rfl⟩
    exact ⟨rfl, first, (firstCut_pair_iff (by decide)).mp closed⟩
  · rintro ⟨rfl, first, closed⟩
    exact ⟨before, _, ⟨rfl, first⟩, body, after,
      ⟨rfl, (firstCut_pair_iff (by decide)).mpr closed⟩, rfl, rfl, rfl⟩

theorem firstComment?_eq_none_iff : firstComment? text = none ↔ OpenEnded text := by
  cases opens : cut? commentOpener text with
  | none =>
    refine iff_of_true (by simp only [firstComment?, opens, Option.bind_eq_bind, Option.bind_none])
      fun before after parts first => ?_
    cases opens.symm.trans (cut?_eq_some_iff.mpr ⟨parts, first⟩)
  | some sides =>
    obtain ⟨before, opened⟩ := sides
    have closes : firstComment? text = none ↔ ¬ commentCloser <:+: opened := by
      rw [← cut?_eq_none_iff]
      cases closed : cut? commentCloser opened <;> simp [firstComment?, opens, closed]
    rw [closes]
    constructor
    · intro unclosed before' after parts first
      cases opens.symm.trans (cut?_eq_some_iff.mpr ⟨parts, first⟩)
      exact unclosed
    · intro openEnded
      obtain ⟨parts, first⟩ := cut?_eq_some_iff.mp opens
      exact openEnded before opened parts first

/-! ### Removal, one comment after another -/

theorem removeComments_of_none (nothing : firstComment? text = none) :
    removeComments withSlashes text = text := by
  rw [removeComments]
  split
  · rfl
  · rename_i found
    rw [nothing] at found
    cases found

theorem removeComments_of_some {before body after : List Char}
    (found : firstComment? text = some (before, body, after)) :
    removeComments withSlashes text =
      before ++ removeComments withSlashes (afterComment withSlashes after) := by
  rw [removeComments]
  split
  · rename_i nothing
    rw [found] at nothing
    cases nothing
  · rename_i present
    cases found.symm.trans present
    rfl

theorem afterComment_suffix (withSlashes : Bool) (after : List Char) :
    afterComment withSlashes after <:+ after := by
  unfold afterComment
  split
  · exact List.dropWhile_suffix _
  · exact List.suffix_rfl

/-! ### A text and its comments -/

/-- A comment, the text between it and the comment in front of it, and the slashes that go with
it. -/
structure CommentPart where
  before : List Char
  body : List Char
  slashes : List Char
  deriving DecidableEq

/-- The text of the comment and of its slashes. -/
def CommentPart.comment (part : CommentPart) : List Char :=
  commentOpener ++ part.body ++ commentCloser ++ part.slashes

theorem CommentPart.append_comment (part : CommentPart) (rest : List Char) :
    part.before ++ part.comment ++ rest =
      part.before ++ commentOpener ++ (part.body ++ commentCloser ++ (part.slashes ++ rest)) := by
  simp only [comment, List.append_assoc]

/-- In front of the rest, these are the slashes that go with a comment: all slashes there or none at
all. -/
def TakesSlashes (withSlashes : Bool) (slashes rest : List Char) : Prop :=
  if withSlashes then (∀ character ∈ slashes, character = '/') ∧ StopsAt (· == '/') rest
  else slashes = []

/-- The text is the comments with the texts before them and then the tail. Each comment begins at
the first opener behind the one before it and ends at its first closer. -/
inductive Decomposes (withSlashes : Bool) :
    List CommentPart → List Char → List Char → Prop where
  | tail {tail : List Char} (openEnded : OpenEnded tail) : Decomposes withSlashes [] tail tail
  | comment {part : CommentPart} {parts : List CommentPart} {tail rest : List Char}
      (first : FirstCut commentOpener part.before
        (part.body ++ commentCloser ++ (part.slashes ++ rest)))
      (closed : ¬ commentCloser <:+: part.body)
      (slashes : TakesSlashes withSlashes part.slashes rest)
      (others : Decomposes withSlashes parts tail rest) :
      Decomposes withSlashes (part :: parts) tail (part.before ++ part.comment ++ rest)

/-- The texts between the comments, and the tail. -/
def betweenComments (parts : List CommentPart) (tail : List Char) : List Char :=
  parts.flatMap CommentPart.before ++ tail

theorem takesSlashes_iff {slashes rest : List Char} :
    TakesSlashes withSlashes slashes rest ↔ afterComment withSlashes (slashes ++ rest) = rest := by
  cases withSlashes with
  | false =>
    show slashes = [] ↔ slashes ++ rest = rest
    exact List.append_left_eq_self.symm
  | true =>
    show (∀ character ∈ slashes, character = '/') ∧ StopsAt (· == '/') rest ↔
      (slashes ++ rest).dropWhile (· == '/') = rest
    constructor
    · rintro ⟨good, stops⟩
      refine dropWhile_append_of_stopsAt (fun character member => ?_) stops
      exact beq_iff_eq.mpr (good character member)
    · intro dropped
      have stops := stopsAt_dropWhile (· == '/') (slashes ++ rest)
      rw [dropped] at stops
      have taken := List.takeWhile_append_dropWhile (p := (· == '/')) (l := slashes ++ rest)
      rw [dropped, List.append_cancel_right_eq] at taken
      refine ⟨fun character member => ?_, stops⟩
      rw [← taken] at member
      have good := accepted_of_mem_takeWhile member
      exact beq_iff_eq.mp good

variable {parts : List CommentPart} {tail before body after : List Char}

/-! ### The first comment decides -/

theorem decomposes_of_none (nothing : firstComment? text = none) :
    Decomposes withSlashes parts tail text ↔ parts = [] ∧ tail = text := by
  constructor
  · intro decomposes
    cases decomposes with
    | tail openEnded => exact ⟨rfl, rfl⟩
    | comment first closed slashes others =>
      rw [firstComment?_eq_some_iff.mpr ⟨CommentPart.append_comment _ _, first, closed⟩] at nothing
      cases nothing
  · rintro ⟨rfl, rfl⟩
    exact .tail (firstComment?_eq_none_iff.mp nothing)

theorem decomposes_of_some (found : firstComment? text = some (before, body, after)) :
    Decomposes withSlashes parts tail text ↔ ∃ slashes others,
      parts = ⟨before, body, slashes⟩ :: others ∧
        after = slashes ++ afterComment withSlashes after ∧
        Decomposes withSlashes others tail (afterComment withSlashes after) := by
  constructor
  · intro decomposes
    cases decomposes with
    | tail openEnded =>
      rw [firstComment?_eq_none_iff.mpr openEnded] at found
      cases found
    | @comment part others _ rest first closed slashes later =>
      have present := firstComment?_eq_some_iff.mpr ⟨part.append_comment rest, first, closed⟩
      cases found.symm.trans present
      have left := takesSlashes_iff.mp slashes
      rw [left]
      exact ⟨part.slashes, others, rfl, rfl, later⟩
  · rintro ⟨slashes, others, rfl, taken, later⟩
    obtain ⟨parts, first, closed⟩ := firstComment?_eq_some_iff.mp found
    have left : TakesSlashes withSlashes slashes (afterComment withSlashes after) := by
      rw [takesSlashes_iff, ← taken]
    rw [taken] at parts first
    rw [parts, ← CommentPart.append_comment ⟨before, body, slashes⟩]
    exact .comment first closed left later

/-- There is one way to take a text apart into comments and the texts between them, and these texts
are what is left when the comments are removed. -/
theorem removeComments_eq_betweenComments (withSlashes : Bool) (text : List Char) :
    ∃ parts tail, Decomposes withSlashes parts tail text ∧
      removeComments withSlashes text = betweenComments parts tail ∧
      ∀ others last, Decomposes withSlashes others last text → others = parts ∧ last = tail := by
  fun_induction removeComments withSlashes text with
  | case1 text nothing =>
    refine ⟨[], text, (decomposes_of_none nothing).mpr ⟨rfl, rfl⟩, rfl, fun others last => ?_⟩
    exact (decomposes_of_none nothing).mp
  | case2 text before body after found inductionHypothesis =>
    obtain ⟨parts, tail, decomposes, kept, unique⟩ := inductionHypothesis
    obtain ⟨slashes, split⟩ := afterComment_suffix withSlashes after
    refine ⟨⟨before, body, slashes⟩ :: parts, tail, ?_, ?_, fun others last decomposition => ?_⟩
    · exact (decomposes_of_some found).mpr ⟨slashes, parts, rfl, split.symm, decomposes⟩
    · rw [kept, betweenComments, betweenComments, List.flatMap_cons, List.append_assoc]
    · obtain ⟨others, later, rfl, taken, rest⟩ := (decomposes_of_some found).mp decomposition
      obtain ⟨rfl, rfl⟩ := unique _ _ rest
      obtain rfl := List.append_cancel_right (split.trans taken)
      exact ⟨rfl, rfl⟩

example : removeComments false "//**/*b*/".toList = "/*b*/".toList := by cbv

end CssSyntax
