/-
This file puts blanks around a stylesheet.

Blanks in front move the whole parse: they are passed over before the first node, and from there on
the two parses are one and the same, in other places. The first line of the text continues the last
line of the blanks, so its columns move, and all later lines move down.

Blanks behind do nothing at all to a strict parse that ends well. Its derivation holds in front of
them, the grammar finds the trees of that derivation, and there is no other derivation that they
could have.
-/

import CssSyntax.Proofs.Changes
import CssSyntax.Proofs.Extensions
import CssSyntax.Proofs.Progress

namespace CssSyntax

open Grammar

/-! ### Blanks in front -/

namespace Location

theorem ofPrefix_pos (text : List Char) : 0 < (ofPrefix text).line ∧ 0 < (ofPrefix text).column :=
  ⟨Nat.lt_add_right _ Nat.zero_lt_one, Nat.lt_add_right _ Nat.zero_lt_one⟩

/-- Where a place of a text is when more text stands in front. -/
def behind (location : Location) (before : List Char) : Location :=
  if location.line = 1 then
    ⟨(ofPrefix before).line, location.column + (ofPrefix before).column - 1⟩
  else ⟨location.line + (ofPrefix before).line - 1, location.column⟩

variable {before : List Char} {location : Location}

theorem behind_of_first (first : location.line = 1) : location.behind before =
    ⟨(ofPrefix before).line, location.column + (ofPrefix before).column - 1⟩ := if_pos first

theorem behind_of_later (later : location.line ≠ 1) : location.behind before =
    ⟨location.line + (ofPrefix before).line - 1, location.column⟩ := if_neg later

/-- Reading on from the first line is reading on from the last line of the text in front. -/
theorem behind_step (character : Char) (counted : 0 < location.line) :
    (location.step character).behind before = (location.behind before).step character := by
  obtain ⟨lines, columns⟩ := ofPrefix_pos before
  by_cases feed : character = '\n'
  · have later : location.line + 1 ≠ 1 := by omega
    rw [step, if_pos feed, step, if_pos feed, behind_of_later later, Location.mk.injEq]
    refine ⟨?_, rfl⟩
    by_cases first : location.line = 1
    · rw [behind_of_first first]
      show location.line + 1 + (ofPrefix before).line - 1 = (ofPrefix before).line + 1
      omega
    · rw [behind_of_later first]
      show location.line + 1 + (ofPrefix before).line - 1 =
        location.line + (ofPrefix before).line - 1 + 1
      omega
  · rw [step, if_neg feed, step, if_neg feed]
    by_cases first : location.line = 1
    · have start : (⟨location.line, location.column + 1⟩ : Location).line = 1 := first
      rw [behind_of_first first, behind_of_first start, Location.mk.injEq]
      refine ⟨rfl, ?_⟩
      show location.column + 1 + (ofPrefix before).column - 1 =
        location.column + (ofPrefix before).column - 1 + 1
      omega
    · have later : (⟨location.line, location.column + 1⟩ : Location).line ≠ 1 := first
      rw [behind_of_later first, behind_of_later later]

theorem behind_inj {first second : Location} (same : first.behind before = second.behind before) :
    first = second := by
  obtain ⟨line, column⟩ := first
  obtain ⟨line', column'⟩ := second
  obtain ⟨lines, columns⟩ := ofPrefix_pos before
  simp only [behind] at same
  split at same <;> split at same <;> simp only [Location.mk.injEq] at same ⊢ <;> omega

theorem behind_start (before : List Char) : start.behind before = ofPrefix before := by
  rw [behind_of_first rfl]
  show (⟨_, 1 + (ofPrefix before).column - 1⟩ : Location) = _
  rw [Nat.add_sub_cancel_left]

end Location

/-- Text in front moves a text and leaves the name of its source alone. -/
def Change.behind (before : List Char) : Change where
  place location := location.behind before
  name := id
  step _ character counted := Location.behind_step character counted
  apart _ _ same := Location.behind_inj same

variable {css blank : String} {options : Options}

/-- Behind all blanks, the two parses are in the same state, in other places. -/
theorem past_behind (allBlank : AllBlank blank.toList) {gap : Match (List Char)}
    (skipped : Pattern.blanks.read (begun css options).cursor.rest = some gap) :
    ∃ longer, Pattern.blanks.read (begun (blank ++ css) options).cursor.rest = some longer ∧
      (begun (blank ++ css) options).past longer =
        (Change.behind blank.toList).state ((begun css options).past gap) := by
  obtain ⟨-, good, stops⟩ := Pattern.takes_run.mp (Pattern.takes_of_read skipped)
  have parts : gap.taken ++ gap.rest = css.toList := Pattern.blanks.taken_append_rest skipped
  have whole : (begun (blank ++ css) options).cursor.rest =
      blank.toList ++ gap.taken ++ gap.rest := by
    rw [List.append_assoc, parts]
    exact String.toList_append
  have longer : Pattern.blanks.Takes (blank.toList ++ gap.taken) (blank.toList ++ gap.taken)
      gap.rest :=
    Pattern.takes_run.mpr ⟨rfl, List.forall_mem_append.mpr ⟨allBlank, good⟩, stops⟩
  refine ⟨⟨blank.toList ++ gap.taken, blank.toList ++ gap.taken, gap.rest⟩, ?_, ?_⟩
  · rw [whole]
    exact longer
  · have counted : 0 < Location.start.line := Nat.succ_pos 0
    have place : Location.start.after (blank.toList ++ gap.taken) =
        (Location.start.after gap.taken).behind blank.toList := by
      refine Eq.trans ?_ ((Change.behind blank.toList).after counted gap.taken).symm
      rw [Location.after_append]
      refine congrArg (Location.after · gap.taken) ?_
      exact (Location.after_ofPrefix [] blank.toList).trans (Location.behind_start _).symm
    exact congrArg (fun location => ({
      cursor := ⟨gap.rest, location⟩
      events := [.started options.source options.mode] } : State)) place

/-- Blanks in front move the whole result. -/
theorem parseWith_behind (allBlank : AllBlank blank.toList) (options : Options) :
    parseWith (blank ++ css) options =
      (Change.behind blank.toList).result (parseWith css options) := by
  have carries : Carries (.behind blank.toList) (List.map (Change.behind blank.toList).node)
      (collect (item rules)) (collect (item rules)) := carries_collect (carries_item carries_rules)
  have runs (text : String) {gap : Match (List Char)}
      (skipped : Pattern.blanks.read (begun text options).cursor.rest = some gap) :
      rules options (begun text options) =
        collect (item rules) options ((begun text options).past gap) :=
    (congrFun (congrFun rules_unguarded options) _).trans (accept_bind_some skipped)
  obtain ⟨gap, skipped⟩ : ∃ gap, Pattern.blanks.read (begun css options).cursor.rest = some gap :=
    ⟨_, rfl⟩
  obtain ⟨longer, skippedToo, same⟩ := past_behind allBlank skipped
  have counted := (precedes_past skipped).line_pos (Nat.succ_pos 0)
  have moved := carries.same options ((begun css options).past gap) counted
  rw [← same] at moved
  rw [parseWith_eq, parseWith_eq, runs _ skipped, runs _ skippedToo]
  exact (congrArg (sheetOf options.source) moved).trans (sheetOf_outcome _ options.source _)

/-! ### Blanks behind -/

/-- A strict parse has no faults to keep where the grammar finds what was derived. -/
theorem strict_of_derives {text rest : List Char} {nodes : List Node} {source : Option String}
    (parts : css.toList = text ++ rest)
    (derives : DerivesAll source .rules isBlank (.ofPrefix []) text rest nodes) :
    parseWith css ⟨source, .strict⟩ = .ok (.ofRules source nodes []) := by
  obtain ⟨found, last, run, same, finished, clean⟩ :=
    gives_rules_before (derives.findsTrees (by decide)) ⟨source, .strict⟩
      (begun css ⟨source, .strict⟩) parts
  obtain ⟨inner, took, -, derived⟩ := chosen_rules rfl run
  have whole : inner ++ last.cursor.rest = text ++ rest := took.rest.symm.trans parts
  obtain ⟨-, rfl⟩ := derived.unique derives (by decide) whole same
  rw [parseWith_eq, run]
  show Except.ok (Stylesheet.ofRules source found last.faults) = _
  rw [clean]
  rfl

/-- Blanks behind leave the result of a strict parse as it is. -/
theorem parseWith_before {source : Option String} {sheet : Stylesheet}
    (allBlank : AllBlank blank.toList) (read : parseWith css ⟨source, .strict⟩ = .ok sheet) :
    parseWith (css ++ blank) ⟨source, .strict⟩ = .ok sheet := by
  obtain ⟨text, rest, parts, -, derives⟩ := derivesAll_of_parse read
  rw [strict_of_derives parts derives] at read
  rw [← Except.ok.inj read]
  by_cases ended : rest = []
  · subst ended
    -- the text was read to its end, so the blanks join what is passed over there
    refine strict_of_derives ?_ (derives.extend_end allBlank)
    rw [String.toList_append, parts, List.append_nil, List.append_nil]
  · refine strict_of_derives ?_ (derives.extend allBlank ended)
    rw [String.toList_append, parts, List.append_assoc]

/-! ### Stylesheets -/

/-- Blanks in front of a text move the result of every parse, with its places and nothing else.
Blanks behind it change nothing in the stylesheet of a strict parse. -/
theorem parse_of_margins (blank css : String) (allBlank : AllBlank blank.toList) :
    (∀ options, parseWith (blank ++ css) options =
      (Change.behind blank.toList).result (parseWith css options)) ∧
    ∀ source sheet, parseWith css ⟨source, .strict⟩ = .ok sheet →
      parseWith (css ++ blank) ⟨source, .strict⟩ = .ok sheet :=
  ⟨fun options => parseWith_behind allBlank options,
    fun _ _ read => parseWith_before allBlank read⟩

/-- A rule on two lines, the first of which begins at the place. -/
def marginSheet (place : Location) : Stylesheet :=
  .ofRules none
    [.block (.rule ["a"]) ⟨place, ⟨place.line + 1, 2⟩, none⟩
      [.leaf (.declaration "b" "c")
        ⟨⟨place.line, place.column + 2⟩, ⟨place.line + 1, 1⟩, none⟩]] []

theorem parse_of_margins_marginSheet :
    AllBlank "\n ".toList ∧ parse "a\x7bb:c\n\x7d" = .ok (marginSheet ⟨1, 1⟩) ∧
      parse ("\n " ++ "a\x7bb:c\n\x7d") = .ok (marginSheet ⟨2, 2⟩) ∧
      parse ("a\x7bb:c\n\x7d" ++ "\n ") = .ok (marginSheet ⟨1, 1⟩) := by
  have blank : AllBlank "\n ".toList :=
    List.forall_mem_cons.mpr ⟨by decide, List.forall_mem_singleton.mpr (by decide)⟩
  have read : parse "a\x7bb:c\n\x7d" = .ok (marginSheet ⟨1, 1⟩) := by cbv
  obtain ⟨front, behind⟩ := parse_of_margins "\n " "a\x7bb:c\n\x7d" blank
  refine ⟨blank, read, (front _).trans ?_, behind _ _ read⟩
  rw [parse] at read
  rw [read]
  rfl

end CssSyntax
