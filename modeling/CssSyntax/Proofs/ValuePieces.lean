/-
This file says what becomes of the strings and the comments that a value was put together from.

Two functions look at a value, and neither sees it as its author does. The one that delimits it
knows strings and groups but no comments, so a quote, a parenthesis, a brace or a semicolon in a
comment counts like any other. The one that removes comments knows no strings, so it removes what
looks like a comment in a string. The author is understood where neither gets in the way of the
other, and there is an example for each way in which they do.
-/

import CssSyntax.Proofs.Comments
import CssSyntax.Proofs.Extensions
import CssSyntax.Proofs.ValueSegments

namespace CssSyntax

open Grammar Pattern

/-! ### Pieces -/

/-- What an author puts a value together from. -/
inductive Piece where
  | word (letters : List Char)
  | string (quote : Char) (body : List Char)
  | comment (body : List Char)

namespace Piece

/-- The text of a piece. -/
def text : Piece → List Char
  | .word letters => letters
  | .string quote body => quote :: body ++ [quote]
  | .comment body => commentOpener ++ body ++ commentCloser

/-- What a piece adds to the value. -/
def kept : Piece → List Char
  | .comment _ => []
  | piece => piece.text

/-- The piece is what it was meant for: nothing in a word is special, nothing in a string closes it,
and nothing in a comment closes it. -/
def Proper : Piece → Prop
  | .word letters =>
    letters ≠ [] ∧ ∀ character ∈ letters, isBlank character = false ∧
      character ∉ [';', '{', '}', '(', ')', '"', '\'', '/', '*', '\\']
  | .string quote body =>
    (quote = '"' ∨ quote = '\'') ∧
      ∀ character ∈ body, character ≠ quote ∧ character ≠ '\\' ∧ isLineBreak character = false
  | .comment body => ¬ commentCloser <:+: body

/-- The text of all pieces. -/
def allText (pieces : List Piece) : List Char := pieces.flatMap text

/-- The words and strings among the pieces. -/
def allKept (pieces : List Piece) : List Char := pieces.flatMap kept

/-- In front of a closing brace, the pieces are a whole value: what could end it earlier is in
something that is taken for a string or a group. -/
def Covered (pieces : List Piece) : Prop := ∃ segments, Segmented segments (allText pieces) ['}']

/-- What looks like the opening of a comment in a string is closed nowhere behind it. -/
def Undisturbed : List Piece → Prop
  | [] => True
  | .string quote body :: others =>
    (∀ former latter, body = former ++ commentOpener ++ latter →
      ¬ commentCloser <:+: latter ++ quote :: allText others) ∧ Undisturbed others
  | .word _ :: others | .comment _ :: others => Undisturbed others

end Piece

variable {withSlashes : Bool} {first : Char} {front text : List Char}

/-! ### Comments are removed one after another -/

theorem firstComment?_cons (absent : ¬ commentOpener <+: first :: text) :
    firstComment? (first :: text) =
      (firstComment? text).map fun parts => (first :: parts.1, parts.2) := by
  rw [firstComment?, firstComment?, cut?_cons_of_absent (isPrefixOf?_eq_none_iff.mpr absent)]
  cases cut? commentOpener text with
  | none => rfl
  | some sides =>
    show (cut? commentCloser sides.2).bind _ = Option.map _ ((cut? commentCloser sides.2).bind _)
    cases cut? commentCloser sides.2 <;> rfl

theorem removeComments_cons (absent : ¬ commentOpener <+: first :: text) :
    removeComments withSlashes (first :: text) = first :: removeComments withSlashes text := by
  have whole := firstComment?_cons absent
  cases found : firstComment? text with
  | none =>
    rw [found] at whole
    rw [removeComments_of_none found, removeComments_of_none whole]
  | some parts =>
    obtain ⟨before, body, after⟩ := parts
    rw [found] at whole
    rw [removeComments_of_some found, removeComments_of_some whole]
    rfl

/-- A text without a slash stays in front of what follows it. -/
theorem removeComments_append_of_notMem (absent : '/' ∉ front) :
    removeComments withSlashes (front ++ text) = front ++ removeComments withSlashes text := by
  induction front with
  | nil => rfl
  | cons first front inductionHypothesis =>
    obtain ⟨other, later⟩ := not_or.mp (List.mem_cons.not.mp absent)
    rw [List.cons_append, List.cons_append, removeComments_cons (not_prefix_of_head rfl other),
      inductionHypothesis later]

/-- A text in which no comment opens stays in front of what follows it. -/
theorem removeComments_append_cons {mark : Char} (absent : ¬ commentOpener <:+: front)
    (other : mark ≠ '*') :
    removeComments withSlashes (front ++ mark :: text) =
      front ++ removeComments withSlashes (mark :: text) := by
  induction front with
  | nil => rfl
  | cons first front inductionHypothesis =>
    have unopened : ¬ commentOpener <+: first :: front ++ mark :: text :=
      not_opens_comment (fun start => absent start.isInfix) (List.cons_ne_nil _ _) other
    have later : ¬ commentOpener <:+: front := fun inside => absent (List.infix_cons inside)
    rw [List.cons_append] at unopened ⊢
    rw [removeComments_cons unopened, inductionHypothesis later, List.cons_append]

theorem removeComments_comment {body : List Char} (closed : ¬ commentCloser <:+: body)
    (text : List Char) :
    removeComments false (commentOpener ++ body ++ commentCloser ++ text) =
      removeComments false text := by
  have parts : commentOpener ++ body ++ commentCloser ++ text =
      [] ++ commentOpener ++ (body ++ commentCloser ++ text) := by
    simp only [List.append_assoc, List.nil_append]
  exact removeComments_of_some (firstComment?_eq_some_iff.mpr ⟨parts, firstCut_nil, closed⟩)

/-- The opening of a comment that is not closed is text like any other. -/
theorem removeComments_opener (unclosed : ¬ commentCloser <:+: text) :
    removeComments withSlashes (commentOpener ++ text) = commentOpener ++ text := by
  refine removeComments_of_none (firstComment?_eq_none_iff.mpr fun before after parts first => ?_)
  have ahead : commentOpener <+: before ++ commentOpener ++ after := parts ▸ List.prefix_append _ _
  obtain rfl := eq_nil_of_firstCut first ahead
  rwa [← List.append_cancel_left parts]

theorem uncommented_of_unclosed (unclosed : ¬ commentCloser <:+: text) : Uncommented text := by
  rintro before body after rfl
  exact unclosed ⟨before ++ commentOpener ++ body, after, rfl⟩

/-! ### The ends of a text -/

/-- No accepted character is first or last. -/
def Framed (accepted : Char → Bool) (text : List Char) : Prop :=
  (∀ first ∈ text.head?, accepted first = false) ∧ ∀ last ∈ text.getLast?, accepted last = false

section

variable {accepted : Char → Bool} {front behind : List Char}

theorem framed_of_forall (other : ∀ character ∈ front, accepted character = false) :
    Framed accepted front :=
  ⟨fun first head => other first (List.mem_of_mem_head? head),
    fun last final => other last (List.mem_of_mem_getLast? final)⟩

theorem framed_between {first last : Char} (opening : accepted first = false)
    (closing : accepted last = false) (inner : List Char) :
    Framed accepted (first :: inner ++ [last]) := by
  refine ⟨fun head member => ?_, fun final member => ?_⟩
  · obtain rfl := Option.some.inj member
    exact opening
  · rw [List.getLast?_concat] at member
    obtain rfl := Option.some.inj member
    exact closing

theorem Framed.append (former : Framed accepted front) (latter : Framed accepted behind) :
    Framed accepted (front ++ behind) := by
  refine ⟨fun first member => ?_, fun last member => ?_⟩
  · rw [List.head?_append, Option.mem_def, Option.or_eq_some_iff] at member
    rcases member with head | ⟨-, head⟩
    · exact former.1 first head
    · exact latter.1 first head
  · rw [List.getLast?_append, Option.mem_def, Option.or_eq_some_iff] at member
    rcases member with final | ⟨-, final⟩
    · exact latter.2 last final
    · exact former.2 last final

end

theorem Framed.trimmed {text : List Char} (framed : Framed Room.declarations.skips text) :
    Trimmed text := by
  have unblank {character : Char} (kept : Room.declarations.skips character = false) :
      isBlank character = false := (Bool.or_eq_false_iff.mp kept).2
  exact ⟨fun first head => unblank (framed.1 first head),
    fun last final => unblank (framed.2 last final)⟩

/-! ### Closed values -/

theorem closedValue_append {front behind : List Char}
    (bare : ∀ character ∈ front, character ∉ ['}', ';', '(', '"', '\''])
    (closed : ClosedValue behind) : ClosedValue (front ++ behind) := by
  induction front with
  | nil => exact closed
  | cons first front inductionHypothesis =>
    obtain ⟨plain, later⟩ := List.forall_mem_cons.mp bare
    exact .plain plain (inductionHypothesis later)

theorem quotedBody_of_forall {quote : Char} {body : List Char}
    (good : ∀ character ∈ body, character ≠ quote ∧ character ≠ '\\' ∧
      isLineBreak character = false) : QuotedBody quote body := by
  induction body with
  | nil => exact .nil
  | cons first body inductionHypothesis =>
    obtain ⟨⟨other, unescaped, -⟩, later⟩ := List.forall_mem_cons.mp good
    exact .plain other unescaped (inductionHypothesis later)

theorem segmented_of_closedValue {text : List Char} (closed : ClosedValue text) (rest : List Char) :
    ∃ segments, Segmented segments text rest := by
  induction closed with
  | nil => exact ⟨_, .nil⟩
  | @string quote body later mark line quoted others inductionHypothesis =>
    obtain ⟨segments, segmented⟩ := inductionHypothesis
    have measured : IsSegment .string (quote :: body ++ [quote]) (later ++ rest) := by
      refine .string ?_
      have reached : ∃ tail, Quoting.value.reach (body ++ quote :: (later ++ rest)) =
          body ++ quote :: tail := reach_value mark line
      simpa using lengthAt?_of_quotedBody mark quoted reached
    have whole := Segmented.cons measured segmented
    rw [List.append_assoc] at whole
    exact ⟨_, whole⟩
  | @group inner later closed others inductionHypothesis =>
    obtain ⟨segments, segmented⟩ := inductionHypothesis
    have whole := Segmented.cons (.group closed) segmented
    rw [List.append_assoc] at whole
    exact ⟨_, whole⟩
  | @plain character later bare others inductionHypothesis =>
    obtain ⟨segments, segmented⟩ := inductionHypothesis
    simp only [List.mem_cons, List.not_mem_nil, or_false, not_or] at bare
    obtain ⟨brace, semicolon, parenthesis, double, single⟩ := bare
    have bare : IsSegment .bare [character] (later ++ rest) :=
      .bare brace semicolon (lengthAt?_of_unquoted double single)
        fun opens => absurd opens parenthesis
    exact ⟨_, .cons bare segmented⟩

/-! ### Pieces without their comments -/

namespace Piece

variable {pieces : List Piece}

theorem allText_cons (piece : Piece) (pieces : List Piece) :
    allText (piece :: pieces) = piece.text ++ allText pieces := List.flatMap_cons

theorem allKept_cons (piece : Piece) (pieces : List Piece) :
    allKept (piece :: pieces) = piece.kept ++ allKept pieces := List.flatMap_cons

/-- There is nothing to remove up to the end of a string that no comment seems to open in. -/
theorem removeComments_string {quote : Char} {body : List Char} (mark : quote = '"' ∨ quote = '\'')
    (unopened : ¬ commentOpener <:+: body) (behind : List Char) :
    removeComments false ((string quote body).text ++ behind) =
      (string quote body).text ++ removeComments false behind := by
  obtain ⟨slash, star⟩ : '/' ≠ quote ∧ quote ≠ '*' := by
    rcases mark with rfl | rfl <;> decide
  have closing : removeComments false (body ++ quote :: behind) =
      body ++ removeComments false (quote :: behind) := removeComments_append_cons unopened star
  rw [removeComments_cons (not_prefix_of_head rfl slash)] at closing
  show removeComments false (quote :: (body ++ [quote]) ++ behind) = _
  rw [List.cons_append, removeComments_cons (not_prefix_of_head rfl slash), List.append_assoc,
    List.singleton_append, closing, text, List.append_assoc]
  rfl

/-- Where a string seems to open a comment that is not closed, there is nothing to remove from there
on. -/
theorem removeComments_string_of_unclosed {quote : Char} {former latter behind : List Char}
    (mark : quote = '"' ∨ quote = '\'') (unopened : ¬ commentOpener <:+: former)
    (unclosed : ¬ commentCloser <:+: latter ++ quote :: behind) :
    removeComments false ((string quote (former ++ commentOpener ++ latter)).text ++ behind) =
      (string quote (former ++ commentOpener ++ latter)).text ++ behind := by
  have slash : '/' ≠ quote := by
    rcases mark with rfl | rfl <;> decide
  have parts : (string quote (former ++ commentOpener ++ latter)).text ++ behind =
      quote :: (former ++ (commentOpener ++ (latter ++ quote :: behind))) := by
    simp [text]
  have rest : removeComments false (commentOpener ++ (latter ++ quote :: behind)) =
      commentOpener ++ (latter ++ quote :: behind) := removeComments_opener unclosed
  have opening : removeComments false (former ++ (commentOpener ++ (latter ++ quote :: behind))) =
      former ++ removeComments false (commentOpener ++ (latter ++ quote :: behind)) :=
    removeComments_append_cons unopened (by decide)
  rw [parts, removeComments_cons (not_prefix_of_head rfl slash), opening, rest]

/-- What is left are the words and the strings. -/
theorem removeComments_allText (proper : ∀ piece ∈ pieces, piece.Proper)
    (undisturbed : Undisturbed pieces) :
    removeComments false (allText pieces) = allKept pieces := by
  induction pieces with
  | nil => exact removeComments_of_none rfl
  | cons piece others inductionHypothesis =>
    obtain ⟨first, later⟩ := List.forall_mem_cons.mp proper
    rw [allText_cons, allKept_cons]
    cases piece with
    | word letters =>
      have slash : '/' ∉ letters := fun member => (first.2 '/' member).2 (by decide)
      show removeComments false (letters ++ allText others) = letters ++ allKept others
      rw [removeComments_append_of_notMem slash, inductionHypothesis later undisturbed]
    | comment body =>
      rw [text, kept, removeComments_comment first, inductionHypothesis later undisturbed,
        List.nil_append]
    | string quote body =>
      have same := inductionHypothesis later undisturbed.2
      cases cut : cut? commentOpener body with
      | none =>
        rw [removeComments_string first.1 (cut?_eq_none_iff.mp cut), same]
        rfl
      | some sides =>
        obtain ⟨parts, earliest⟩ := cut?_eq_some_iff.mp cut
        have unopened := (firstCut_pair_iff (by decide)).mp earliest
        have unclosed := undisturbed.1 _ _ parts
        have plain : ¬ commentCloser <:+: allText others := fun inside =>
          unclosed (inside.trans ((List.suffix_cons _ _).trans (List.suffix_append _ _)).isInfix)
        rw [removeComments_of_uncommented (uncommented_of_unclosed plain)] at same
        rw [parts, removeComments_string_of_unclosed first.1 unopened unclosed, same]
        rfl

-- What looks like a comment is removed from a string too.
example : removeComments false "\"/*x*/\"".toList = "\"\"".toList := by cbv

/-! ### The ends of pieces -/

theorem framed_text {piece : Piece} (proper : piece.Proper) :
    Framed Room.declarations.skips piece.text := by
  cases piece with
  | word letters =>
    refine framed_of_forall fun character member => ?_
    obtain ⟨unblank, ordinary⟩ := proper.2 character member
    refine Bool.or_eq_false_iff.mpr ⟨beq_false_of_ne ?_, unblank⟩
    rintro rfl
    exact ordinary List.mem_cons_self
  | string quote body =>
    have other : Room.declarations.skips quote = false := by
      rcases proper.1 with rfl | rfl <;> decide
    exact framed_between other other body
  | comment body =>
    have parts : (comment body).text = '/' :: ('*' :: body ++ ['*']) ++ ['/'] := by
      simp [text, commentOpener, commentCloser]
    rw [parts]
    exact framed_between (by decide) (by decide) _

/-- Nothing is passed over in front of the pieces or behind them. -/
theorem framed_allText (proper : ∀ piece ∈ pieces, piece.Proper) :
    Framed Room.declarations.skips (allText pieces) := by
  induction pieces with
  | nil => exact framed_of_forall (List.forall_mem_nil _)
  | cons piece others inductionHypothesis =>
    obtain ⟨first, later⟩ := List.forall_mem_cons.mp proper
    exact (framed_text first).append (inductionHypothesis later)

/-! ### Pieces are delimited whole -/

/-- A comment without a quote, a parenthesis or what ends a value is no danger to the value. -/
def Quiet : Piece → Prop
  | .comment body => ∀ character ∈ body, character ∉ ['}', ';', '(', '"', '\'']
  | .word _ | .string _ _ => True

theorem closedValue_allText (proper : ∀ piece ∈ pieces, piece.Proper)
    (quiet : ∀ piece ∈ pieces, piece.Quiet) : ClosedValue (allText pieces) := by
  induction pieces with
  | nil => exact .nil
  | cons piece others inductionHypothesis =>
    obtain ⟨first, later⟩ := List.forall_mem_cons.mp proper
    obtain ⟨calm, calmer⟩ := List.forall_mem_cons.mp quiet
    have closed := inductionHypothesis later calmer
    rw [allText_cons]
    cases piece with
    | word letters =>
      have fewer : ['}', ';', '(', '"', '\''] ⊆
          [';', '{', '}', '(', ')', '"', '\'', '/', '*', '\\'] := by decide
      refine closedValue_append (fun character member special => ?_) closed
      exact (first.2 character member).2 (fewer special)
    | string quote body =>
      have line : ∀ character ∈ body, isLineBreak character = false :=
        fun character member => (first.2 character member).2.2
      rw [text, List.append_assoc]
      exact .string first.1 line (quotedBody_of_forall first.2) closed
    | comment body =>
      have opener : ∀ character ∈ commentOpener, character ∉ ['}', ';', '(', '"', '\''] :=
        List.forall_mem_cons.mpr ⟨by decide, List.forall_mem_singleton.mpr (by decide)⟩
      have closer : ∀ character ∈ commentCloser, character ∉ ['}', ';', '(', '"', '\''] :=
        List.forall_mem_cons.mpr ⟨by decide, List.forall_mem_singleton.mpr (by decide)⟩
      rw [text, List.append_assoc, List.append_assoc]
      exact closedValue_append opener (closedValue_append calm (closedValue_append closer closed))

theorem covered_of_quiet (proper : ∀ piece ∈ pieces, piece.Proper)
    (quiet : ∀ piece ∈ pieces, piece.Quiet) : Covered pieces :=
  segmented_of_closedValue (closedValue_allText proper quiet) _

end Piece

/-! ### Texts that are read alone -/

/-- What is read alone has a derivation. -/
theorem derives_of_readsAlone {text : List Char} {tree : Tree} (alone : ReadsAlone text tree) :
    ∃ node, node.tree = tree ∧ Derives none .rules .start text [] node := by
  obtain ⟨sheet, node, read, single, same, span⟩ := alone none
  obtain ⟨inner, rest, parts, -, derives⟩ := derivesAll_of_parse read
  rw [String.toList_ofList] at parts
  rw [single] at derives
  refine ⟨node, same, ?_⟩
  cases derives with
  | @cons _ _ _ lead part tail _ _ _ skipped stops head others =>
    have whole : text = lead ++ part ++ (tail ++ rest) := by
      rw [parts]
      simp only [List.append_assoc]
    rw [Location.after_ofPrefix] at head
    have covers := covers_of_derives head whole
    have filled : 0 < text.length := by
      have present := List.length_pos_iff.mpr head.ne_nil
      rw [whole, List.length_append, List.length_append]
      omega
    have entire : node.span.Covers text 0 text.length := by
      refine ⟨filled, Nat.le_refl _, ?_, ?_⟩
      · rw [span]
        rfl
      · rw [span, List.take_length]
    obtain ⟨front, behind⟩ := entire.unique covers
    have length := congrArg List.length whole
    rw [List.length_append, List.length_append, List.length_append] at length
    have nothing : tail ++ rest = [] := List.length_eq_zero_iff.mp (by
      rw [List.length_append]
      omega)
    obtain rfl := List.length_eq_zero_iff.mp front
    rw [nothing, List.append_nil, List.nil_append] at whole
    rw [nothing] at head
    rw [whole]
    exact head

/-- A list of one node with nothing around it is the node. -/
theorem derives_of_singleton {source : Option String} {room : Room} {skips : Char → Bool}
    {place : Location} {text rest : List Char} {nodes : List Node} {tree : Tree}
    (derives : DerivesAll source room skips place text rest nodes)
    (single : Node.trees nodes = [tree]) (starts : StopsAt skips (text ++ rest))
    (ends : ∀ last ∈ text.getLast?, room.skips last = false) :
    ∃ node, node.tree = tree ∧ Derives source room place text rest node := by
  cases derives with
  | nil => cases single
  | @cons _ _ _ lead part tail _ node nodes skipped stops head others =>
    obtain ⟨same, none⟩ := List.cons.inj single
    obtain rfl : lead = [] := by
      cases lead with
      | nil => rfl
      | cons first lead => exact absurd starts (not_stopsAt_cons (skipped first List.mem_cons_self))
    obtain rfl : tail = [] := by
      cases others with
      | cons => cases none
      | nil trailing =>
        rcases List.eq_nil_or_concat tail with rfl | ⟨front, last, rfl⟩
        · rfl
        · have passed := skips_of_skipsBehind last (trailing last (by simp))
          rw [ends last (by simp)] at passed
          cases passed
    rw [List.append_nil, List.nil_append]
    exact ⟨node, same, head⟩

theorem derivesAll_singleton {source : Option String} {room : Room} {skips : Char → Bool}
    {place : Location} {text rest : List Char} {node : Node}
    (head : Derives source room place text rest node) (stops : StopsAt skips (text ++ rest))
    (ending : EndsList rest) : DerivesAll source room skips place text rest [node] := by
  have last : DerivesAll source room (room.skipsBehind node.kind) (place.after ([] ++ text)) []
      rest [] := .nil (List.forall_mem_nil _) ending
  have whole := DerivesAll.cons (List.forall_mem_nil _) stops head last
  rwa [List.nil_append, List.append_nil] at whole

/-! ### One declaration in a rule -/

/-- A rule with one declaration. -/
def declared (value : List Char) : Tree :=
  .block (.rule ["a"]) [.leaf (.declaration "b" (String.ofList value))]

/-- The text of that rule, with this text between the colon and the closing brace. -/
def declaring (text : List Char) : List Char := ['a'] ++ '{' :: ('b' :: ':' :: text) ++ ['}']

section

variable {text : List Char}

theorem takes_selector (behind : List Char) : selectorText.Takes ['a'] ['a'] ('{' :: behind) :=
  takes_selectorText.mpr ⟨rfl, by decide, by decide, (by decide : ('{' != '{') = false)⟩

theorem takes_property (behind : List Char) : propertyName.Takes ['b'] ['b'] (':' :: behind) :=
  takes_propertyName ⟨['b'], [], rfl, by decide, by decide,
    List.forall_mem_singleton.mpr (by decide), .inl rfl⟩

theorem takes_colon (starts : StopsAt isBlank (text ++ ['}'])) :
    colon.Takes [':'] [':'] (text ++ ['}']) :=
  takes_mark.mpr ⟨rfl, [], rfl, allBlank_nil, starts⟩

/-- A text that is taken for a value is the value of its declaration, but for its comments. -/
theorem readsAlone_declaring {found : Option (List Char)}
    (takes : (optional declarationValue).Takes found text ['}'])
    (starts : StopsAt isBlank (text ++ ['}'])) :
    ReadsAlone (declaring text) (declared (removeComments false (trim (found.getD [])))) := by
  have unopened : ¬ commentOpener <+: ['b'] ++ [':'] ++ text ++ ['}'] :=
    not_prefix_of_head rfl (by decide)
  have leaf := Room.TakesLeaf.declaration (.of_ne_rules unopened (by decide))
    (takes_property (text ++ ['}'])) (takes_colon starts) takes
  have inside : DerivesAll none .declarations isBlank (.ofPrefix ['a', '{'])
      (['b'] ++ [':'] ++ text) ['}'] [_] :=
    derivesAll_singleton (.leaf leaf) (by decide : isBlank 'b' = false) (.inr ⟨[], rfl⟩)
  have opens : Room.rules.Opens (.rule ((splitSelectors ['a']).map String.ofList)) ['a']
      ('{' :: (['b'] ++ [':'] ++ text) ++ ['}']) :=
    .rule (fun name => absent_of_head (not_prefix_of_head rfl (by decide))) (takes_selector _)
  have continues : Room.rules.Continues (['a'] ++ ('{' :: (['b'] ++ [':'] ++ text) ++ ['}'])) :=
    ⟨not_prefix_of_head rfl (by decide), fun _ => not_endsList_cons (by decide)⟩
  have block : Derives none .rules (.ofPrefix []) (declaring text) [] _ :=
    .block continues opens inside rfl
  have selectors : (splitSelectors ['a']).map String.ofList = ["a"] := by cbv
  have property : uncommented ['b'] = "b" := by cbv
  have alone := readsAlone_of_derives block (by decide : isBlank 'a' = false)
  rw [selectors] at alone
  simp only [Node.tree, Node.trees, property] at alone
  exact alone

/-- Only a text that is taken for a value is the value of the declaration. -/
theorem takes_of_takesLeaf {value : String} (starts : StopsAt isBlank (text ++ ['}']))
    (leaf : Room.declarations.TakesLeaf (.declaration "b" value) ('b' :: ':' :: text) ['}']) :
    ∃ found, (optional declarationValue).Takes found text ['}'] ∧
      value = uncommented (trim (found.getD [])) := by
  generalize content : Leaf.declaration "b" value = leaf, parts : 'b' :: ':' :: text = part at leaf
  cases leaf with
  | comment => cases content
  | @declaration property former sign mark latter _ found continues named marked valued =>
    have whole : former ++ (mark ++ (latter ++ ['}'])) = ['b'] ++ ':' :: (text ++ ['}']) := by
      rw [← List.append_assoc, ← List.append_assoc, ← parts]
      rfl
    obtain ⟨-, rfl, behind⟩ := takes_unique named (takes_property _) whole
    obtain ⟨-, rfl, same⟩ := takes_unique marked (takes_colon starts) behind
    obtain rfl := List.append_cancel_right same
    exact ⟨found, valued, (Leaf.declaration.inj content).2⟩

/-- Only a text that is taken for a value is read as one declaration. -/
theorem takes_of_readsAlone {value : List Char} (starts : StopsAt isBlank (text ++ ['}']))
    (ends : ∀ last ∈ text.getLast?, Room.declarations.skips last = false)
    (alone : ReadsAlone (declaring text) (declared value)) :
    ∃ found, (optional declarationValue).Takes found text ['}'] ∧
      value = removeComments false (trim (found.getD [])) := by
  obtain ⟨node, same, derives⟩ := derives_of_readsAlone alone
  generalize whole : declaring text = input at derives
  cases derives with
  | leaf => cases same
  | @block _ _ _ opening inside _ header children continues opens body =>
    obtain ⟨rfl, trees⟩ := Tree.block.inj same
    obtain ⟨present, free, -⟩ := opens.written
    have parts : opening ++ '{' :: (inside ++ ['}']) =
        ['a'] ++ '{' :: ('b' :: ':' :: text ++ ['}']) := by
      rw [← List.cons_append, ← List.append_assoc]
      exact whole.symm
    have taken : selectorText.Takes opening opening ('{' :: (inside ++ ['}'])) :=
      takes_selectorText.mpr ⟨rfl, present, free, (by decide : ('{' != '{') = false)⟩
    obtain ⟨-, rfl, behind⟩ := takes_unique taken (takes_selector _) parts
    obtain rfl := List.append_cancel_right (List.cons.inj behind).2
    have final : ∀ last ∈ ('b' :: ':' :: text).getLast?, Room.declarations.skips last = false := by
      intro last member
      cases text with
      | nil =>
        obtain rfl := Option.some.inj member
        decide
      | cons first rest => exact ends last (by rwa [List.getLast?_cons_cons] at member)
    obtain ⟨child, tree, derived⟩ :=
      derives_of_singleton body trees (by decide : isBlank 'b' = false) final
    generalize name : 'b' :: ':' :: text = part at derived
    cases derived with
    | leaf takes =>
      obtain rfl := Tree.leaf.inj tree
      subst name
      obtain ⟨found, valued, value⟩ := takes_of_takesLeaf starts takes
      exact ⟨found, valued, String.ofList_inj.mp value⟩
    | block => cases tree

/-- The text between the colon and the brace is read as the value of one declaration exactly if it
falls into segments as a whole. -/
theorem readsAlone_declaring_iff {value : List Char}
    (framed : Framed Room.declarations.skips text) :
    ReadsAlone (declaring text) (declared value) ↔
      (∃ segments, Segmented segments text ['}']) ∧ value = removeComments false text := by
  have starts : StopsAt isBlank (text ++ ['}']) := by
    cases parts : text with
    | nil => exact (by decide : isBlank '}' = false)
    | cons first rest => exact framed.trimmed.1 first (by rw [parts]; rfl)
  constructor
  · intro alone
    obtain ⟨found, takes, rfl⟩ := takes_of_readsAlone starts framed.2 alone
    refine ⟨(takes_optional_declarationValue_iff.mp takes).2.1, ?_⟩
    rw [(valueText_of_optional takes).1, trim_of_trimmed framed.trimmed]
  · rintro ⟨segmented, rfl⟩
    have takes := takes_optional_declarationValue_iff.mpr ⟨rfl, segmented, .inl rfl⟩
    have alone := readsAlone_declaring takes starts
    rwa [(valueText_of_optional takes).1, trim_of_trimmed framed.trimmed] at alone

end

/-! ### Values that are put together -/

/-- The pieces are read as one value exactly if they are delimited whole, and they are at least where
the comments are quiet. The value is their text without what looks like a comment, and those are the
comments among the pieces unless a string opens one that is closed behind. -/
theorem readsAlone_pieces (pieces : List Piece) (proper : ∀ piece ∈ pieces, piece.Proper) :
    (∀ value, ReadsAlone (declaring (Piece.allText pieces)) (declared value) ↔
      Piece.Covered pieces ∧ value = removeComments false (Piece.allText pieces)) ∧
    ((∀ piece ∈ pieces, piece.Quiet) → Piece.Covered pieces) ∧
    (Piece.Undisturbed pieces →
      removeComments false (Piece.allText pieces) = Piece.allKept pieces) :=
  ⟨fun _ => readsAlone_declaring_iff (Piece.framed_allText proper),
    Piece.covered_of_quiet proper, Piece.removeComments_allText proper⟩

/-- A word, a comment and a string in which the value could end. -/
def markedPieces : List Piece := [.word ['c'], .comment ['d'], .string '"' ['}', ';']]

theorem proper_markedPieces : ∀ piece ∈ markedPieces, piece.Proper := by
  have word : (Piece.word ['c']).Proper :=
    ⟨by decide, List.forall_mem_singleton.mpr ⟨by decide, by decide⟩⟩
  have comment : (Piece.comment ['d']).Proper := (by decide : ¬ commentCloser <:+: ['d'])
  have string : (Piece.string '"' ['}', ';']).Proper :=
    ⟨.inl rfl, List.forall_mem_cons.mpr
      ⟨⟨by decide, by decide, by decide⟩, List.forall_mem_singleton.mpr
        ⟨by decide, by decide, by decide⟩⟩⟩
  exact List.forall_mem_cons.mpr
    ⟨word, List.forall_mem_cons.mpr ⟨comment, List.forall_mem_singleton.mpr string⟩⟩

theorem readsAlone_pieces_markedPieces :
    (∀ piece ∈ markedPieces, piece.Proper) ∧
      ReadsAlone "a\x7bb:c/*d*/\"\x7d;\"\x7d".toList (declared "c\"\x7d;\"".toList) := by
  have quiet : ∀ piece ∈ markedPieces, piece.Quiet :=
    List.forall_mem_cons.mpr ⟨trivial, List.forall_mem_cons.mpr
      ⟨List.forall_mem_singleton.mpr (by decide), List.forall_mem_singleton.mpr trivial⟩⟩
  have undisturbed : Piece.Undisturbed markedPieces := by
    refine ⟨fun former latter parts => ?_, trivial⟩
    have inside : commentOpener <:+: ['}', ';'] := ⟨former, latter, parts.symm⟩
    exact absurd inside (by decide)
  obtain ⟨alone, covered, kept⟩ := readsAlone_pieces markedPieces proper_markedPieces
  exact ⟨proper_markedPieces, (alone _).mpr ⟨covered quiet, (kept undisturbed).symm⟩⟩

/-- A semicolon in a comment ends the value. -/
theorem not_parse_of_pieces :
    ¬ ∀ pieces : List Piece, (∀ piece ∈ pieces, piece.Proper) →
      ∃ sheet, parse (String.ofList (declaring (Piece.allText pieces))) = .ok sheet ∧
        Node.trees sheet.rules = [declared (Piece.allKept pieces)] := by
  intro always
  have word : ∀ letter ∈ ['c', 'd'], (Piece.word [letter]).Proper := by
    refine List.forall_mem_cons.mpr ⟨?_, List.forall_mem_singleton.mpr ?_⟩
    · exact ⟨by decide, List.forall_mem_singleton.mpr ⟨by decide, by decide⟩⟩
    · exact ⟨by decide, List.forall_mem_singleton.mpr ⟨by decide, by decide⟩⟩
  have comment : (Piece.comment [';']).Proper := (by decide : ¬ commentCloser <:+: [';'])
  obtain ⟨sheet, read, -⟩ := always [.word ['c'], .comment [';'], .word ['d']]
    (List.forall_mem_cons.mpr ⟨word 'c' (by decide), List.forall_mem_cons.mpr
      ⟨comment, List.forall_mem_singleton.mpr (word 'd' (by decide))⟩⟩)
  have fault : parse "a\x7bb:c/*;*/d\x7d" = .error ⟨.missingColon, none, ⟨1, 12⟩⟩ := by cbv
  have text : String.ofList (declaring (Piece.allText [.word ['c'], .comment [';'], .word ['d']])) =
      "a\x7bb:c/*;*/d\x7d" := by rfl
  rw [text, fault] at read
  cases read

end CssSyntax
