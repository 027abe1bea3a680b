/-
This file says where the nodes of a stylesheet lie in its text.

The two ends of a span are the line and the column of two places in the text, and these places are
unique. A node lies inside its parent and begins later, siblings follow one another, and the nodes
in pre-order begin one after the other. What stands in the range of a node has the form of the node.
All of it follows from how the nodes were read.
-/

import Mathlib
import CssSyntax.Proofs.Locations
import CssSyntax.Proofs.Modes
import CssSyntax.Proofs.Readings

namespace CssSyntax

open Grammar

/-! ### Spans and ranges of characters -/

/-- The span goes from the place before the character `first` of the text to the place before the
character `last`. -/
structure Span.Covers (span : Span) (text : List Char) (first last : Nat) : Prop where
  ordered : first < last
  fits : last ≤ text.length
  start : span.start = .ofPrefix (text.take first)
  stop : span.stop = .ofPrefix (text.take last)

/-- The range of the inner span begins behind the start of the outer one and does not end later. -/
def Span.Encloses (text : List Char) (outer inner : Span) : Prop :=
  ∃ first last first' last', outer.Covers text first last ∧ inner.Covers text first' last' ∧
    first < first' ∧ last' ≤ last

/-- The range of the former span ends where the latter begins, or earlier. -/
def Span.EndsBefore (text : List Char) (former latter : Span) : Prop :=
  ∃ first last first' last', former.Covers text first last ∧ latter.Covers text first' last' ∧
    last ≤ first'

namespace Span.Covers

variable {span : Span} {text : List Char} {first last first' last' : Nat}

theorem unique (covers : span.Covers text first last) (others : span.Covers text first' last') :
    first' = first ∧ last' = last := by
  have bound := Nat.le_trans (Nat.le_of_lt covers.ordered) covers.fits
  have bound' := Nat.le_trans (Nat.le_of_lt others.ordered) others.fits
  refine ⟨Location.ofPrefix_take_inj bound' bound ?_, ?_⟩
  · rw [← others.start, covers.start]
  · refine Location.ofPrefix_take_inj others.fits covers.fits ?_
    rw [← others.stop, covers.stop]

theorem start_lt_stop (covers : span.Covers text first last) : span.start < span.stop := by
  rw [covers.start, covers.stop]
  exact Location.ofPrefix_take_lt covers.ordered covers.fits

end Span.Covers

/-! ### The ranges of nodes that were read -/

variable {source : Option String} {faults : List Fault} {place : Location}
  {before text part after : List Char} {node : Node} {nodes : List Node}

/-- A span that goes from the end of a text over some more text. -/
theorem covers_of_span_eq {span : Span} (same : span = ⟨place, place.after part, source⟩)
    (beginning : place = .ofPrefix before) (present : part ≠ [])
    (parts : text = before ++ part ++ after) :
    span.Covers text before.length (before.length + part.length) := by
  rw [same, beginning, parts]
  refine ⟨Nat.lt_add_of_pos_right (List.length_pos_iff.mpr present), ?_, ?_, ?_⟩
  · rw [List.length_append, List.length_append]
    exact Nat.le_add_right _ _
  · rw [List.append_assoc, List.take_left]
  · rw [Location.after_ofPrefix, ← List.length_append, List.take_left]

theorem covers_of_reads (read : Reads source faults (.ofPrefix before) part node)
    (parts : text = before ++ part ++ after) :
    node.span.Covers text before.length (before.length + part.length) :=
  covers_of_span_eq read.span_eq rfl read.ne_nil parts

/-- A node inside a text that itself is behind some text. -/
theorem covers_of_inside (inside : Inside source faults (.ofPrefix before) part node)
    (parts : text = before ++ part ++ after) :
    ∃ first last, node.span.Covers text first last ∧ before.length ≤ first ∧
      last ≤ before.length + part.length := by
  obtain ⟨former, inner, latter, rfl, read⟩ := inside
  rw [Location.after_ofPrefix] at read
  have whole : text = (before ++ former) ++ inner ++ (latter ++ after) := by
    rw [parts]
    simp only [List.append_assoc]
  refine ⟨_, _, covers_of_reads read whole, ?_, ?_⟩
  · rw [List.length_append]
    exact Nat.le_add_right _ _
  · simp only [List.length_append]
    omega

/-- The children of a node were read from a part of its text that begins later. -/
theorem children_of_reads (read : Reads source faults (.ofPrefix before) part node)
    (parts : text = before ++ part ++ after) :
    ∃ former inside latter, text = former ++ inside ++ latter ∧ before.length < former.length ∧
      former.length + inside.length ≤ before.length + part.length ∧
      ReadsAll source faults (.ofPrefix former) inside node.children := by
  cases read with
  | leaf form =>
    refine ⟨before ++ part, [], after, ?_, ?_, ?_, .nil⟩
    · rw [parts, List.append_nil]
    · rw [List.length_append]
      exact Nat.lt_add_of_pos_right (List.length_pos_iff.mpr form.ne_nil)
    · exact Nat.le_of_eq (by rw [List.length_append, List.length_nil, Nat.add_zero])
  | @block _ _ opening inside closing _ _ form body behind ending =>
    rw [Location.after_ofPrefix] at body
    refine ⟨_, inside, closing ++ after, ?_, ?_, ?_, body⟩
    · rw [parts]
      simp
    · rw [List.length_append, List.length_append]
      exact Nat.lt_add_of_pos_right (Nat.succ_pos _)
    · simp only [List.length_append, List.length_cons, List.length_nil]
      omega

theorem encloses_of_reads (read : Reads source faults (.ofPrefix before) part node)
    (parts : text = before ++ part ++ after) :
    ∀ child ∈ node.children, Span.Encloses text node.span child.span := by
  intro child member
  obtain ⟨former, inside, latter, whole, behind, bounded, body⟩ := children_of_reads read parts
  obtain ⟨first, last, covers, late, early⟩ := covers_of_inside (body.inside child member) whole
  refine ⟨_, _, first, last, covers_of_reads read parts, covers, ?_, ?_⟩
  · exact Nat.lt_of_lt_of_le behind late
  · exact Nat.le_trans early bounded

theorem siblings_of_readsAll (read : ReadsAll source faults (.ofPrefix before) part nodes)
    (parts : text = before ++ part ++ after) :
    nodes.Pairwise fun former latter => Span.EndsBefore text former.span latter.span := by
  induction nodes generalizing before part with
  | nil => exact .nil
  | cons node nodes inductionHypothesis =>
    cases read with
    | @cons _ gap inner rest _ _ head tail =>
      rw [Location.after_ofPrefix] at head tail
      have whole : text = (before ++ gap) ++ inner ++ (rest ++ after) := by
        rw [parts]
        simp
      have later : text = (before ++ (gap ++ inner)) ++ rest ++ after := by
        rw [parts]
        simp
      refine List.pairwise_cons.mpr ⟨fun sibling member => ?_, inductionHypothesis tail later⟩
      obtain ⟨first, last, covers, late, -⟩ := covers_of_inside (tail.inside sibling member) later
      refine ⟨_, _, first, last, covers_of_reads head whole, covers, ?_⟩
      simp only [List.length_append] at late ⊢
      omega

theorem siblings_of_reads (read : Reads source faults (.ofPrefix before) part node)
    (parts : text = before ++ part ++ after) :
    node.children.Pairwise fun former latter => Span.EndsBefore text former.span latter.span := by
  obtain ⟨former, inside, latter, whole, -, -, body⟩ := children_of_reads read parts
  exact siblings_of_readsAll body whole

/-! ### The order of starts -/

theorem start_of_inside (inside : Inside source faults place text node) :
    place ≤ node.span.start ∧ node.span.start < place.after text := by
  obtain ⟨former, inner, latter, rfl, read⟩ := inside
  rw [read.span_eq, List.append_assoc, Location.after_append]
  refine ⟨Location.le_after place former, Location.lt_after _ ?_⟩
  exact List.append_ne_nil_of_left_ne_nil read.ne_nil latter

/-- The first node begins earlier than the second. -/
def Node.BeginsBefore (former latter : Node) : Prop := former.span.start < latter.span.start

mutual

theorem beginsBefore_of_reads {place : Location} {text : List Char} {node : Node}
    (read : Reads source faults place text node) : node.preorder.Pairwise Node.BeginsBefore := by
  cases read with
  | leaf form => exact List.pairwise_singleton _ _
  | @block _ _ opening inside closing _ _ form body behind ending =>
    refine List.pairwise_cons.mpr ⟨fun inner member => ?_, beginsBefore_of_readsAll body⟩
    have late := (start_of_inside (body.inside_preorderAll inner member)).1
    refine Location.lt_of_lt_of_le (Location.lt_after _ ?_) late
    exact List.append_ne_nil_of_right_ne_nil _ (List.cons_ne_nil _ _)

theorem beginsBefore_of_readsAll {place : Location} {text : List Char} {nodes : List Node}
    (read : ReadsAll source faults place text nodes) :
    (Node.preorderAll nodes).Pairwise Node.BeginsBefore := by
  cases read with
  | nil => exact .nil
  | @cons _ gap part rest _ _ head tail =>
    refine List.pairwise_append.mpr
      ⟨beginsBefore_of_reads head, beginsBefore_of_readsAll tail,
        fun first inFirst later inLater => ?_⟩
    have early := (start_of_inside (head.inside_preorder first inFirst)).2
    have late := (start_of_inside (tail.inside_preorderAll later inLater)).1
    rw [← Location.after_append] at early
    exact Location.lt_of_lt_of_le early late

end

/-! ### Stylesheets -/

/-- The nodes of a parsed stylesheet were read from its text. -/
theorem readsAll_of_parse {css : String} {options : Options} {sheet : Stylesheet}
    (read : parseWith css options = .ok sheet) :
    ReadsAll options.source sheet.faults (.ofPrefix []) css.toList sheet.rules := by
  obtain ⟨nodes, last, run, rfl⟩ := ok_of_parseWith read
  obtain ⟨text, took, reads⟩ := readsNodes_rules _ _ _ _ run
  have whole : css.toList = text ++ last.cursor.rest := took.rest
  rw [whole]
  exact reads.append _

theorem Stylesheet.nodes_map (sheet : Stylesheet) :
    sheet.nodes.map Prod.snd = Node.preorderAll sheet.rules := by
  refine List.ext_getElem ?_ fun index _ _ => ?_
  · rw [List.length_map, Stylesheet.nodes, List.length_mapIdx]
  · simp only [Stylesheet.nodes, List.getElem_map, List.getElem_mapIdx]

theorem Stylesheet.mem_preorderAll {sheet : Stylesheet} {entry : NodeId × Node}
    (member : entry ∈ sheet.nodes) : entry.2 ∈ Node.preorderAll sheet.rules := by
  rw [← sheet.nodes_map]
  exact List.mem_map_of_mem member

theorem reads_of_mem_nodes {css : String} {options : Options} {sheet : Stylesheet}
    (read : parseWith css options = .ok sheet) {entry : NodeId × Node}
    (member : entry ∈ sheet.nodes) :
    ∃ before part after, css.toList = before ++ part ++ after ∧
      Reads options.source sheet.faults (.ofPrefix before) part entry.2 := by
  obtain ⟨before, part, after, parts, reads⟩ :=
    (readsAll_of_parse read).inside_preorderAll entry.2 (Stylesheet.mem_preorderAll member)
  rw [Location.after_ofPrefix] at reads
  exact ⟨before, part, after, parts, reads⟩

/-- The spans of a stylesheet are real ranges of its text, nested like the nodes and in the order of
the text. -/
structure Stylesheet.InPlace (sheet : Stylesheet) (text : List Char) : Prop where
  unique : ∀ entry ∈ sheet.nodes, ∃ first last, entry.2.span.Covers text first last ∧
    ∀ first' last', entry.2.span.Covers text first' last' → first' = first ∧ last' = last
  nested : ∀ entry ∈ sheet.nodes, ∀ child ∈ entry.2.children,
    Span.Encloses text entry.2.span child.span
  siblings : ∀ entry ∈ sheet.nodes,
    entry.2.children.Pairwise fun former latter => Span.EndsBefore text former.span latter.span
  topLevel : sheet.rules.Pairwise fun former latter =>
    Span.EndsBefore text former.span latter.span
  ordered : ∀ entry ∈ sheet.nodes, entry.2.span.start < entry.2.span.stop ∧
    entry.2.span.start.line ≤ entry.2.span.stop.line
  increasing : sheet.nodes.Pairwise fun former latter => former.2.span.start < latter.2.span.start

theorem inPlace_of_parse (css : String) (options : Options) (sheet : Stylesheet)
    (read : parseWith css options = .ok sheet) : sheet.InPlace css.toList where
  unique entry member := by
    obtain ⟨before, part, after, parts, reads⟩ := reads_of_mem_nodes read member
    have covers := covers_of_reads reads parts
    exact ⟨_, _, covers, fun first' last' => covers.unique⟩
  nested entry member := by
    obtain ⟨before, part, after, parts, reads⟩ := reads_of_mem_nodes read member
    exact encloses_of_reads reads parts
  siblings entry member := by
    obtain ⟨before, part, after, parts, reads⟩ := reads_of_mem_nodes read member
    exact siblings_of_reads reads parts
  topLevel := siblings_of_readsAll (readsAll_of_parse read) (List.append_nil _).symm
  ordered entry member := by
    obtain ⟨before, part, after, parts, reads⟩ := reads_of_mem_nodes read member
    have less := (covers_of_reads reads parts).start_lt_stop
    exact ⟨less, Location.line_le_of_lt less⟩
  increasing := by
    have starts := beginsBefore_of_readsAll (readsAll_of_parse read)
    rw [← sheet.nodes_map, List.pairwise_map] at starts
    exact starts

/-- A rule in a conditional block, with a line feed in front of the condition. -/
def nestedSheet : Stylesheet :=
  .ofRules none
    [.block (.media "a") ⟨⟨1, 1⟩, ⟨2, 10⟩, none⟩
      [.block (.rule ["b"]) ⟨⟨2, 3⟩, ⟨2, 9⟩, none⟩
        [.leaf (.declaration "c" "d") ⟨⟨2, 5⟩, ⟨2, 8⟩, none⟩]]] []

theorem inPlace_nestedSheet :
    parseWith "@media\na{b{c:d}}" {} = .ok nestedSheet ∧
      nestedSheet.InPlace "@media\na{b{c:d}}".toList := by
  have read : parseWith "@media\na{b{c:d}}" {} = .ok nestedSheet := by cbv
  exact ⟨read, inPlace_of_parse _ _ _ read⟩

/-! ### What stands in the ranges -/

/-- The characters of the text from `first` to before `last`. -/
def between (text : List Char) (first last : Nat) : List Char := (text.take last).drop first

/-- Every node is written as the text in its range, which is one range only. -/
theorem writtenAs_of_parse (css : String) (options : Options) (sheet : Stylesheet)
    (read : parseWith css options = .ok sheet) :
    ∀ entry ∈ sheet.nodes, (∃ first last, entry.2.span.Covers css.toList first last) ∧
      ∀ first last, entry.2.span.Covers css.toList first last →
        entry.2.WrittenAs sheet.faults (between css.toList first last) := by
  intro entry member
  obtain ⟨before, part, after, parts, reads⟩ := reads_of_mem_nodes read member
  have covers := covers_of_reads reads parts
  refine ⟨⟨_, _, covers⟩, fun first last others => ?_⟩
  obtain ⟨rfl, rfl⟩ := covers.unique others
  have same : between css.toList before.length (before.length + part.length) = part := by
    rw [between, parts, ← List.length_append, List.take_left, List.drop_left]
  rw [same]
  exact reads.written

/-- A rule without its closing brace, behind a comment. -/
def brokenSheet : Stylesheet :=
  .ofRules none
    [.leaf (.comment "b") ⟨⟨1, 1⟩, ⟨1, 6⟩, none⟩,
      .block (.rule ["e"]) ⟨⟨1, 7⟩, ⟨1, 12⟩, none⟩
        [.leaf (.declaration "f" "g") ⟨⟨1, 9⟩, ⟨1, 12⟩, none⟩]]
    [⟨.missingCloseBrace .block, none, ⟨1, 12⟩⟩]

theorem writtenAs_brokenSheet :
    parseWith "/*b*/ e\x7bf:g" ⟨none, .tolerant⟩ = .ok brokenSheet ∧
      ∀ entry ∈ brokenSheet.nodes,
        (∃ first last, entry.2.span.Covers "/*b*/ e\x7bf:g".toList first last) ∧
        ∀ first last, entry.2.span.Covers "/*b*/ e\x7bf:g".toList first last →
          entry.2.WrittenAs brokenSheet.faults (between "/*b*/ e\x7bf:g".toList first last) := by
  have read : parseWith "/*b*/ e\x7bf:g" ⟨none, .tolerant⟩ = .ok brokenSheet := by cbv
  exact ⟨read, writtenAs_of_parse _ _ _ read⟩

end CssSyntax
