/-
This file says how much of a tree its table of links tells.

The outline of a tree is what is left when everything but the kinds of its nodes is forgotten. The
table is made from the outline alone. As long as there are few enough nodes to number, it also gives
the outline back: every place with a node has a row, and the row says which place that is and of what
kind the node is. So two trees have the same table exactly if they have the same outline, and after
changes of the nodes the table is out of date exactly if the outline has become another one.
-/

import CssSyntax.Proofs.Numbering
import CssSyntax.Tree.Edit

namespace CssSyntax

/-! ### Outlines -/

/-- A tree of kinds. -/
inductive Outline where
  | node (kind : Kind) (children : List Outline)

namespace Node

mutual

/-- The kinds of the node and of the nodes below it. -/
def outline : Node → Outline
  | .leaf content _ => .node content.kind []
  | .block header _ children => .node header.kind (outlines children)

/-- The outlines of the nodes of a list. -/
def outlines : List Node → List Outline
  | [] => []
  | node :: nodes => outline node :: outlines nodes

end

theorem outline_eq (node : Node) : node.outline = .node node.kind (outlines node.children) := by
  cases node <;> rfl

end Node

/-- The kinds of all nodes. -/
def Stylesheet.outline (sheet : Stylesheet) : List Outline := Node.outlines sheet.rules

/-! ### From the outline to the table -/

namespace Outline

mutual

/-- The rows of the node with this outline and of the nodes below it, numbered from `next`. -/
def links (parent : NodeId) (path : List UInt32) (next : Nat) : Outline → List Link
  | .node kind children =>
    ⟨some parent, kind, path⟩ :: linksAll (.ofNat next) path 0 (next + 1) children

/-- The rows of the children of one node, the first of which has the given index, and of the nodes
below them, numbered from `next`. -/
def linksAll (parent : NodeId) (path : List UInt32) (index next : Nat) : List Outline → List Link
  | [] => []
  | outline :: outlines =>
    let rows := links parent (path ++ [UInt32.ofNat index]) next outline
    rows ++ linksAll parent path (index + 1) (next + rows.length) outlines

end

end Outline

mutual

theorem Node.links_outline (parent : NodeId) (path : List UInt32) (next : Nat) (node : Node) :
    node.links parent path next = node.outline.links parent path next := by
  cases node with
  | leaf content span => rfl
  | block header span children =>
    rw [Node.links, Node.outline, Outline.links, Node.linksAll_outlines]

theorem Node.linksAll_outlines (parent : NodeId) (path : List UInt32) (index next : Nat)
    (nodes : List Node) :
    Node.linksAll parent path index next nodes =
      Outline.linksAll parent path index next (Node.outlines nodes) := by
  cases nodes with
  | nil => rfl
  | cons node nodes =>
    rw [Node.linksAll, Node.outlines, Outline.linksAll, Node.links_outline,
      Node.linksAll_outlines]

end

/-- The table is made from the outline. -/
theorem Links.ofNodes_of_outlines {first second : List Node}
    (same : Node.outlines first = Node.outlines second) :
    Links.ofNodes first = Links.ofNodes second := by
  rw [Links.ofNodes, Links.ofNodes, Node.linksAll_outlines, same, ← Node.linksAll_outlines]

/-! ### From the kinds at all places to the outline -/

theorem Node.eq_nil_of_atIn? {nodes : List Node} (none : Node.atIn? nodes [0] = none) :
    nodes = [] := by
  cases nodes with
  | nil => rfl
  | cons node nodes => cases none

mutual

theorem Node.outline_of_kinds {first second : Node}
    (same : ∀ place, (first.at? place).map Node.kind = (second.at? place).map Node.kind) :
    first.outline = second.outline := by
  have kinds : first.kind = second.kind := Option.some.inj (same [])
  rw [outline_eq first, outline_eq second, kinds]
  congr 1
  cases first with
  | leaf content span =>
    have childless : second.children = [] :=
      Node.eq_nil_of_atIn? (Option.map_eq_none_iff.mp (same [0]).symm)
    rw [childless]
    rfl
  | block header span children =>
    refine Node.outlines_of_kinds fun place => ?_
    cases place with
    | nil => rfl
    | cons index place => exact same (index :: place)

/-- Lists with nodes of the same kinds at the same places have the same outlines. -/
theorem Node.outlines_of_kinds {first second : List Node}
    (same : ∀ place, (Node.atIn? first place).map Node.kind =
      (Node.atIn? second place).map Node.kind) :
    Node.outlines first = Node.outlines second := by
  cases first with
  | nil => rw [Node.eq_nil_of_atIn? (Option.map_eq_none_iff.mp (same [0]).symm)]
  | cons node nodes =>
    cases second with
    | nil => cases same [0]
    | cons other others =>
      have head : node.outline = other.outline :=
        Node.outline_of_kinds fun place => same (0 :: place)
      have tail : Node.outlines nodes = Node.outlines others := by
        refine Node.outlines_of_kinds fun place => ?_
        cases place with
        | nil => rfl
        | cons index place => exact same ((index + 1) :: place)
      rw [Node.outlines, Node.outlines, head, tail]

end

/-! ### From the table to the kinds at all places -/

namespace Stylesheet

variable {sheet first second : Stylesheet}

/-- The kind of the node that stands at the place. -/
def kindAt? (sheet : Stylesheet) (place : List Nat) : Option Kind :=
  (sheet.nodeAt? place).map Node.kind

theorem nodeAt?_of_mem_entries {entry : Entry} (member : entry ∈ sheet.entries) :
    sheet.nodeAt? entry.place = some entry.node := by
  obtain ⟨child, below, place, reached⟩ := atIn?_of_mem_entriesAll entry member
  rw [Nat.zero_add, List.nil_append] at place
  rwa [place]

theorem exists_mem_entries_of_nodeAt? {place : List Nat} {node : Node}
    (there : sheet.nodeAt? place = some node) :
    ∃ entry ∈ sheet.entries, entry.place = place ∧ entry.node = node := by
  cases place with
  | nil => cases there
  | cons child below =>
    obtain ⟨entry, member, place⟩ := exists_mem_entriesAll 0 [] 0 1 there
    rw [Nat.zero_add, List.nil_append] at place
    have found := nodeAt?_of_mem_entries member
    rw [place, there] at found
    exact ⟨entry, member, place, (Option.some.inj found).symm⟩

/-- The path in a row is the place, if there are few enough nodes. -/
theorem path_of_mem_entries (few : sheet.nodes.length < 2 ^ 32 - 1) {entry : Entry}
    (member : entry ∈ sheet.entries) : entry.link.path.map UInt32.toNat = entry.place := by
  obtain ⟨index, present⟩ : ∃ index : Nat, sheet.relink.entries[index]? = some entry :=
    List.mem_iff_getElem?.mp member
  have linked : sheet.relink.nodes.length < 2 ^ 32 - 1 := few
  obtain ⟨link, row, path⟩ := (stands_of_entry rfl linked present).path
  rw [row?_of_entry rfl linked present] at row
  rwa [← Option.some.inj row] at path

theorem kindAt?_of_links (few : first.nodes.length < 2 ^ 32 - 1)
    (otherFew : second.nodes.length < 2 ^ 32 - 1)
    (same : first.relink.links = second.relink.links) {place : List Nat} {kind : Kind}
    (there : first.kindAt? place = some kind) : second.kindAt? place = some kind := by
  obtain ⟨node, reached, rfl⟩ := Option.map_eq_some_iff.mp there
  obtain ⟨entry, member, rfl, rfl⟩ := exists_mem_entries_of_nodeAt? reached
  have rows : first.entries.map Entry.link = second.entries.map Entry.link := by
    have tables := congrArg Links.rows same
    rw [relink, relink, rows_ofNodes, rows_ofNodes] at tables
    exact (List.cons.inj tables).2
  have listed : entry.link ∈ second.entries.map Entry.link := by
    rw [← rows]
    exact List.mem_map_of_mem member
  obtain ⟨other, otherMember, row⟩ := List.mem_map.mp listed
  have places : other.place = entry.place := by
    rw [← path_of_mem_entries otherFew otherMember, row, path_of_mem_entries few member]
  have kinds : other.node.kind = entry.node.kind := congrArg Link.kind row
  rw [kindAt?, ← places, nodeAt?_of_mem_entries otherMember, Option.map_some, kinds]

/-- The same table stands for the same outline, if there are few enough nodes. -/
theorem outline_of_links (few : first.nodes.length < 2 ^ 32 - 1)
    (otherFew : second.nodes.length < 2 ^ 32 - 1)
    (same : first.relink.links = second.relink.links) : first.outline = second.outline := by
  refine Node.outlines_of_kinds fun place => Option.ext fun kind => ?_
  exact ⟨kindAt?_of_links few otherFew same, kindAt?_of_links otherFew few same.symm⟩

/-! ### Changes -/

/-- The stylesheet becomes the other one by changes of its nodes. The table of links is not made
again. -/
inductive Edited (sheet : Stylesheet) : Stylesheet → Prop where
  | refl : Edited sheet sheet
  | edit {α : Type} {former latter : Stylesheet} {path : List Nat} {edit : Edit α} {answer : α}
      (edited : Edited sheet former) (made : former.edit path edit = .ok (answer, latter)) :
      Edited sheet latter

theorem links_of_edit {α : Type} {path : List Nat} {edit : Edit α} {answer : α}
    (made : first.edit path edit = .ok (answer, second)) : second.links = first.links := by
  rw [Stylesheet.edit] at made
  cases changed : edit.under path first.rules with
  | error refusal =>
    rw [changed] at made
    cases made
  | ok result =>
    rw [changed] at made
    cases made
    rfl

theorem Edited.links (edited : first.Edited second) : second.links = first.links := by
  induction edited with
  | refl => rfl
  | edit edited made inductionHypothesis => exact (links_of_edit made).trans inductionHypothesis

theorem isStale_iff : sheet.isStale = true ↔ sheet.links ≠ sheet.relink.links :=
  decide_eq_true_iff

/-! ### Tables and outlines -/

/-- Two stylesheets with few enough nodes have the same table exactly if they have the same outline.
So the table is out of date, after changes of the nodes, exactly if the outline is another one, and
making the table twice is making it once. -/
theorem links_eq_iff_outline_eq (few : first.nodes.length < 2 ^ 32 - 1)
    (otherFew : second.nodes.length < 2 ^ 32 - 1) :
    (first.relink.links = second.relink.links ↔ first.outline = second.outline) ∧
    (first.relink.Edited second → (second.isStale = true ↔ second.outline ≠ first.outline)) ∧
    ∀ sheet : Stylesheet, sheet.relink.relink = sheet.relink ∧ sheet.relink.isStale = false := by
  have same : first.relink.links = second.relink.links ↔ first.outline = second.outline :=
    ⟨outline_of_links few otherFew, Links.ofNodes_of_outlines⟩
  refine ⟨same, fun edited => ?_, fun sheet => ⟨rfl, ?_⟩⟩
  · rw [isStale_iff, edited.links, ne_eq, same, eq_comm]
  · rw [← Bool.not_eq_true, isStale_iff, Classical.not_not]
    rfl

/-- Only the first of the two rules, with the table that was made for both of them. -/
def halvedSheet : Stylesheet :=
  { twinSheet.relink with rules := twinSheet.rules.take 1 }

theorem links_eq_iff_outline_eq_halvedSheet :
    (twinSheet.nodes.length < 2 ^ 32 - 1 ∧ halvedSheet.nodes.length < 2 ^ 32 - 1) ∧
      twinSheet.relink.Edited halvedSheet ∧ halvedSheet.isStale = true ∧
      twinSheet.relink.links ≠ halvedSheet.relink.links ∧
      halvedSheet.relink.relink = halvedSheet.relink := by
  have few : twinSheet.nodes.length < 2 ^ 32 - 1 := by decide
  have otherFew : halvedSheet.nodes.length < 2 ^ 32 - 1 := by decide
  obtain ⟨same, stale, again⟩ := links_eq_iff_outline_eq few otherFew
  have made : twinSheet.relink.edit [] (.remove 1) = .ok (_, halvedSheet) := rfl
  have edited : twinSheet.relink.Edited halvedSheet := .edit .refl made
  have other : halvedSheet.outline ≠ twinSheet.outline :=
    fun equal => nomatch congrArg List.length equal
  exact ⟨⟨few, otherFew⟩, edited, (stale edited).mpr other, fun equal => other (same.mp equal).symm,
    (again halvedSheet).1⟩

end Stylesheet

end CssSyntax
