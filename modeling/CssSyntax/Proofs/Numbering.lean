/-
This file shows that the table of links is a picture of the tree.

The nodes are numbered three times: the list of nodes in pre-order counts them, the table has a row
for each of them, and the path in a row leads to a node by itself. All three are compared with one
list of entries, which says of every node at which place it stands and which number its parent has.
The entries are made by the recursion that makes the rows, but their numbers and places are natural
numbers. What the rows say in 32-bit words is the same as long as there are few enough nodes.
-/

import Mathlib.Algebra.Group.Nat.Defs
import CssSyntax.Tree.Stylesheet

namespace CssSyntax

/-! ### Places in a tree -/

/-- The node that a list of child indices leads to. -/
def Node.at? (node : Node) : List Nat → Option Node
  | [] => some node
  | index :: place => node.children[index]?.bind fun child => child.at? place

/-- The node of a list, or the node below one, that a list of child indices leads to. -/
def Node.atIn? (nodes : List Node) : List Nat → Option Node
  | [] => none
  | index :: place => nodes[index]?.bind fun node => node.at? place

/-- The node of the stylesheet that stands at the place. No node stands at the empty one. -/
def Stylesheet.nodeAt? (sheet : Stylesheet) (place : List Nat) : Option Node :=
  Node.atIn? sheet.rules place

theorem Node.atIn?_eq_some_iff {nodes : List Node} {index : Nat} {place : List Nat} {found : Node} :
    Node.atIn? nodes (index :: place) = some found ↔
      ∃ node, nodes[index]? = some node ∧ node.at? place = some found :=
  Option.bind_eq_some_iff

/-- A node of a list has at least as many nodes in front of it, in pre-order, as its index says. -/
theorem add_length_preorder_le {nodes : List Node} {index : Nat} {node : Node}
    (present : nodes[index]? = some node) :
    index + node.preorder.length ≤ (Node.preorderAll nodes).length := by
  induction nodes generalizing index with
  | nil => cases present
  | cons first others inductionHypothesis =>
    rw [Node.preorderAll, List.length_append]
    cases index with
    | zero =>
      obtain rfl := Option.some.inj present
      omega
    | succ index =>
      have later := inductionHypothesis present
      have positive : 0 < first.preorder.length := by
        cases first <;> exact Nat.succ_pos _
      omega

/-- The indices of a place are small when there are few nodes. -/
theorem lt_of_at? {place : List Nat} {node found : Node} (reached : node.at? place = some found) :
    ∀ index ∈ place, index < node.preorder.length := by
  induction place generalizing node with
  | nil => exact List.forall_mem_nil _
  | cons first place inductionHypothesis =>
    obtain ⟨child, present, later⟩ := Node.atIn?_eq_some_iff.mp reached
    have bound := add_length_preorder_le present
    cases node with
    | leaf content span => cases present
    | block header span children =>
      rw [Node.preorder, List.length_cons]
      refine List.forall_mem_cons.mpr ⟨?_, fun index member => ?_⟩
      · exact Nat.lt_succ_of_le (Nat.le_trans (Nat.le_add_right _ _) bound)
      · have small := inductionHypothesis later index member
        have below : child.preorder.length ≤ (Node.preorderAll children).length :=
          Nat.le_trans (Nat.le_add_left _ _) bound
        omega

theorem lt_of_atIn? {nodes : List Node} {place : List Nat} {found : Node}
    (reached : Node.atIn? nodes place = some found) :
    ∀ index ∈ place, index ≤ (Node.preorderAll nodes).length := by
  cases place with
  | nil => cases reached
  | cons first place =>
    obtain ⟨node, present, later⟩ := Node.atIn?_eq_some_iff.mp reached
    have bound := add_length_preorder_le present
    refine List.forall_mem_cons.mpr ⟨?_, fun index member => ?_⟩
    · exact Nat.le_trans (Nat.le_add_right _ _) bound
    · have small := lt_of_at? later index member
      omega

/-! ### Entries -/

/-- A node, the place where it stands and the number of its parent. -/
structure Entry where
  parent : Nat
  place : List Nat
  node : Node

namespace Node

mutual

/-- The entries of the node at the place and of the nodes below it, numbered from `next`. -/
def entries (parent : Nat) (place : List Nat) (next : Nat) : Node → List Entry
  | .leaf content span => [⟨parent, place, .leaf content span⟩]
  | .block header span children =>
    ⟨parent, place, .block header span children⟩ :: entriesAll next place 0 (next + 1) children

/-- The entries of the children of one node, the first of which has the given index, and of the
nodes below them, numbered from `next`. -/
def entriesAll (parent : Nat) (place : List Nat) (first next : Nat) : List Node → List Entry
  | [] => []
  | node :: nodes =>
    let rows := entries parent (place ++ [first]) next node
    rows ++ entriesAll parent place (first + 1) (next + rows.length) nodes

end

end Node

/-- The row of the table that says the same as the entry. -/
def Entry.link (entry : Entry) : Link :=
  ⟨some (.ofNat entry.parent), entry.node.kind, entry.place.map UInt32.ofNat⟩

mutual

/-- The entries are those of the nodes in pre-order. -/
theorem map_node_entries (parent : Nat) (place : List Nat) (next : Nat) (node : Node) :
    (node.entries parent place next).map Entry.node = node.preorder := by
  cases node with
  | leaf content span => rfl
  | block header span children =>
    rw [Node.entries, Node.preorder, List.map_cons, map_node_entriesAll]

theorem map_node_entriesAll (parent : Nat) (place : List Nat) (first next : Nat)
    (nodes : List Node) :
    (Node.entriesAll parent place first next nodes).map Entry.node = Node.preorderAll nodes := by
  cases nodes with
  | nil => rfl
  | cons node nodes =>
    simp only [Node.entriesAll, Node.preorderAll, List.map_append]
    rw [map_node_entries, map_node_entriesAll]

end

mutual

/-- The rows of the table say what the entries say. -/
theorem links_eq (parent : Nat) (place : List Nat) (next : Nat) (node : Node) :
    node.links (.ofNat parent) (place.map UInt32.ofNat) next =
      (node.entries parent place next).map Entry.link := by
  cases node with
  | leaf content span => rfl
  | block header span children =>
    rw [Node.links, Node.entries, List.map_cons, linksAll_eq]
    rfl

theorem linksAll_eq (parent : Nat) (place : List Nat) (first next : Nat) (nodes : List Node) :
    Node.linksAll (.ofNat parent) (place.map UInt32.ofNat) first next nodes =
      (Node.entriesAll parent place first next nodes).map Entry.link := by
  cases nodes with
  | nil => rfl
  | cons node nodes =>
    have deeper : place.map UInt32.ofNat ++ [UInt32.ofNat first] =
        (place ++ [first]).map UInt32.ofNat := by
      rw [List.map_append, List.map_singleton]
    simp only [Node.linksAll, Node.entriesAll, List.map_append]
    rw [deeper, links_eq, List.length_map, linksAll_eq]

end

/-! ### Entries and places -/

mutual

theorem at?_of_mem_entries {parent : Nat} {place : List Nat} {next : Nat} {node : Node} :
    ∀ entry ∈ node.entries parent place next, ∃ below, entry.place = place ++ below ∧
      node.at? below = some entry.node := by
  cases node with
  | leaf content span =>
    exact List.forall_mem_singleton.mpr ⟨[], (List.append_nil _).symm, rfl⟩
  | block header span children =>
    refine List.forall_mem_cons.mpr ⟨⟨[], (List.append_nil _).symm, rfl⟩, fun entry member => ?_⟩
    obtain ⟨index, below, place, reached⟩ := atIn?_of_mem_entriesAll entry member
    rw [Nat.zero_add] at place
    exact ⟨index :: below, place, reached⟩

theorem atIn?_of_mem_entriesAll {parent : Nat} {place : List Nat} {first next : Nat}
    {nodes : List Node} :
    ∀ entry ∈ Node.entriesAll parent place first next nodes, ∃ index below,
      entry.place = place ++ (first + index) :: below ∧
        Node.atIn? nodes (index :: below) = some entry.node := by
  cases nodes with
  | nil => exact fun entry absurdity => absurd absurdity List.not_mem_nil
  | cons node nodes =>
    intro entry member
    rcases List.mem_append.mp member with here | later
    · obtain ⟨below, same, reached⟩ := at?_of_mem_entries entry here
      rw [List.append_assoc] at same
      exact ⟨0, below, same, reached⟩
    · obtain ⟨index, below, same, reached⟩ := atIn?_of_mem_entriesAll entry later
      rw [Nat.add_assoc, Nat.add_comm 1] at same
      exact ⟨index + 1, below, same, reached⟩

end

mutual

/-- Wherever a node stands, there is an entry for it. -/
theorem exists_mem_entries (parent : Nat) (place : List Nat) (next : Nat) {node : Node}
    {below : List Nat} {found : Node} (reached : node.at? below = some found) :
    ∃ entry ∈ node.entries parent place next, entry.place = place ++ below := by
  cases node with
  | leaf content span =>
    cases below with
    | nil => exact ⟨_, List.mem_singleton_self _, (List.append_nil _).symm⟩
    | cons index below => cases reached
  | block header span children =>
    cases below with
    | nil => exact ⟨_, List.mem_cons_self, (List.append_nil _).symm⟩
    | cons index below =>
      obtain ⟨entry, member, same⟩ := exists_mem_entriesAll next place 0 (next + 1) reached
      rw [Nat.zero_add] at same
      exact ⟨entry, List.mem_cons_of_mem _ member, same⟩

theorem exists_mem_entriesAll (parent : Nat) (place : List Nat) (first next : Nat)
    {nodes : List Node} {index : Nat} {below : List Nat} {found : Node}
    (reached : Node.atIn? nodes (index :: below) = some found) :
    ∃ entry ∈ Node.entriesAll parent place first next nodes,
      entry.place = place ++ (first + index) :: below := by
  cases nodes with
  | nil => cases reached
  | cons node nodes =>
    cases index with
    | zero =>
      obtain ⟨entry, member, same⟩ := exists_mem_entries parent (place ++ [first]) next reached
      rw [List.append_assoc] at same
      exact ⟨entry, List.mem_append_left _ member, same⟩
    | succ index =>
      have later : Node.atIn? nodes (index :: below) = some found := reached
      obtain ⟨entry, member, same⟩ := exists_mem_entriesAll parent place (first + 1)
        (next + (node.entries parent (place ++ [first]) next).length) later
      rw [Nat.add_assoc, Nat.add_comm 1] at same
      exact ⟨entry, List.mem_append_right _ member, same⟩

end

/-! ### The order of places -/

theorem append_lt_append {place former latter : List Nat} (less : former < latter) :
    place ++ former < place ++ latter := by
  induction place with
  | nil => exact less
  | cons index place inductionHypothesis =>
    exact List.cons_lt_cons_iff.mpr (.inr ⟨rfl, inductionHypothesis⟩)

mutual

/-- A node stands before the nodes below it, and these stand before its later siblings. -/
theorem increasing_entries (parent : Nat) (place : List Nat) (next : Nat) (node : Node) :
    (node.entries parent place next).Pairwise fun former latter => former.place < latter.place := by
  cases node with
  | leaf content span => exact List.pairwise_singleton _ _
  | block header span children =>
    refine List.pairwise_cons.mpr ⟨fun entry member => ?_, increasing_entriesAll ..⟩
    obtain ⟨index, below, same, -⟩ := atIn?_of_mem_entriesAll entry member
    have less : place ++ [] < place ++ (0 + index) :: below :=
      append_lt_append (List.nil_lt_cons _ _)
    rwa [List.append_nil, ← same] at less

theorem increasing_entriesAll (parent : Nat) (place : List Nat) (first next : Nat)
    (nodes : List Node) :
    (Node.entriesAll parent place first next nodes).Pairwise
      fun former latter => former.place < latter.place := by
  cases nodes with
  | nil => exact .nil
  | cons node nodes =>
    refine List.pairwise_append.mpr ⟨increasing_entries .., increasing_entriesAll .., ?_⟩
    intro former inFormer latter inLatter
    obtain ⟨below, same, -⟩ := at?_of_mem_entries former inFormer
    obtain ⟨index, below', same', -⟩ := atIn?_of_mem_entriesAll latter inLatter
    rw [same, same', List.append_assoc]
    refine append_lt_append (List.cons_lt_cons_iff.mpr (.inl ?_))
    omega

end

/-! ### Parents -/

/-- An earlier entry of the list is the parent of the one at the index. -/
def Owned (list : List Entry) (next index : Nat) (entry : Entry) : Prop :=
  ∃ earlier owner child, earlier < index ∧ list[earlier]? = some owner ∧
    entry.parent = next + earlier ∧ entry.place = owner.place ++ [child] ∧
    owner.node.children[child]? = some entry.node

theorem Owned.ahead {former latter : List Entry} {next index : Nat} {entry : Entry}
    (owned : Owned former next index entry) : Owned (former ++ latter) next index entry := by
  obtain ⟨earlier, owner, child, less, present, others⟩ := owned
  refine ⟨earlier, owner, child, less, ?_, others⟩
  obtain ⟨inside, -⟩ := List.getElem?_eq_some_iff.mp present
  rwa [List.getElem?_append_left inside]

theorem Owned.behind (former : List Entry) {latter : List Entry} {next index : Nat} {entry : Entry}
    (owned : Owned latter (next + former.length) index entry) :
    Owned (former ++ latter) next (former.length + index) entry := by
  obtain ⟨earlier, owner, child, less, present, parent, others⟩ := owned
  refine ⟨former.length + earlier, owner, child, Nat.add_lt_add_left less _, ?_, ?_, others⟩
  · rwa [List.getElem?_append_right (Nat.le_add_right _ _), Nat.add_sub_cancel_left]
  · rw [parent, Nat.add_assoc]

mutual

/-- Every entry but the first one is owned. -/
theorem owned_of_entries {parent : Nat} {place : List Nat} {next : Nat} {node : Node}
    {index : Nat} {entry : Entry}
    (present : (node.entries parent place next)[index]? = some entry) :
    index = 0 ∧ entry = ⟨parent, place, node⟩ ∨
      Owned (node.entries parent place next) next index entry := by
  cases node with
  | leaf content span =>
    cases index with
    | zero => exact .inl ⟨rfl, (Option.some.inj present).symm⟩
    | succ index => cases present
  | block header span children =>
    cases index with
    | zero => exact .inl ⟨rfl, (Option.some.inj present).symm⟩
    | succ index =>
      refine .inr ?_
      rcases owned_of_entriesAll present with ⟨same, child, deeper, childPresent⟩ | owned
      · rw [Nat.zero_add] at deeper
        exact ⟨0, _, child, Nat.succ_pos _, rfl, same, deeper, childPresent⟩
      · have later := owned.behind [⟨parent, place, .block header span children⟩]
        rwa [List.length_singleton, Nat.add_comm 1 index] at later

/-- Every entry is owned, or its node is one of the list. -/
theorem owned_of_entriesAll {parent : Nat} {place : List Nat} {first next : Nat}
    {nodes : List Node} {index : Nat} {entry : Entry}
    (present : (Node.entriesAll parent place first next nodes)[index]? = some entry) :
    (entry.parent = parent ∧ ∃ child, entry.place = place ++ [first + child] ∧
      nodes[child]? = some entry.node) ∨
      Owned (Node.entriesAll parent place first next nodes) next index entry := by
  cases nodes with
  | nil => cases present
  | cons node nodes =>
    have parts : Node.entriesAll parent place first next (node :: nodes) =
      node.entries parent (place ++ [first]) next ++ Node.entriesAll parent place (first + 1)
        (next + (node.entries parent (place ++ [first]) next).length) nodes := rfl
    rw [parts] at present ⊢
    by_cases inside : index < (node.entries parent (place ++ [first]) next).length
    · rw [List.getElem?_append_left inside] at present
      rcases owned_of_entries present with ⟨-, rfl⟩ | owned
      · exact .inl ⟨rfl, 0, rfl, rfl⟩
      · exact .inr owned.ahead
    · obtain ⟨offset, rfl⟩ := Nat.exists_eq_add_of_le (Nat.le_of_not_lt inside)
      rw [List.getElem?_append_right (Nat.le_add_right _ _), Nat.add_sub_cancel_left] at present
      rcases owned_of_entriesAll present with ⟨same, child, deeper, childPresent⟩ | owned
      · rw [Nat.add_assoc, Nat.add_comm 1] at deeper
        exact .inl ⟨same, child + 1, deeper, childPresent⟩
      · exact .inr (owned.behind _)

end

/-! ### Words and numbers -/

theorem index_ofNat {number : Nat} (small : number < 2 ^ 32) :
    (NodeId.ofNat number).index = number :=
  UInt32.toNat_ofNat_of_lt small

theorem ofNat_index (id : NodeId) : NodeId.ofNat id.index = id := by
  rw [NodeId.ofNat, NodeId.index, UInt32.ofNat_toNat]

theorem map_toNat_ofNat {place : List Nat} (small : ∀ index ∈ place, index < 2 ^ 32) :
    (place.map UInt32.ofNat).map UInt32.toNat = place := by
  rw [List.map_map]
  refine (List.map_congr_left fun index member => ?_).trans (List.map_id place)
  exact UInt32.toNat_ofNat_of_lt (small index member)

theorem descend?_eq_at? (node : Node) (path : List UInt32) :
    node.descend? path = node.at? (path.map UInt32.toNat) := by
  induction path generalizing node with
  | nil => rfl
  | cons index path inductionHypothesis =>
    rw [Node.descend?, List.map_cons, Node.at?]
    simp only [inductionHypothesis]

/-! ### The table of a stylesheet -/

namespace Stylesheet

/-- The row stands for the node at the place: it says so, and looking it up leads there. -/
structure Stands (sheet : Stylesheet) (id : NodeId) (place : List Nat) (node : Node) : Prop where
  there : sheet.nodeAt? place = some node
  path : ∃ link, sheet.links.row? id = some link ∧ link.path.map UInt32.toNat = place
  get : sheet.get? id = some (.node node)
  kind : sheet.links.kind? id = some node.kind

/-- The row stands for a node of the top level. -/
def TopLevel (sheet : Stylesheet) (id : NodeId) (place : List Nat) (node : Node) : Prop :=
  ∃ child, place = [child] ∧ sheet.rules[child]? = some node ∧
    sheet.links.parent? id = some .root ∧ sheet.parent? id = some .stylesheet

/-- The row stands for a child of the node that has the other row and place. -/
def ChildOf (sheet : Stylesheet) (id : NodeId) (place : List Nat) (node : Node)
    (owner : NodeId × Node) (outer : List Nat) : Prop :=
  ∃ child, place = outer ++ [child] ∧ owner.2.children[child]? = some node ∧
    sheet.links.parent? id = some owner.1 ∧ sheet.parent? id = some (.node owner.2)

/-- The table of links is a picture of the tree, with a row for each of the places. The places come
in the order of the tree, which is the order of words, and no place is missing. -/
structure Linked (sheet : Stylesheet) (places : List (List Nat)) : Prop where
  size : sheet.links.size = sheet.nodes.length + 1
  length : places.length = sheet.nodes.length
  increasing : places.Pairwise (· < ·)
  complete : ∀ place, place ∈ places ↔ (sheet.nodeAt? place).isSome = true
  stands : ∀ index entry place, sheet.nodes[index]? = some entry → places[index]? = some place →
    entry.1.index = index + 1 ∧ sheet.Stands entry.1 place entry.2
  owned : ∀ index entry place, sheet.nodes[index]? = some entry → places[index]? = some place →
    sheet.TopLevel entry.1 place entry.2 ∨
      ∃ (earlier : Nat) (owner : NodeId × Node) (outer : List Nat), earlier < index ∧
        sheet.nodes[earlier]? = some owner ∧ places[earlier]? = some outer ∧
        sheet.ChildOf entry.1 place entry.2 owner outer
  upward : ∀ id parent, sheet.links.parent? id = some parent → parent.index < id.index
  root : sheet.get? .root = some .stylesheet ∧ sheet.links.kind? .root = some .stylesheet ∧
    sheet.links.parent? .root = none ∧ sheet.parent? .root = none
  beyond : ∀ id : NodeId, sheet.nodes.length < id.index → sheet.get? id = none ∧
    sheet.links.kind? id = none ∧ sheet.links.parent? id = none ∧ sheet.parent? id = none

/-- The entries of all nodes. -/
def entries (sheet : Stylesheet) : List Entry := Node.entriesAll 0 [] 0 1 sheet.rules

variable {sheet : Stylesheet}

theorem rows_ofNodes (nodes : List Node) :
    (Links.ofNodes nodes).rows =
      ⟨none, .stylesheet, []⟩ :: (Node.entriesAll 0 [] 0 1 nodes).map Entry.link := by
  rw [← linksAll_eq]
  rfl

theorem length_entries (sheet : Stylesheet) : sheet.entries.length = sheet.nodes.length := by
  have nodes := congrArg List.length (map_node_entriesAll 0 [] 0 1 sheet.rules)
  rw [List.length_map] at nodes
  rw [entries, nodes, Stylesheet.nodes, List.length_mapIdx]

/-- The node at an index of the list of nodes is the one of the entry there. -/
theorem getElem?_nodes (sheet : Stylesheet) (index : Nat) :
    sheet.nodes[index]? =
      sheet.entries[index]?.map fun entry => (.ofNat (index + 1), entry.node) := by
  rw [Stylesheet.nodes, List.getElem?_mapIdx, ← map_node_entriesAll 0 [] 0 1, List.getElem?_map,
    Option.map_map]
  rfl

theorem descend?_eq (sheet : Stylesheet) (path : List UInt32) :
    sheet.descend? path = sheet.nodeAt? (path.map UInt32.toNat) := by
  cases path with
  | nil => rfl
  | cons index path =>
    rw [descend?, nodeAt?, List.map_cons, Node.atIn?]
    simp only [descend?_eq_at?]

/-! ### Rows and entries -/

theorem index_of_entry (few : sheet.nodes.length < 2 ^ 32 - 1) {index : Nat} {entry : Entry}
    (present : sheet.entries[index]? = some entry) :
    (NodeId.ofNat (index + 1)).index = index + 1 := by
  obtain ⟨inside, -⟩ := List.getElem?_eq_some_iff.mp present
  rw [length_entries] at inside
  exact index_ofNat (by omega)

section

variable (table : sheet.links = .ofNodes sheet.rules) (few : sheet.nodes.length < 2 ^ 32 - 1)
include table

theorem size_eq : sheet.links.size = sheet.nodes.length + 1 := by
  rw [table, Links.size, rows_ofNodes, List.length_cons, List.length_map, ← length_entries]
  rfl

theorem row?_of_index {id : NodeId} {index : Nat} (number : id.index = index + 1) :
    sheet.links.row? id = sheet.entries[index]?.map Entry.link := by
  rw [Links.row?, table, rows_ofNodes, number, List.getElem?_cons_succ, List.getElem?_map]
  rfl

theorem row?_root : sheet.links.row? .root = some ⟨none, .stylesheet, []⟩ := by
  rw [Links.row?, table, rows_ofNodes]
  rfl

theorem none_beyond {id : NodeId} (beyond : sheet.nodes.length < id.index) :
    sheet.links.row? id = none := by
  obtain ⟨index, number⟩ := Nat.exists_eq_succ_of_ne_zero (Nat.ne_of_gt (Nat.zero_lt_of_lt beyond))
  rw [row?_of_index table number, List.getElem?_eq_none, Option.map_none]
  rw [length_entries]
  omega

include few

theorem row?_of_entry {index : Nat} {entry : Entry} (present : sheet.entries[index]? = some entry) :
    sheet.links.row? (.ofNat (index + 1)) = some entry.link := by
  rw [row?_of_index table (index_of_entry few present), present]
  rfl

theorem stands_of_entry {index : Nat} {entry : Entry}
    (present : sheet.entries[index]? = some entry) :
    sheet.Stands (.ofNat (index + 1)) entry.place entry.node := by
  have number := index_of_entry few present
  have row := row?_of_entry table few present
  have there : sheet.nodeAt? entry.place = some entry.node := by
    obtain ⟨child, below, same, reached⟩ :=
      atIn?_of_mem_entriesAll entry (List.mem_of_getElem? present)
    rw [Nat.zero_add, List.nil_append] at same
    rwa [same]
  have small : ∀ step ∈ entry.place, step < 2 ^ 32 := by
    intro step member
    have bound := lt_of_atIn? there step member
    rw [← map_node_entriesAll 0 [] 0 1, List.length_map] at bound
    have length := length_entries sheet
    rw [entries] at length
    omega
  have path : entry.link.path.map UInt32.toNat = entry.place := map_toNat_ofNat small
  refine ⟨there, ⟨entry.link, row, path⟩, ?_, ?_⟩
  · have other : NodeId.ofNat (index + 1) ≠ .root := by
      intro same
      rw [same] at number
      cases number
    rw [get?, if_neg other, row, Option.bind_some, descend?_eq, path, there]
    rfl
  · rw [Links.kind?, row]
    rfl

theorem parent?_of_entry {index : Nat} {entry : Entry}
    (present : sheet.entries[index]? = some entry) :
    sheet.links.parent? (.ofNat (index + 1)) = some (.ofNat entry.parent) := by
  rw [Links.parent?, row?_of_entry table few present]
  rfl

theorem topLevel_or_childOf {index : Nat} {entry : Entry}
    (present : sheet.entries[index]? = some entry) :
    sheet.TopLevel (.ofNat (index + 1)) entry.place entry.node ∨
      ∃ earlier owner, earlier < index ∧ sheet.entries[earlier]? = some owner ∧
        sheet.ChildOf (.ofNat (index + 1)) entry.place entry.node
          (.ofNat (earlier + 1), owner.node) owner.place := by
  have parent := parent?_of_entry table few present
  rcases owned_of_entriesAll present with ⟨same, child, place, listed⟩ |
    ⟨earlier, owner, child, less, ownerPresent, same, place, listed⟩
  · rw [same] at parent
    rw [Nat.zero_add, List.nil_append] at place
    refine .inl ⟨child, place, listed, parent, ?_⟩
    rw [parent?, parent]
    rfl
  · rw [same, Nat.add_comm 1 earlier] at parent
    refine .inr ⟨earlier, owner, less, ownerPresent, child, place, listed, parent, ?_⟩
    rw [parent?, parent]
    exact (stands_of_entry table few ownerPresent).get

theorem parent_lt {id parent : NodeId} (linked : sheet.links.parent? id = some parent) :
    parent.index < id.index := by
  cases number : id.index with
  | zero =>
    have same : id = .root := by rw [← ofNat_index id, number]; rfl
    rw [same, Links.parent?, row?_root table] at linked
    cases linked
  | succ index =>
    rw [Links.parent?, row?_of_index table number] at linked
    cases present : sheet.entries[index]? with
    | none =>
      rw [present] at linked
      cases linked
    | some entry =>
      rw [present] at linked
      obtain rfl := Option.some.inj linked
      have fits := index_of_entry few present
      rcases owned_of_entriesAll present with ⟨same, -⟩ | ⟨earlier, owner, -, less, there, same, -⟩
      · rw [same]
        exact Nat.succ_pos _
      · have small := index_of_entry few there
        rw [same, Nat.add_comm 1 earlier, small]
        exact Nat.succ_lt_succ less

/-- A table that was made now is a picture of the tree. -/
theorem linked_of_table : sheet.Linked (sheet.entries.map Entry.place) where
  size := size_eq table
  length := by rw [List.length_map, length_entries]
  increasing := List.pairwise_map.mpr (increasing_entriesAll ..)
  complete place := by
    rw [Option.isSome_iff_exists, List.mem_map]
    constructor
    · rintro ⟨entry, member, rfl⟩
      obtain ⟨index, present⟩ := List.mem_iff_getElem?.mp member
      exact ⟨entry.node, (stands_of_entry table few present).there⟩
    · rintro ⟨node, reached⟩
      cases place with
      | nil => cases reached
      | cons child below =>
        obtain ⟨entry, member, same⟩ := exists_mem_entriesAll 0 [] 0 1 reached
        rw [Nat.zero_add, List.nil_append] at same
        exact ⟨entry, member, same⟩
  stands := by
    intro index node place listed placed
    rw [getElem?_nodes, Option.map_eq_some_iff] at listed
    obtain ⟨entry, present, rfl⟩ := listed
    rw [List.getElem?_map, present] at placed
    obtain rfl := Option.some.inj placed
    exact ⟨index_of_entry few present, stands_of_entry table few present⟩
  owned := by
    intro index node place listed placed
    rw [getElem?_nodes, Option.map_eq_some_iff] at listed
    obtain ⟨entry, present, rfl⟩ := listed
    rw [List.getElem?_map, present] at placed
    obtain rfl := Option.some.inj placed
    rcases topLevel_or_childOf table few present with top | ⟨earlier, owner, less, there, child⟩
    · exact .inl top
    · refine .inr ⟨earlier, _, owner.place, less, ?_, ?_, child⟩
      · rw [getElem?_nodes, there]
        rfl
      · rw [List.getElem?_map, there]
        rfl
  upward id parent := parent_lt table few
  root := by
    have row := row?_root table
    have noParent : sheet.links.parent? .root = none := by
      rw [Links.parent?, row]
      rfl
    refine ⟨if_pos rfl, ?_, noParent, ?_⟩
    · rw [Links.kind?, row]
      rfl
    · rw [parent?, noParent]
      rfl
  beyond id late := by
    have row := none_beyond table late
    have noParent : sheet.links.parent? id = none := by
      rw [Links.parent?, row]
      rfl
    have other : id ≠ .root := by
      rintro rfl
      exact absurd late (Nat.not_lt_zero _)
    refine ⟨?_, ?_, noParent, ?_⟩
    · rw [get?, if_neg other, row]
      rfl
    · rw [Links.kind?, row]
      rfl
    · rw [parent?, noParent]
      rfl

end

/-- The table of a new stylesheet and a table that is made again are pictures of the tree, unless
there are too many nodes to number. -/
theorem linked_of_few_nodes (sheet : Stylesheet) (few : sheet.nodes.length < 2 ^ 32 - 1) :
    ∃ places, sheet.relink.Linked places ∧
      (ofRules sheet.source sheet.rules sheet.faults).Linked places := by
  have again : sheet.relink.Linked (sheet.entries.map Entry.place) := linked_of_table rfl few
  exact ⟨sheet.entries.map Entry.place, again, again⟩

end Stylesheet

/-- Two rules that are equal, spans and children included, and a table of links made for no rule. -/
def twinSheet : Stylesheet :=
  let comment := Node.leaf (.comment "b") ⟨⟨1, 3⟩, ⟨1, 8⟩, none⟩
  let rule := Node.block (.rule ["a"]) ⟨⟨1, 1⟩, ⟨1, 9⟩, none⟩ [comment, comment]
  { Stylesheet.empty with rules := [rule, rule] }

theorem linked_twinSheet :
    twinSheet.nodes.length < 2 ^ 32 - 1 ∧
      ∃ places, twinSheet.relink.Linked places ∧
        (Stylesheet.ofRules twinSheet.source twinSheet.rules twinSheet.faults).Linked places :=
  have few : twinSheet.nodes.length < 2 ^ 32 - 1 := by decide
  ⟨few, twinSheet.linked_of_few_nodes few⟩

end CssSyntax
