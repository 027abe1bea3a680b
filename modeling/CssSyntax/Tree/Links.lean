/-
This file numbers the nodes of a tree and links each of them to the node that encloses it.

Nodes do not point at their parents. A table beside the tree has one row for every node in
pre-order, after a first row for the tree as a whole. A row says which row encloses it, of what kind
its node is and along which child indices the node is reached. The table is a picture of the tree at
one moment: it does not follow later changes.

Row numbers and child indices are 32-bit words, so a tree must have fewer than `2 ^ 32 - 1` nodes for
its rows to be told apart.
-/

import CssSyntax.Tree.Node

namespace CssSyntax

/-! ### Rows -/

/-- The number of a row of the table. -/
structure NodeId where
  number : UInt32
  deriving DecidableEq

namespace NodeId

/-- The row of the tree as a whole. -/
def root : NodeId := ⟨0⟩

/-- The row with so many rows before it. -/
def ofNat (index : Nat) : NodeId := ⟨UInt32.ofNat index⟩

/-- The number of rows before it. -/
def index (id : NodeId) : Nat := id.number.toNat

end NodeId

/-- One row of the table. -/
structure Link where
  /-- The row of the enclosing node. The row of the tree as a whole has none. -/
  parent : Option NodeId
  kind : Kind
  /-- The child indices that lead to the node. -/
  path : List UInt32
  deriving DecidableEq

/-! ### Nodes in pre-order -/

namespace Node

mutual

/-- The node, and then the nodes below it. -/
def preorder : Node → List Node
  | .leaf content span => [.leaf content span]
  | .block header span children => .block header span children :: preorderAll children

/-- The nodes of a list, each with the nodes below it. -/
def preorderAll : List Node → List Node
  | [] => []
  | node :: nodes => preorder node ++ preorderAll nodes

end

mutual

/-- The rows of the node at the path and of the nodes below it, numbered from `next`. -/
def links (parent : NodeId) (path : List UInt32) (next : Nat) : Node → List Link
  | .leaf content _ => [⟨some parent, content.kind, path⟩]
  | .block header _ children =>
    ⟨some parent, header.kind, path⟩ :: linksAll (.ofNat next) path 0 (next + 1) children

/-- The rows of the children of one node, the first of which has the given index, and of the nodes
below them, numbered from `next`. -/
def linksAll (parent : NodeId) (path : List UInt32) (index next : Nat) : List Node → List Link
  | [] => []
  | node :: nodes =>
    let rows := links parent (path ++ [UInt32.ofNat index]) next node
    rows ++ linksAll parent path (index + 1) (next + rows.length) nodes

end

/-- The node that a path of child indices leads to. -/
def descend? (node : Node) : List UInt32 → Option Node
  | [] => some node
  | index :: path => node.children[index.toNat]?.bind fun child => child.descend? path

end Node

/-! ### The table -/

/-- The table that links nodes to the nodes that enclose them. -/
structure Links where
  rows : List Link
  deriving DecidableEq

namespace Links

/-- The table of a tree with these nodes at its top level. -/
def ofNodes (nodes : List Node) : Links :=
  ⟨⟨none, .stylesheet, []⟩ :: Node.linksAll .root [] 0 1 nodes⟩

/-- The number of rows, the row of the tree as a whole counted. -/
def size (links : Links) : Nat := links.rows.length

/-- The row with this number. -/
def row? (links : Links) (id : NodeId) : Option Link := links.rows[id.index]?

/-- The row that encloses this one. There is none for the tree as a whole and for an unknown row. -/
def parent? (links : Links) (id : NodeId) : Option NodeId := (links.row? id).bind Link.parent

/-- The kind of the node of this row. -/
def kind? (links : Links) (id : NodeId) : Option Kind := (links.row? id).map Link.kind

end Links

end CssSyntax
