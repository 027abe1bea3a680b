/-
This file holds the stylesheet, which is the result of a parse.

A stylesheet owns its nodes, the faults that were noted while they were read, and the table that
links nodes to their parents. The table is made when the stylesheet is and again on request. Nodes
are looked up along the path that the table remembers, through the nodes as they are now, so after a
change of the nodes a number may lead to another node or to none until the table is made again.
-/

import CssSyntax.Fault
import CssSyntax.Tree.Links

namespace CssSyntax

/-- The nodes of one source, with the faults that were noted in it. -/
structure Stylesheet where
  source : Option String
  /-- The top-level rules, at-rules and comments in the order of the text. -/
  rules : List Node
  /-- The faults in the order in which they came to light. A strict parse leaves none. -/
  faults : List Fault
  links : Links
  deriving DecidableEq

/-- What a row of the table stands for. -/
inductive Place where
  /-- The stylesheet as a whole. -/
  | stylesheet
  | node (node : Node)

namespace Stylesheet

/-- The stylesheet with these nodes, linked. -/
def ofRules (source : Option String) (rules : List Node) (faults : List Fault) : Stylesheet :=
  ⟨source, rules, faults, .ofNodes rules⟩

/-- The stylesheet without nodes and without a source. -/
def empty : Stylesheet := ofRules none [] []

/-- Makes the table of links again. -/
def relink (sheet : Stylesheet) : Stylesheet :=
  { sheet with links := .ofNodes sheet.rules }

/-- Whether the table of links differs from one that is made now. -/
def isStale (sheet : Stylesheet) : Bool :=
  sheet.links ≠ .ofNodes sheet.rules

/-- All nodes in pre-order, each with the number that a table made now gives it. -/
def nodes (sheet : Stylesheet) : List (NodeId × Node) :=
  (Node.preorderAll sheet.rules).mapIdx fun index node => (.ofNat (index + 1), node)

/-- The top-level node, or the node below one, that a path of child indices leads to. -/
def descend? (sheet : Stylesheet) : List UInt32 → Option Node
  | [] => none
  | index :: path => sheet.rules[index.toNat]?.bind fun node => node.descend? path

/-- What the row with this number stands for. -/
def get? (sheet : Stylesheet) (id : NodeId) : Option Place :=
  if id = .root then some .stylesheet
  else ((sheet.links.row? id).bind fun link => sheet.descend? link.path).map .node

/-- What encloses the node of the row with this number. -/
def parent? (sheet : Stylesheet) (id : NodeId) : Option Place :=
  (sheet.links.parent? id).bind sheet.get?

end Stylesheet

end CssSyntax
