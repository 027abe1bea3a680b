/-
This file changes the nodes of a stylesheet.

A change names a child list by the indices that lead to its node, the empty path being the top
level, and then a place in that list. The list is looked for first: a path that leaves the tree or
runs into a node without a child list is refused before the place in the list is looked at. A change
touches neither the faults nor the table of links.
-/

import CssSyntax.Tree.Stylesheet

namespace CssSyntax

/-! ### Changes of one list -/

/-- Why a change is refused. -/
inductive EditError where
  /-- The path leads to no child list. -/
  | noList
  /-- The list has no such place. -/
  | badIndex
  deriving DecidableEq

/-- A change of a list of nodes, with an answer. -/
abbrev Edit (α : Type) := List Node → Except EditError (α × List Node)

namespace Edit

/-- Puts the nodes before the one at the index, or behind the last one. Answers their number. -/
def insert (index : Nat) (added : List Node) : Edit Nat := fun nodes =>
  if index ≤ nodes.length then
    .ok (added.length, nodes.take index ++ added ++ nodes.drop index)
  else .error .badIndex

/-- Takes the node at the index out. Answers it. -/
def remove (index : Nat) : Edit Node := fun nodes =>
  match nodes[index]? with
  | some node => .ok (node, nodes.eraseIdx index)
  | none => .error .badIndex

/-- Puts two nodes each in the place of the other. -/
def swap (first second : Nat) : Edit Unit := fun nodes =>
  match nodes[first]?, nodes[second]? with
  | some node, some other => .ok ((), (nodes.set first other).set second node)
  | _, _ => .error .badIndex

/-- Takes all nodes out. -/
def clear : Edit Unit := fun _ => .ok ((), [])

/-! ### Changes in a tree -/

variable {α : Type}

/-- Makes the change in the child list that the path leads to. -/
def under (edit : Edit α) : List Nat → Edit α
  | [], nodes => edit nodes
  | index :: path, nodes =>
    match nodes[index]? with
    | some (.block header span children) => do
      let (answer, changed) ← under edit path children
      return (answer, nodes.set index (.block header span changed))
    | _ => .error .noList

end Edit

/-- Makes the change in the child list that the path leads to. -/
def Stylesheet.edit {α : Type} (sheet : Stylesheet) (path : List Nat) (edit : Edit α) :
    Except EditError (α × Stylesheet) := do
  let (answer, rules) ← edit.under path sheet.rules
  return (answer, { sheet with rules })

end CssSyntax
