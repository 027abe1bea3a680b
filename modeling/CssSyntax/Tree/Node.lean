/-
This file holds the nodes of the syntax tree.

A node is a leaf, which is text and no more, or a block, which is a header in front of a list of
child nodes. Which of the two a node is depends on its kind alone, and every node carries the span
that it was read from.
-/

import CssSyntax.Location
import CssSyntax.Tree.Kind

namespace CssSyntax

/-! ### Leaves and headers -/

/-- What a node without a child list says. -/
inductive Leaf where
  /-- A property and its value. The value is empty when nothing follows the colon. -/
  | declaration (property value : String)
  /-- The text between the delimiters of a comment. -/
  | comment (body : String)
  | importRule (target : String)
  | charset (encoding : String)
  | namespaceRule (binding : String)
  | customMedia (name query : String)
  deriving DecidableEq

/-- What stands in front of the child list of a node. -/
inductive Header where
  | rule (selectors : List String)
  | keyframes (vendor : Option String) (name : String)
  | keyframe (offsets : List String)
  | media (query : String)
  | supports (condition : String)
  | host
  | document (vendor : Option String) (address : String)
  /-- The selectors of a page, such as `:first`; there may be none. -/
  | page (selectors : List String)
  | fontFace
  deriving DecidableEq

/-- The kind of a leaf. -/
def Leaf.kind : Leaf → Kind
  | .declaration .. => .declaration
  | .comment .. => .comment
  | .importRule .. => .atRule .importRule
  | .charset .. => .atRule .charset
  | .namespaceRule .. => .atRule .namespaceRule
  | .customMedia .. => .atRule .customMedia

/-- The kind of a block with this header. -/
def Header.kind : Header → Kind
  | .rule .. => .rule
  | .keyframes .. => .atRule .keyframes
  | .keyframe .. => .keyframe
  | .media .. => .atRule .media
  | .supports .. => .atRule .supports
  | .host => .atRule .host
  | .document .. => .atRule .document
  | .page .. => .atRule .page
  | .fontFace => .atRule .fontFace

/-! ### Nodes -/

/-- A node of the syntax tree, with the span that it was read from. -/
inductive Node where
  | leaf (content : Leaf) (span : Span)
  | block (header : Header) (span : Span) (children : List Node)

namespace Node

/-- The kind of a node. -/
def kind : Node → Kind
  | .leaf content _ => content.kind
  | .block header _ _ => header.kind

/-- The range of text that the node was read from. -/
def span : Node → Span
  | .leaf _ span => span
  | .block _ span _ => span

/-- The child nodes in the order of the text. A leaf has none. -/
def children : Node → List Node
  | .leaf _ _ => []
  | .block _ _ children => children

/-- Whether the node is a declaration. -/
def isDeclaration (node : Node) : Bool :=
  node.kind = .declaration

/-- The number of child nodes that are declarations. -/
def declarationCount (node : Node) : Nat :=
  node.children.countP isDeclaration

/-! ### Equality -/

mutual

/-- Decides equality of two nodes, their spans and children included. -/
protected def decEq : (first second : Node) → Decidable (first = second)
  | .leaf content span, .leaf content' span' =>
    if same : content = content' ∧ span = span' then
      isTrue (by rw [same.1, same.2])
    else isFalse fun equal => same (by injection equal with contents spans; exact ⟨contents, spans⟩)
  | .leaf .., .block .. => isFalse nofun
  | .block .., .leaf .. => isFalse nofun
  | .block header span children, .block header' span' children' =>
    if same : header = header' ∧ span = span' then
      match Node.decEqList children children' with
      | isTrue equal => isTrue (by rw [same.1, same.2, equal])
      | isFalse differ =>
        isFalse fun equal => differ (by injection equal)
    else isFalse fun equal => same (by
      injection equal with headers spans; exact ⟨headers, spans⟩)

/-- Decides equality of two lists of nodes. -/
protected def decEqList : (first second : List Node) → Decidable (first = second)
  | [], [] => isTrue rfl
  | [], _ :: _ => isFalse nofun
  | _ :: _, [] => isFalse nofun
  | node :: nodes, node' :: nodes' =>
    match Node.decEq node node' with
    | isFalse differ => isFalse fun equal => differ (by injection equal)
    | isTrue same =>
      match Node.decEqList nodes nodes' with
      | isTrue equal => isTrue (by rw [same, equal])
      | isFalse differ => isFalse fun equal => differ (by injection equal)

end

instance : DecidableEq Node := Node.decEq

end Node

end CssSyntax
