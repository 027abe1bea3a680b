/-
This file says how a syntax tree is written out.

A tree is a stylesheet's nodes without their spans. Every leaf and every opening has one canonical
text, in which nothing is optional; blanks may stand around nodes and nowhere else. Not every tree
can be written: a text that would end its construct early, or that would be read as something else,
has no place in it. The conditions below are those, construct by construct.
-/

import CssSyntax.Proofs.Forms

namespace CssSyntax

/-! ### Trees -/

/-- A node without its span. -/
inductive Tree where
  | leaf (content : Leaf)
  | block (header : Header) (children : List Tree)

/-- The kind of a tree. -/
def Tree.kind : Tree → Kind
  | .leaf content => content.kind
  | .block header _ => header.kind

mutual

/-- The node without its span and the spans below it. -/
def Node.tree : Node → Tree
  | .leaf content _ => .leaf content
  | .block header _ children => .block header (Node.trees children)

/-- The nodes without their spans and the spans below them. -/
def Node.trees : List Node → List Tree
  | [] => []
  | node :: nodes => node.tree :: Node.trees nodes

end

/-- The three kinds of lists that a node may stand in. -/
inductive Room where
  | rules
  | keyframes
  | declarations
  deriving DecidableEq

namespace Room

/-- Whether a node of the kind may stand in the list. -/
def admits : Room → Kind → Bool
  | _, .comment => true
  | .declarations, .declaration => true
  | .keyframes, .keyframe => true
  | .rules, .rule | .rules, .atRule _ => true
  | _, _ => false

end Room

/-- The kind of list that a block with this header has. -/
def Header.room : Header → Room
  | .rule _ | .keyframe _ | .page _ | .fontFace => .declarations
  | .keyframes .. => .keyframes
  | .media _ | .supports _ | .host | .document .. => .rules

/-! ### Canonical texts -/

/-- The pieces with commas between them. -/
def joined : List (List Char) → List Char
  | [] => []
  | [last] => last
  | first :: rest => first ++ ',' :: joined rest

/-- The strings with commas between them. -/
def listed (words : List String) : List Char := joined (words.map String.toList)

/-- The text of a leaf. -/
def Leaf.canonical : Leaf → List Char
  | .declaration property value => property.toList ++ ':' :: value.toList ++ [';']
  | .comment body => commentOpener ++ body.toList ++ commentCloser
  | .importRule target => AtKeyword.importRule.written ++ ' ' :: target.toList ++ [';']
  | .charset encoding => AtKeyword.charset.written ++ ' ' :: encoding.toList ++ [';']
  | .namespaceRule binding => AtKeyword.namespaceRule.written ++ ' ' :: binding.toList ++ [';']
  | .customMedia name query =>
    AtKeyword.customMedia.written ++ ' ' :: name.toList ++ ' ' :: query.toList ++ [';']

/-- The text of a block in front of its brace. -/
def Header.canonical : Header → List Char
  | .rule selectors => listed selectors
  | .keyframes vendor name => AtKeyword.keyframes.vendored vendor ++ ' ' :: name.toList
  | .keyframe offsets => listed offsets
  | .media query => AtKeyword.media.written ++ ' ' :: query.toList
  | .supports condition => AtKeyword.supports.written ++ ' ' :: condition.toList
  | .host => AtKeyword.host.written
  | .document vendor address => AtKeyword.document.vendored vendor ++ ' ' :: address.toList
  | .page selectors => AtKeyword.page.written ++ ' ' :: listed selectors
  | .fontFace => AtKeyword.fontFace.written

/-! ### Texts that can be written -/

/-- No blank is first or last. -/
def Trimmed (text : List Char) : Prop :=
  (∀ first ∈ text.head?, isBlank first = false) ∧ ∀ last ∈ text.getLast?, isBlank last = false

/-- There is no complete comment in the text. -/
def Uncommented (text : List Char) : Prop :=
  ∀ before body after, text ≠ before ++ commentOpener ++ body ++ commentCloser ++ after

/-- The text between two quotes. A quote of the same kind stands in it only behind a backslash, and
no backslash stands before the closing quote. -/
inductive QuotedBody (quote : Char) : List Char → Prop where
  | nil : QuotedBody quote []
  | plain {character : Char} {rest : List Char} (other : character ≠ quote)
      (unescaped : character ≠ '\\') (others : QuotedBody quote rest) :
      QuotedBody quote (character :: rest)
  | escaped {rest : List Char} (others : QuotedBody quote rest) :
      QuotedBody quote ('\\' :: quote :: rest)
  | backslash {character : Char} {rest : List Char} (other : character ≠ quote)
      (others : QuotedBody quote (character :: rest)) :
      QuotedBody quote ('\\' :: character :: rest)

/-- A value in which every string and every group is closed and nothing that ends a value stands
bare. -/
inductive ClosedValue : List Char → Prop where
  | nil : ClosedValue []
  | string {quote : Char} {body rest : List Char} (mark : quote = '"' ∨ quote = '\'')
      (line : ∀ character ∈ body, isLineBreak character = false) (quoted : QuotedBody quote body)
      (others : ClosedValue rest) : ClosedValue (quote :: body ++ quote :: rest)
  | group {inner rest : List Char} (closed : ')' ∉ inner) (others : ClosedValue rest) :
      ClosedValue ('(' :: inner ++ ')' :: rest)
  | plain {character : Char} {rest : List Char}
      (bare : character ∉ ['}', ';', '(', '"', '\'']) (others : ClosedValue rest) :
      ClosedValue (character :: rest)

/-- A selector in which every string is closed and every comma outside strings is in a group. -/
inductive ClosedSelector : List Char → Prop where
  | nil : ClosedSelector []
  | string {quote : Char} {body rest : List Char} (mark : quote = '"' ∨ quote = '\'')
      (quoted : QuotedBody quote body) (others : ClosedSelector rest) :
      ClosedSelector (quote :: body ++ quote :: rest)
  | comma {rest : List Char} (inside : insideGroup rest = true) (others : ClosedSelector rest) :
      ClosedSelector (',' :: rest)
  | plain {character : Char} {rest : List Char} (bare : character ∉ ['"', '\'', ','])
      (others : ClosedSelector rest) : ClosedSelector (character :: rest)

/-- A selector that stays whole in a list of selectors. The stand-in for a comma is no part of it,
and its first parenthesis opens a group. -/
structure IsSelector (text : List Char) : Prop where
  trimmed : Trimmed text
  closed : ClosedSelector text
  brace : '{' ∉ text
  standIn : commaStandIn ∉ text
  outside : insideGroup text = false

/-- Selectors that can be written with commas between them. -/
structure IsSelectorList (selectors : List String) : Prop where
  each : ∀ selector ∈ selectors, IsSelector selector.toList
  uncommented : Uncommented (listed selectors)
  nonempty : listed selectors ≠ []

/-! ### At-rules that claim a word -/

/-- Whether a vendor may stand in front of the keyword. -/
def AtKeyword.takesVendor : AtKeyword → Bool
  | .keyframes | .document => true
  | _ => false

/-- Whether the at-rule is tried with success on an at-sign and the word. A keyword that may have a
vendor is found anywhere in the word. -/
def AtKeyword.Claims (name : AtKeyword) (word : List Char) : Prop :=
  if name.takesVendor then name.text.toList <:+: word else name.text.toList <+: word

instance (name : AtKeyword) (word : List Char) : Decidable (name.Claims word) :=
  inferInstanceAs (Decidable (if name.takesVendor then _ else _))

/-- No at-rule is tried with success on the text. -/
def Unclaimed (text : List Char) : Prop :=
  ∀ word, text = '@' :: word → ∀ name : AtKeyword,
    ¬ name.Claims (word.takeWhile Grammar.isIdentifierChar)

/-- The at-rules that are tried earlier. -/
def AtKeyword.earlier (name : AtKeyword) : List AtKeyword :=
  AtKeyword.table.takeWhile fun other => other ≠ name

/-! ### Trees that can be written -/

/-- Payloads are trimmed and hold no semicolon. -/
def IsPayload (text : String) : Prop := Trimmed text.toList ∧ ';' ∉ text.toList

/-- Conditions are trimmed and hold no opening brace. -/
def IsCondition (text : String) : Prop := Trimmed text.toList ∧ '{' ∉ text.toList

/-- The leaf can be written. -/
def Leaf.Writable : Leaf → Prop
  | .declaration property value =>
    IsProperty property.toList ∧ ¬ commentOpener <+: property.toList ∧
      Uncommented property.toList ∧ Trimmed value.toList ∧ ClosedValue value.toList ∧
      Uncommented value.toList
  | .comment body => ¬ commentCloser <:+: body.toList
  | .importRule payload | .charset payload | .namespaceRule payload => IsPayload payload
  | .customMedia name query =>
    ['-', '-'] <+: name.toList ∧ 3 ≤ name.length ∧
      (∀ character ∈ name.toList, isBlank character = false) ∧ IsPayload query ∧
      '{' ∉ query.toList

/-- The opening of a block with this header can be written. -/
def Header.Writable : Header → Prop
  | .rule selectors =>
    IsSelectorList selectors ∧ ¬ commentOpener <+: listed selectors ∧
      ¬ ['}'] <+: listed selectors ∧ Unclaimed (listed selectors)
  | .keyframes vendor name => IsVendor vendor ∧ IsIdentifier name.toList
  | .keyframe offsets => offsets ≠ [] ∧ ∀ offset ∈ offsets, IsOffset offset.toList
  | .media condition | .supports condition => IsCondition condition
  | .host | .fontFace => True
  | .document vendor address =>
    IsVendor vendor ∧ IsCondition address ∧ ∀ name ∈ AtKeyword.document.earlier,
      ¬ name.Claims ((vendor.getD "").toList ++ AtKeyword.document.text.toList)
  | .page selectors => selectors = [] ∨ IsSelectorList selectors

mutual

/-- The tree is written as this text. -/
inductive Tree.Written : Tree → List Char → Prop where
  | leaf {content : Leaf} (writable : content.Writable) : Written (.leaf content) content.canonical
  | block {header : Header} {children : List Tree} {inside : List Char}
      (writable : header.Writable)
      (admitted : ∀ child ∈ children, header.room.admits child.kind = true)
      (body : AllWritten children inside) :
      Written (.block header children) (header.canonical ++ '{' :: inside ++ ['}'])

/-- The trees are written as this text, with blanks around each of them. -/
inductive Tree.AllWritten : List Tree → List Char → Prop where
  | nil {gap : List Char} (blank : AllBlank gap) : AllWritten [] gap
  | cons {tree : Tree} {trees : List Tree} {gap text rest : List Char} (blank : AllBlank gap)
      (head : Written tree text) (tail : AllWritten trees rest) :
      AllWritten (tree :: trees) (gap ++ text ++ rest)

end

end CssSyntax
