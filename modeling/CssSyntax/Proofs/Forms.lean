/-
This file says how every kind of node is written.

The forms speak of texts only. No pattern and no parser occurs in them, so they can be held against
the text that a span points at without a word about how the node was found there. A leaf has the
form of its whole text, a block the form of its opening, which is everything in front of the brace.
What a node keeps of its text is said by three functions: the text is trimmed, freed of its comments
or split into selectors.
-/

import CssSyntax.Grammar.Opening
import CssSyntax.Proofs.Matching
import CssSyntax.Tree.Stylesheet

namespace CssSyntax

open Grammar (trimmed isIdentifierChar isPropertyChar isAttributeChar)

/-! ### Behind an at-sign -/

namespace AtKeyword

/-- The at-sign and the keyword. -/
def written (name : AtKeyword) : List Char := '@' :: name.text.toList

/-- The at-sign and the keyword, with the vendor between them if there is one. -/
def vendored (name : AtKeyword) (vendor : Option String) : List Char :=
  '@' :: (vendor.getD "").toList ++ name.text.toList

/-- The keyword, some text and a semicolon. -/
def Payload (name : AtKeyword) (payload : String) (text : List Char) : Prop :=
  ∃ inner, text = name.written ++ inner ++ [';'] ∧ inner ≠ [] ∧ ';' ∉ inner ∧
    payload = trimmed inner

/-- The keyword and some text in front of a brace. -/
def Condition (name : AtKeyword) (condition : String) (opening : List Char) : Prop :=
  ∃ inner, opening = name.written ++ inner ∧ inner ≠ [] ∧ '{' ∉ inner ∧ condition = trimmed inner

/-- The keyword and blanks. -/
def Bare (name : AtKeyword) (opening : List Char) : Prop :=
  ∃ gap, opening = name.written ++ gap ∧ AllBlank gap

end AtKeyword

/-- The text is an identifier. -/
def IsIdentifier (text : List Char) : Prop :=
  text ≠ [] ∧ ∀ character ∈ text, isIdentifierChar character = true

/-- A vendor is an identifier where there is one. -/
def IsVendor (vendor : Option String) : Prop :=
  ∀ prefixed, vendor = some prefixed → IsIdentifier prefixed.toList

/-! ### Properties and values of declarations -/

/-- The attribute in square brackets that may follow the name of a property. -/
def IsAttribute (text : List Char) : Prop :=
  ∃ inner, text = '[' :: inner ++ [']'] ∧ inner ≠ [] ∧
    ∀ character ∈ inner, isAttributeChar character = true

/-- The name of a property. A star may come first, but it is no name alone. -/
def IsProperty (text : List Char) : Prop :=
  ∃ name bracket, text = name ++ bracket ∧ name ≠ [] ∧ name ≠ ['*'] ∧
    (∀ character ∈ name, isPropertyChar character = true) ∧
    (bracket = [] ∨ IsAttribute bracket)

/-- A text in which no semicolon and no closing brace stands bare: each of them is in a quoted
string that ends on its line or in a group in parentheses. -/
inductive ValueText : List Char → Prop where
  | nil : ValueText []
  | string {quote : Char} {body rest : List Char} (mark : quote = '"' ∨ quote = '\'')
      (line : ∀ character ∈ body, isLineBreak character = false) (others : ValueText rest) :
      ValueText (quote :: body ++ quote :: rest)
  | group {inner rest : List Char} (closed : ')' ∉ inner) (others : ValueText rest) :
      ValueText ('(' :: inner ++ ')' :: rest)
  | plain {character : Char} {rest : List Char} (brace : character ≠ '}')
      (semicolon : character ≠ ';') (others : ValueText rest) : ValueText (character :: rest)

/-! ### Offsets of keyframes -/

/-- One digit or more. -/
def IsDigits (text : List Char) : Prop := text ≠ [] ∧ ∀ character ∈ text, character.isDigit = true

/-- Digits, with or without a point before or between them. -/
inductive IsDecimal : List Char → Prop where
  | whole {digits : List Char} (good : IsDigits digits) : IsDecimal digits
  | fraction {digits : List Char} (good : IsDigits digits) : IsDecimal ('.' :: digits)
  | both {digits places : List Char} (good : IsDigits digits) (fine : IsDigits places) :
      IsDecimal (digits ++ '.' :: places)

/-- A number that may be a percentage, or a word in small letters. -/
inductive IsOffset : List Char → Prop where
  | number {digits : List Char} (good : IsDecimal digits) : IsOffset digits
  | percentage {digits : List Char} (good : IsDecimal digits) : IsOffset (digits ++ ['%'])
  | word {letters : List Char} (present : letters ≠ [])
      (small : ∀ character ∈ letters, character.isLower = true) : IsOffset letters

/-- Offsets with blanks behind each of them, and then a comma with blanks or nothing. -/
inductive OffsetsText : List (List Char) → List Char → Prop where
  | nil : OffsetsText [] []
  | bare {offset gap : List Char} {offsets : List (List Char)} {rest : List Char}
      (good : IsOffset offset) (blank : AllBlank gap) (others : OffsetsText offsets rest) :
      OffsetsText (offset :: offsets) (offset ++ gap ++ rest)
  | comma {offset gap lead : List Char} {offsets : List (List Char)} {rest : List Char}
      (good : IsOffset offset) (blank : AllBlank gap) (leading : AllBlank lead)
      (others : OffsetsText offsets rest) :
      OffsetsText (offset :: offsets) (offset ++ gap ++ ',' :: lead ++ rest)

/-! ### Leaves -/

/-- The text without its complete comments, as a string. -/
def uncommented (text : List Char) : String := String.ofList (removeComments false text)

/-- A name, a colon and a value, which may be missing. -/
def DeclarationForm (property value : String) (text : List Char) : Prop :=
  ∃ name gap lead tail, text = name ++ gap ++ ':' :: lead ++ tail ∧ IsProperty name ∧
    AllBlank gap ∧ AllBlank lead ∧ ValueText tail ∧ property = uncommented name ∧
    value = uncommented (trim tail)

/-- The keyword, blanks, a name and a query behind it. -/
def CustomMediaForm (name query : String) (text : List Char) : Prop :=
  ∃ gap inner, text = AtKeyword.customMedia.written ++ gap ++ name.toList ++ inner ++ [';'] ∧
    gap ≠ [] ∧ AllBlank gap ∧ ['-', '-'] <+: name.toList ∧ 3 ≤ name.length ∧
    (∀ character ∈ name.toList, isBlank character = false) ∧ inner ≠ [] ∧ '{' ∉ inner ∧
    ';' ∉ inner ∧ query = trimmed inner

/-- The leaf is written as this text. -/
def Leaf.WrittenAs : Leaf → List Char → Prop
  | .declaration property value, text => DeclarationForm property value text
  | .comment body, text =>
    text = commentOpener ++ body.toList ++ commentCloser ∧ ¬ commentCloser <:+: body.toList
  | .importRule target, text => AtKeyword.importRule.Payload target text
  | .charset encoding, text => AtKeyword.charset.Payload encoding text
  | .namespaceRule binding, text => AtKeyword.namespaceRule.Payload binding text
  | .customMedia name query, text => CustomMediaForm name query text

/-! ### Blocks -/

/-- The keyword with or without a vendor, and a name with blanks around it. -/
def KeyframesForm (vendor : Option String) (name : String) (opening : List Char) : Prop :=
  ∃ gap tail, opening = AtKeyword.keyframes.vendored vendor ++ gap ++ name.toList ++ tail ∧
    IsVendor vendor ∧ AllBlank gap ∧ IsIdentifier name.toList ∧ AllBlank tail

/-- The keyword with or without a vendor, and some text in front of a brace. -/
def DocumentForm (vendor : Option String) (address : String) (opening : List Char) : Prop :=
  ∃ inner, opening = AtKeyword.document.vendored vendor ++ inner ∧ IsVendor vendor ∧ inner ≠ [] ∧
    '{' ∉ inner ∧ address = trimmed inner

/-- The keyword, spaces and selectors, of which there may be none. -/
def PageForm (selectors : List String) (opening : List Char) : Prop :=
  ∃ spaces inner, opening = AtKeyword.page.written ++ spaces ++ inner ∧
    (∀ character ∈ spaces, character = ' ') ∧ '{' ∉ inner ∧
    selectors = if inner = [] then [] else (splitSelectors inner).map String.ofList

/-- The opening of a block with this header is written as this text. -/
def Header.WrittenAs : Header → List Char → Prop
  | .rule selectors, opening =>
    opening ≠ [] ∧ '{' ∉ opening ∧ selectors = (splitSelectors opening).map String.ofList
  | .keyframes vendor name, opening => KeyframesForm vendor name opening
  | .keyframe offsets, opening =>
    offsets ≠ [] ∧ ∃ values, offsets = values.map String.ofList ∧ OffsetsText values opening
  | .media query, opening => AtKeyword.media.Condition query opening
  | .supports condition, opening => AtKeyword.supports.Condition condition opening
  | .host, opening => AtKeyword.host.Bare opening
  | .document vendor address, opening => DocumentForm vendor address opening
  | .page selectors, opening => PageForm selectors opening
  | .fontFace, opening => AtKeyword.fontFace.Bare opening

/-- Whether a block with this header is kept when its closing brace is missing. -/
def Header.isPlain : Header → Bool
  | .rule _ | .keyframe _ => true
  | _ => false

/-- The closing brace, which a rule or a keyframe may lack. Then it was told at the end of the
span. -/
def Closing (faults : List Fault) (header : Header) (span : Span) (closing : List Char) : Prop :=
  closing = ['}'] ∨ closing = [] ∧ header.isPlain = true ∧
    ⟨.missingCloseBrace .block, span.source, span.stop⟩ ∈ faults

/-- The node is written as this text. -/
def Node.WrittenAs (faults : List Fault) : Node → List Char → Prop
  | .leaf content _, text => content.WrittenAs text
  | .block header span _, text =>
    ∃ opening inside closing, text = opening ++ '{' :: inside ++ closing ∧
      header.WrittenAs opening ∧ Closing faults header span closing

end CssSyntax
