/-
This file names the kinds of nodes.

Eleven at-rules are known. Their keywords are the kinds of their nodes, they name the construct in a
fault and they name the at-rule in the record of a parse, so all three come from one table.
-/

namespace CssSyntax

/-! ### At-rule keywords -/

/-- The at-rules that the grammar knows. -/
inductive AtKeyword where
  | keyframes
  | media
  | customMedia
  | supports
  | importRule
  | charset
  | namespaceRule
  | document
  | page
  | host
  | fontFace
  deriving DecidableEq

namespace AtKeyword

/-- The keyword as it is written after the `@`. -/
def text : AtKeyword → String
  | .keyframes => "keyframes"
  | .media => "media"
  | .customMedia => "custom-media"
  | .supports => "supports"
  | .importRule => "import"
  | .charset => "charset"
  | .namespaceRule => "namespace"
  | .document => "document"
  | .page => "page"
  | .host => "host"
  | .fontFace => "font-face"

/-- The order in which the at-rules are tried. The keywords `keyframes` and `document` are found
anywhere in the word after the `@`, so their places in the order matter: `@keyframes` is tried before
everything else, and the at-rules before `document` win over it. -/
def table : List AtKeyword :=
  [.keyframes, .media, .customMedia, .supports, .importRule, .charset, .namespaceRule, .document,
    .page, .host, .fontFace]

end AtKeyword

/-! ### Kinds -/

/-- The kind of a node, or of the sheet that holds all nodes. -/
inductive Kind where
  | stylesheet
  | rule
  | declaration
  | comment
  | keyframe
  | atRule (keyword : AtKeyword)
  deriving DecidableEq

namespace Kind

/-- The name of the kind. -/
def text : Kind → String
  | .stylesheet => "stylesheet"
  | .rule => "rule"
  | .declaration => "declaration"
  | .comment => "comment"
  | .keyframe => "keyframe"
  | .atRule keyword => keyword.text

end Kind

end CssSyntax
