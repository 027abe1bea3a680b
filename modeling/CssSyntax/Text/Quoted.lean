/-
This file measures the quoted string at the start of a text.

A backslash directly before the quote character keeps it from closing the string. What happens when
every later quote is kept from closing differs by place. In a declaration value a string ends on
its line and then closes at the first quote there is. In a selector it may run over lines and then
closes at the last quote there is.
-/

namespace CssSyntax

/-! ### Where a string may close -/

/-- The place in which a quoted string stands. -/
inductive Quoting where
  | value
  | selector
  deriving DecidableEq

/-- The characters that end a line within a declaration value. -/
def isLineBreak (character : Char) : Bool :=
  character == '\n' || character == '\r' || character == '\u2028' || character == '\u2029'

/-- The part of the text after an opening quote in which the string may close. -/
def Quoting.reach : Quoting → List Char → List Char
  | .value, body => body.takeWhile fun character => !isLineBreak character
  | .selector, body => body

/-- The number of characters before the first quote that no backslash directly precedes. -/
def closingQuote? (quote : Char) : List Char → Option Nat
  | [] => none
  | [last] => if last = quote then some 0 else none
  | first :: second :: rest =>
    if first = '\\' ∧ second = quote then (closingQuote? quote rest).map (· + 2)
    else if first = quote then some 0
    else (closingQuote? quote (second :: rest)).map (· + 1)

/-- The number of characters before the quote that closes a string in which a backslash precedes
every quote. -/
def Quoting.escapedClosingQuote? (quote : Char) : Quoting → List Char → Option Nat
  | .value, body => body.idxOf? quote
  | .selector, body => (body.reverse.idxOf? quote).map fun behind => body.length - 1 - behind

/-! ### The length of a string -/

/-- The number of characters of the string in this quote at the start of the text, both quotes
counted. -/
def Quoting.length? (quoting : Quoting) (quote : Char) : List Char → Option Nat
  | [] => none
  | first :: body =>
    if first = quote then
      let reached := quoting.reach body
      (closingQuote? quote reached <|> quoting.escapedClosingQuote? quote reached).map (· + 2)
    else none

/-- The number of characters of the string at the start of the text, in whichever quote it stands. -/
def Quoting.lengthAt? (quoting : Quoting) (text : List Char) : Option Nat :=
  quoting.length? '"' text <|> quoting.length? '\'' text

end CssSyntax
