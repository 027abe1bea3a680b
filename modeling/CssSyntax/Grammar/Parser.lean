/-
This file holds the machinery that the grammar runs on.

A parser reads the choices of the caller and moves a state: a cursor, the faults noted so far, the
unterminated comment met last, and the record of events. It ends with a value or halts. There are two
ways to halt. A fault that was raised ends the whole parse, and a fault that was only noted ends the
construct it was found in: the list that the construct was to join keeps what it has and ends there.
Which of the two happens is decided where a fault is reported, by the mode and by nothing else.

A parser for a construct that may be absent answers with an option. It answers with none only when
the opening of the construct is not ahead, and then it has changed nothing.
-/

import CssSyntax.Cursor
import CssSyntax.Event
import CssSyntax.Tree.Node

namespace CssSyntax.Grammar

/-! ### States and parsers -/

/-- What a parse has come to. -/
structure State where
  cursor : Cursor
  /-- The faults noted so far, in order. -/
  faults : List Fault := []
  /-- Where the unterminated comment noted last begins. A list that ends at the same place later
  does not note it again. -/
  openComment : Option Location := none
  /-- The events so far, in order. -/
  events : List Event := []
  deriving DecidableEq

/-- The number of characters left. -/
def State.left (state : State) : Nat := state.cursor.left

/-- Why a parser ended without a value. -/
inductive Halt where
  /-- The fault is among those noted in the state. -/
  | noted
  /-- The fault ends the whole parse. -/
  | raised (fault : Fault)
  deriving DecidableEq

/-- A parser reads the choices of the caller and moves the state. A halt keeps the state. -/
abbrev Parser (α : Type) := ReaderT Options (EStateM Halt State) α

variable {α : Type}

/-! ### Looking and moving -/

/-- The location of the cursor. -/
def here : Parser Location := do
  return (← get).cursor.location

/-- Whether the text ahead starts with the word. -/
def startsWith (word : List Char) : Parser Bool := do
  return (← get).cursor.startsWith word

/-- Whether no text is ahead. -/
def atEnd : Parser Bool := do
  return (← get).cursor.atEnd

/-- What the pattern finds ahead. -/
def accept (pattern : Pattern α) : Parser (Option α) :=
  modifyGet fun state =>
    let (found, cursor) := state.cursor.accept pattern
    (found, { state with cursor })

/-- The span from `start` to the cursor. The blanks behind it are passed over but are no part of
it. -/
def spanFrom (start : Location) : Parser Span := do
  let span := ⟨start, ← here, (← read).source⟩
  let _ ← accept .blanks
  return span

/-- Adds an event to the record. -/
def record (event : Event) : Parser Unit :=
  modify fun state => { state with events := state.events ++ [event] }

/-! ### Faults -/

/-- Tells a fault at the cursor. A strict parse ends; a tolerant one notes the fault and goes on. -/
def report (cause : Cause) : Parser Unit := do
  let options ← read
  let fault := ⟨cause, options.source, ← here⟩
  match options.mode with
  | .strict => throw (.raised fault)
  | .tolerant =>
    record (.noted fault)
    modify fun state => { state with faults := state.faults ++ [fault] }

/-- Tells a fault at the cursor and gives up the construct. -/
def fail (cause : Cause) : Parser α := do
  report cause
  throw .noted

/-- Reads the construct and takes one that was given up for a noted fault as absent. The cursor stays
where the construct was given up. -/
def attempt (parser : Parser (Option α)) : Parser (Option α) := fun options state =>
  match parser options state with
  | .error .noted reached => .ok none reached
  | outcome => outcome

/-! ### Lists and blocks -/

/-- Reads items until one is absent or is given up for a noted fault. A raised fault goes on to the
caller. An item that takes no text is the last one. -/
def collect (item : Parser (Option α)) (options : Options) (state : State) :
    EStateM.Result Halt State (List α) :=
  match item options state with
  | .ok none reached => .ok [] reached
  | .error .noted reached => .ok [] reached
  | .error (.raised fault) reached => .error (.raised fault) reached
  | .ok (some value) reached =>
    if reached.left < state.left then
      match collect item options reached with
      | .ok values last => .ok (value :: values) last
      | .error halt last => .error halt last
    else .ok [value] reached
termination_by state.left

end CssSyntax.Grammar
