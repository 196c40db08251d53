import Lox.Proofs.Token.Calls
import Lox.Proofs.Token.Slices

/-!
# A reader that keeps no text

The scanner of the language keeps in its mode the text that it has read of a lexeme. A reader keeps
only places, cuts the lexeme out of the text once it is complete, and has room for two characters that
are put back. Nothing in that is bound to go well: an offset may need more than 32 bits, there may be
no room for a character, a stretch may not be one that can be cut out, and what is taken for a number
may be none. Here each of these is a fault that ends the reading.
-/

namespace Lox

/-- What can go wrong for a reader. A line number that needs more than 32 bits is not among it: the
counter starts over there, as that of the scanner does. -/
inductive Misreading where
  | offset
  | putBack
  | slice
  | number
  deriving DecidableEq, Repr

/-- The room for characters that were put back. -/
inductive Held where
  | none
  | one (c : Located)
  | two (first second : Located)

namespace Held

/-- In the order in which they are read again. -/
def toList : Held → List Located
  | none => []
  | one c => [c]
  | two first second => [first, second]

def putBack (c : Located) : Held → Except Misreading Held
  | none => .ok (one c)
  | one next => .ok (two c next)
  | two _ _ => .error .putBack

/-- Puts back several characters, the last one first. -/
def putBackAll : List Located → Held → Except Misreading Held
  | [], held => .ok held
  | c :: rest, held => do
    let held ← putBackAll rest held
    held.putBack c

end Held

/-- Which lexeme is at hand, and where it began. -/
inductive Phase where
  | between
  | operator (start : Located) (alone paired : TokenKind)
  | slash (start : Located)
  | lineComment
  | blockComment (start : Located) (star : Bool)
  | string (start : Located)
  | number (start : Located) (fractional : Bool)
  /-- Digits and a point that belongs to them only if another digit follows. -/
  | numberDot (start dot : Located)
  | word (start : Located)

inductive Turn where
  | goOn (phase : Phase)
  /-- An item is complete, and the characters that were read behind it are put back. -/
  | emit (item : Item) (putBack : List Located)

namespace Phase

section
variable (text : String)

def cut (start stop : Nat) : Except Misreading String :=
  match Text.slice? text start stop with
  | some stretch => .ok stretch
  | none => .error .slice

def token (kind : TokenKind) (span : Span) (line : Nat) (value : Option TokenValue := none) :
    Except Misreading Item := do
  let lexeme ← cut text span.start span.stop
  return .ok { kind, lexeme, value, span, line }

def symbol (kind : TokenKind) (c : Located) : Except Misreading Item :=
  token text kind (.between c.offset c.stop) c.line

def spelled (start : Located) (stop : Nat) : Except Misreading Item := do
  let span := Span.between start.offset stop
  let lexeme ← cut text span.start span.stop
  token text (.ofWord lexeme) span start.line

def quoted (start closing : Located) : Except Misreading Item := do
  let contents ← cut text start.stop closing.offset
  token text .string (.between start.offset closing.stop) start.line (some (.text contents))

variable (read : String → Option Float)

def numeral (start : Located) (stop : Nat) : Except Misreading Item := do
  let span := Span.between start.offset stop
  let lexeme ← cut text span.start span.stop
  match read lexeme with
  | some value => token text .number span start.line (some (.number value))
  | none => throw .number

def enter (c : Located) : Except Misreading Turn :=
  if isSeparator c.value then return .goOn .between
  else if isWordStart c.value then return .goOn (.word c)
  else if c.value.isDigit then return .goOn (.number c false)
  else if c.value = '"' then return .goOn (.string c)
  else if c.value = '/' then return .goOn (.slash c)
  else match TokenKind.ofSymbol? c.value, TokenKind.ofOperator? c.value with
    | some kind, _ => return .emit (← symbol text kind c) []
    | none, some (alone, paired) => return .goOn (.operator c alone paired)
    | none, none =>
      return .emit (.error ⟨.unrecognized c.value, .between c.offset c.stop, c.line⟩) []

def take (c : Located) : Phase → Except Misreading Turn
  | between => enter text c
  | operator start alone paired => do
    if c.value = '=' then
      return .emit (← token text paired (.between start.offset c.stop) start.line) []
    else return .emit (← symbol text alone start) [c]
  | slash start => do
    if c.value = '/' then return .goOn lineComment
    else if c.value = '*' then return .goOn (blockComment start false)
    else return .emit (← symbol text .slash start) [c]
  | lineComment => return .goOn (if c.value = '\n' then between else lineComment)
  | blockComment start star =>
    if star && c.value = '/' then return .goOn between
    else return .goOn (blockComment start (c.value == '*'))
  | string start => do
    if c.value = '"' then return .emit (← quoted text start c) []
    else return .goOn (string start)
  | number start fractional => do
    if c.value.isDigit then return .goOn (number start fractional)
    else if c.value = '.' && !fractional then return .goOn (numberDot start c)
    else return .emit (← numeral text read start c.offset) [c]
  | numberDot start dot => do
    if c.value.isDigit then return .goOn (number start true)
    else return .emit (← numeral text read start dot.offset) [dot, c]
  | word start => do
    if isWordPart c.value then return .goOn (word start)
    else return .emit (← spelled text start c.offset) [c]

/-- What a phase does where there is no further character. The position is the one behind all that
was read. -/
def close (position : Position) : Phase → Except Misreading Turn
  | between => return .emit (.ok (.atEnd position.offset position.line)) []
  | operator start alone _ => return .emit (← symbol text alone start) []
  | slash start => return .emit (← symbol text .slash start) []
  | lineComment => return .goOn between
  | blockComment start _ => return .emit (Mode.unclosed .unclosedComment start position) []
  | string start => return .emit (Mode.unclosed .unclosedString start position) []
  | number start _ => return .emit (← numeral text read start position.offset) []
  | numberDot start dot => return .emit (← numeral text read start dot.offset) [dot]
  | word start => return .emit (← spelled text start position.offset) []

def turn (next : Option Located) (position : Position) (phase : Phase) : Except Misreading Turn :=
  match next with
  | some c => phase.take text read c
  | none => phase.close text read position

end

end Phase

structure Reader where
  phase : Phase := .between
  held : Held := .none
  /-- The text behind the furthest character read so far. -/
  unread : List Char
  /-- The place of that text. -/
  position : Position := ⟨0, 1⟩

namespace Reader

def ofText (text : String) : Reader :=
  { unread := text.toList }

/-- The next character, if there is one, and the reader behind it. -/
def next (reader : Reader) : Except Misreading (Option Located × Reader) :=
  match reader.held with
  | .none =>
    match reader.unread with
    | [] => .ok (none, reader)
    | c :: unread =>
      let { offset, line } := reader.position
      let position := reader.position.next c
      if position.offset < 2 ^ 32 then
        .ok (some ⟨c, offset, line⟩, { reader with unread, position })
      else .error .offset
  | .one c => .ok (some c, { reader with held := .none })
  | .two first second => .ok (some first, { reader with held := .one second })

section
variable (text : String) (read : String → Option Float)

/-- What is decided is done: the reader is in another phase, or there is an item. -/
def perform (reader : Reader) : Turn → Except Misreading (Option Item × Reader)
  | .goOn phase => return (none, { reader with phase })
  | .emit item putBack => do
    let held ← reader.held.putBackAll putBack
    return (some item, { reader with phase := .between, held })

/-- One character is read, or it is noticed that there is none. -/
def round (reader : Reader) : Except Misreading (Option Item × Reader) := do
  let (c, further) ← reader.next
  let turn ← further.phase.turn text read c further.position
  further.perform turn

/-- So many rounds, with the items that become complete in them. -/
def rounds : (count : Nat) → Reader → Except Misreading (List Item × Reader)
  | 0, reader => .ok ([], reader)
  | count + 1, reader => do
    let (item, further) ← reader.round text read
    let (items, last) ← rounds count further
    return (item.toList ++ items, last)

end

end Reader

end Lox
