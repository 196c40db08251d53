import Lox.Number.Numeral
import Lox.Token.Basic
import Lox.Token.Error

/-!
# The scanner

The scanner reads one character at a time and keeps in its mode what it has read of the lexeme at
hand. Some lexemes are known to have ended only one or two characters behind their last one; what
was read too far is put back and read again before the rest of the text.

Each mode says what to do with the next character, or with the end of the text, and nothing else
looks at the characters. An item ends only where the scanner is back between two lexemes.

Lines are counted in 32 bits, and the counter starts over behind the greatest number that they hold.
Offsets are not bounded here; they fit into 32 bits for a text shorter than `2 ^ 32` bytes.
-/

namespace Lox

structure Located where
  value : Char
  offset : Nat
  line : Nat
  deriving DecidableEq, Repr, Inhabited

def Located.stop (c : Located) : Nat :=
  c.offset + c.value.utf8Size

/-- A place between two characters, or at an end of the text. -/
structure Position where
  offset : Nat
  line : Nat
  deriving DecidableEq, Repr

/-- The place behind a character. No line number is as great as `2 ^ 32`, 0 takes its place. -/
def Position.next (place : Position) (c : Char) : Position :=
  ⟨place.offset + c.utf8Size, if c = '\n' then (place.line + 1) % UInt32.size else place.line⟩

abbrev Item := Except LexicalError Token

namespace TokenKind

def ofSymbol? : Char → Option TokenKind
  | '(' => some .leftParen
  | ')' => some .rightParen
  | '{' => some .leftBrace
  | '}' => some .rightBrace
  | ',' => some .comma
  | '.' => some .dot
  | '-' => some .minus
  | '+' => some .plus
  | ';' => some .semicolon
  | '*' => some .star
  | _ => none

/-- The symbols that may be followed by `=`, with their kinds alone and with it. -/
def ofOperator? : Char → Option (TokenKind × TokenKind)
  | '!' => some (.bang, .bangEqual)
  | '=' => some (.equal, .equalEqual)
  | '<' => some (.less, .lessEqual)
  | '>' => some (.greater, .greaterEqual)
  | _ => none

def ofWord (word : String) : TokenKind :=
  match Keyword.ofSpelling? word with
  | some reserved => .keyword reserved
  | none => .identifier

end TokenKind

def isSeparator (c : Char) : Bool :=
  c = ' ' || c = '\r' || c = '\t' || c = '\n'

def isWordStart (c : Char) : Bool :=
  c.isAlpha || c = '_'

def isWordPart (c : Char) : Bool :=
  c.isAlphanum || c = '_'

/-- What has been read of the lexeme at hand, which begins at `start`. -/
inductive Mode where
  | between
  /-- A symbol that is of another kind if `=` follows. -/
  | operator (start : Located) (alone paired : TokenKind)
  | slash (start : Located)
  | lineComment
  /-- A comment up to its closing mark, with whether a star was the last character. -/
  | blockComment (start : Located) (star : Bool)
  | string (start : Located) (contents : String)
  /-- Digits, with whether the point is among them. -/
  | number (start : Located) (lexeme : String) (fractional : Bool)
  /-- Digits and a point that belongs to them only if another digit follows. -/
  | numberDot (start : Located) (lexeme : String) (dot : Located)
  | word (start : Located) (lexeme : String)

inductive Step where
  | continue (mode : Mode)
  /-- An item is complete, and the characters that were read behind it are put back. -/
  | yield (item : Item) (putBack : List Located)

namespace Mode

def token (kind : TokenKind) (start : Located) (lexeme : String)
    (value : Option TokenValue := none) : Item :=
  .ok { kind, lexeme, value, span := ⟨start.offset, lexeme.utf8ByteSize⟩, line := start.line }

def symbol (kind : TokenKind) (start : Located) : Item :=
  token kind start (String.singleton start.value)

def numeral (start : Located) (lexeme : String) : Item :=
  token .number start lexeme ((Number.read? lexeme).map .number)

/-- An error from the first character of the lexeme to the end of the text. -/
def unclosed (cause : LexicalError.Cause) (start : Located) (textEnd : Position) : Item :=
  .error { cause, span := .between start.offset textEnd.offset, line := start.line }

def enter (c : Located) : Step :=
  if isSeparator c.value then .continue .between
  else if isWordStart c.value then .continue (.word c (String.singleton c.value))
  else if c.value.isDigit then .continue (.number c (String.singleton c.value) false)
  else if c.value = '"' then .continue (.string c "")
  else if c.value = '/' then .continue (.slash c)
  else match TokenKind.ofSymbol? c.value, TokenKind.ofOperator? c.value with
    | some kind, _ => .yield (symbol kind c) []
    | none, some (alone, paired) => .continue (.operator c alone paired)
    | none, none =>
      .yield (.error ⟨.unrecognized c.value, .between c.offset c.stop, c.line⟩) []

def read (c : Located) : Mode → Step
  | between => enter c
  | operator start alone paired =>
    if c.value = '=' then
      .yield (token paired start (String.ofList [start.value, c.value])) []
    else .yield (symbol alone start) [c]
  | slash start =>
    if c.value = '/' then .continue lineComment
    else if c.value = '*' then .continue (blockComment start false)
    else .yield (symbol .slash start) [c]
  | lineComment => .continue (if c.value = '\n' then between else lineComment)
  | blockComment start star =>
    if star && c.value = '/' then .continue between
    else .continue (blockComment start (c.value == '*'))
  | string start contents =>
    if c.value = '"' then
      .yield (token .string start ("\"" ++ contents ++ "\"") (some (.text contents))) []
    else .continue (string start (contents.push c.value))
  | number start lexeme fractional =>
    if c.value.isDigit then .continue (number start (lexeme.push c.value) fractional)
    else if c.value = '.' && !fractional then .continue (numberDot start lexeme c)
    else .yield (numeral start lexeme) [c]
  | numberDot start lexeme dot =>
    if c.value.isDigit then
      .continue (number start ((lexeme.push dot.value).push c.value) true)
    else .yield (numeral start lexeme) [dot, c]
  | word start lexeme =>
    if isWordPart c.value then .continue (word start (lexeme.push c.value))
    else .yield (token (.ofWord lexeme) start lexeme) [c]

def finish (textEnd : Position) : Mode → Step
  | between => .yield (.ok (.atEnd textEnd.offset textEnd.line)) []
  | operator start alone _ => .yield (symbol alone start) []
  | slash start => .yield (symbol .slash start) []
  | lineComment => .continue between
  | blockComment start _ => .yield (unclosed .unclosedComment start textEnd) []
  | string start _ => .yield (unclosed .unclosedString start textEnd) []
  | number start lexeme _ => .yield (numeral start lexeme) []
  | numberDot start lexeme dot => .yield (numeral start lexeme) [dot]
  | word start lexeme => .yield (token (.ofWord lexeme) start lexeme) []

/-- A mode that goes on at the end of the text has a higher rank than the one it goes to. -/
def rank : Mode → Nat
  | lineComment => 1
  | _ => 0

end Mode

structure Scanner where
  /-- Characters that were put back and come first. -/
  pending : List Located := []
  /-- The text behind the furthest character read so far. -/
  unread : List Char
  position : Position := ⟨0, 1⟩
  finished : Bool := false

namespace Scanner

def ofText (text : String) : Scanner :=
  { unread := text.toList }

def take? (scanner : Scanner) : Option (Located × Scanner) :=
  match scanner.pending, scanner.unread with
  | c :: pending, _ => some (c, { scanner with pending })
  | [], c :: unread =>
    let { offset, line } := scanner.position
    some (⟨c, offset, line⟩, { scanner with unread, position := scanner.position.next c })
  | [], [] => none

def remaining (scanner : Scanner) : Nat :=
  scanner.pending.length + scanner.unread.length

theorem remaining_of_take? {scanner rest : Scanner} {c : Located}
    (taken : scanner.take? = some (c, rest)) : scanner.remaining = rest.remaining + 1 := by
  unfold take? at taken
  split at taken <;> simp only [Option.some.injEq, Prod.mk.injEq, reduceCtorEq] at taken
  all_goals
    obtain ⟨_, rfl⟩ := taken
    simp_all [remaining]
    try omega

theorem rank_lt_of_finish {mode next : Mode} {textEnd : Position}
    (step : mode.finish textEnd = .continue next) : next.rank < mode.rank := by
  cases mode <;> simp [Mode.finish] at step
  subst step
  decide

/-- Reads on from a mode until an item is complete. -/
def advance (mode : Mode) (scanner : Scanner) : Item × Scanner :=
  match _taken : scanner.take? with
  | some (c, rest) =>
    match mode.read c with
    | .continue next => advance next rest
    | .yield item putBack => (item, { rest with pending := putBack ++ rest.pending })
  | none =>
    match _step : mode.finish scanner.position with
    | .continue next => advance next scanner
    | .yield item putBack => (item, { scanner with pending := putBack ++ scanner.pending })
termination_by (scanner.remaining, mode.rank)
decreasing_by
  · exact .left _ _ (by rw [remaining_of_take? _taken]; exact Nat.lt_succ_self _)
  · exact .right _ (rank_lt_of_finish _step)

/-- The next token, or the error of characters that form none. At the end of the text every call
yields the end again. -/
def nextToken (scanner : Scanner) : Item × Scanner :=
  scanner.advance .between

/-- The next item of the sequence that ends once it has yielded the end of the text. -/
def next? (scanner : Scanner) : Option Item × Scanner :=
  if scanner.finished then (none, scanner)
  else
    let (item, rest) := scanner.nextToken
    let isLast := match item with
      | .ok token => token.isEnd
      | .error _ => false
    (some item, { rest with finished := isLast })

def take : (count : Nat) → Scanner → List Item
  | 0, _ => []
  | count + 1, scanner =>
    match scanner.next? with
    | (some item, rest) => item :: take count rest
    | (none, _) => []

end Scanner

/-- The items of a text, of which there are no more than characters, and the end. -/
def items (text : String) : List Item :=
  (Scanner.ofText text).take (text.length + 1)

structure Scan where
  tokens : List Token
  errors : List LexicalError

namespace Scan

def ofText (text : String) : Scan :=
  let items := items text
  { tokens := items.filterMap Except.toOption
    errors := items.filterMap fun item => match item with
      | .ok _ => none
      | .error error => some error }

def hasErrors (scan : Scan) : Bool :=
  !scan.errors.isEmpty

end Scan

end Lox
