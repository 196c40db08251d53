import Lox.Text.Lines
import Lox.Token.Scanner
import Mathlib.Data.List.TakeDrop

/-!
# Lexemes, and the next item of a text

What the items of a text are, said without a scanner. Lexemes are given by their characters, and the
token at the front of a text is the longest lexeme there. In front of it stand separators and
comments, and where there is neither a lexeme nor the end there is an error.

Nothing here has a mode or puts a character back: `NextItem` looks at the text as a whole.
-/

namespace Lox

namespace Position

def past (place : Position) (text : List Char) : Position :=
  text.foldl next place

variable (place : Position) (text more : List Char)

@[simp] theorem past_nil : place.past [] = place := rfl

@[simp] theorem past_cons (c : Char) : place.past (c :: text) = (place.next c).past text := rfl

@[simp] theorem past_append : place.past (text ++ more) = (place.past text).past more :=
  List.foldl_append

theorem offset_past : (place.past text).offset = place.offset + Text.byteSize text := by
  induction text generalizing place with
  | nil => simp [Text.byteSize]
  | cons c text ih => simp [ih, next, Text.byteSize, Nat.add_assoc]

end Position

theorem Text.length_le_byteSize (text : List Char) : text.length ≤ byteSize text := by
  induction text with
  | nil => exact Nat.le_refl 0
  | cons c text ih =>
    have hpos := c.utf8Size_pos
    show text.length + 1 ≤ c.utf8Size + byteSize text
    omega

theorem utf8ByteSize_ofList (text : List Char) :
    (String.ofList text).utf8ByteSize = Text.byteSize text := by
  induction text with
  | nil => rfl
  | cons c text ih => simp [String.ofList_cons, ih, Text.byteSize]

/-! ### Lexemes -/

/-- The kind of token that characters are the symbol of. -/
def TokenKind.ofSymbol : List Char → Option TokenKind
  | ['('] => some .leftParen
  | [')'] => some .rightParen
  | ['{'] => some .leftBrace
  | ['}'] => some .rightBrace
  | [','] => some .comma
  | ['.'] => some .dot
  | ['-'] => some .minus
  | ['+'] => some .plus
  | [';'] => some .semicolon
  | ['*'] => some .star
  | ['/'] => some .slash
  | ['!'] => some .bang
  | ['!', '='] => some .bangEqual
  | ['='] => some .equal
  | ['=', '='] => some .equalEqual
  | ['<'] => some .less
  | ['<', '='] => some .lessEqual
  | ['>'] => some .greater
  | ['>', '='] => some .greaterEqual
  | _ => none

theorem TokenKind.ne_of_ofSymbol {chars : List Char} {kind : TokenKind}
    (h : ofSymbol chars = some kind) : kind ≠ .number ∧ kind ≠ .string := by
  unfold ofSymbol at h
  split at h <;> cases h <;> simp

def Digits (chars : List Char) : Prop :=
  chars ≠ [] ∧ ∀ c ∈ chars, c.isDigit = true

theorem Digits.exists_cons {chars : List Char} (h : Digits chars) :
    ∃ c rest, chars = c :: rest ∧ c.isDigit = true ∧ ∀ d ∈ rest, d.isDigit = true := by
  obtain ⟨c, rest, rfl⟩ := List.exists_cons_of_ne_nil h.1
  exact ⟨c, rest, rfl, List.forall_mem_cons.1 h.2⟩

inductive Word : List Char → Prop where
  | of {c : Char} {rest : List Char} (starts : isWordStart c = true)
      (parts : ∀ d ∈ rest, isWordPart d = true) : Word (c :: rest)

/-- The characters are a lexeme of the kind. -/
inductive Lexeme : TokenKind → List Char → Prop where
  | symbol {kind : TokenKind} {chars : List Char} (h : TokenKind.ofSymbol chars = some kind) :
    Lexeme kind chars
  | whole {digits : List Char} (h : Digits digits) : Lexeme .number digits
  | fractional {digits fraction : List Char} (hdigits : Digits digits)
      (hfraction : Digits fraction) : Lexeme .number (digits ++ '.' :: fraction)
  | keyword {word : Keyword} {chars : List Char} (h : Word chars)
      (spells : word.spelling = String.ofList chars) : Lexeme (.keyword word) chars
  | identifier {chars : List Char} (h : Word chars)
      (free : ∀ word : Keyword, word.spelling ≠ String.ofList chars) : Lexeme .identifier chars
  | string {contents : List Char} (h : '"' ∉ contents) :
    Lexeme .string ('"' :: contents ++ ['"'])

/-- The value that a token of the kind has for its lexeme. -/
inductive Denotes : TokenKind → List Char → Option TokenValue → Prop where
  | number {chars : List Char} {value : Float}
      (reads : Number.read? (String.ofList chars) = some value) :
    Denotes .number chars (some (.number value))
  | string (contents : List Char) :
    Denotes .string ('"' :: contents ++ ['"']) (some (.text (String.ofList contents)))
  | plain {kind : TokenKind} {chars : List Char} (hnumber : kind ≠ .number)
      (hstring : kind ≠ .string) : Denotes kind chars none

/-- The characters are a lexeme of the kind, and no lexeme at the front of the text is longer. -/
structure Longest (kind : TokenKind) (chars text : List Char) : Prop where
  lexeme : Lexeme kind chars
  length_le : ∀ {other : TokenKind} {longer : List Char}, Lexeme other longer → longer <+: text →
    longer.length ≤ chars.length

inductive OpensComment : List Char → Prop where
  | line (text : List Char) : OpensComment ('/' :: '/' :: text)
  | block (text : List Char) : OpensComment ('/' :: '*' :: text)

/-- The end of a block comment is somewhere in the text. -/
def Closes (text : List Char) : Prop := ['*', '/'] <:+: text

def Token.covering (place : Position) (kind : TokenKind) (chars : List Char)
    (value : Option TokenValue) : Token where
  kind
  lexeme := String.ofList chars
  value
  span := .between place.offset (place.past chars).offset
  line := place.line

def LexicalError.covering (place : Position) (cause : LexicalError.Cause) (chars : List Char) :
    LexicalError where
  cause
  span := .between place.offset (place.past chars).offset
  line := place.line

/-- The first item of a text that begins at a place, and what of the text is behind the item. -/
inductive NextItem : Position → List Char → Item → Position → List Char → Prop where
  | separator {place after : Position} {c : Char} {text rest : List Char} {item : Item}
      (h : isSeparator c = true) (further : NextItem (place.next c) text item after rest) :
    NextItem place (c :: text) item after rest
  /-- A comment that goes on up to the end of its line, or of the text. -/
  | lineComment {place after : Position} {body text rest : List Char} {item : Item}
      (h : '\n' ∉ body) (stops : ∀ c ∈ text.head?, c = '\n')
      (further : NextItem (place.past ('/' :: '/' :: body)) text item after rest) :
    NextItem place ('/' :: '/' :: body ++ text) item after rest
  /-- A comment that is closed at the first chance. -/
  | blockComment {place after : Position} {body text rest : List Char} {item : Item}
      (h : ¬ Closes (body ++ ['*']))
      (further : NextItem (place.past ('/' :: '*' :: body ++ ['*', '/'])) text item after rest) :
    NextItem place ('/' :: '*' :: body ++ '*' :: '/' :: text) item after rest
  | token {place : Position} {kind : TokenKind} {chars rest : List Char} {value : Option TokenValue}
      (h : ¬ OpensComment (chars ++ rest)) (longest : Longest kind chars (chars ++ rest))
      (denotes : Denotes kind chars value) :
    NextItem place (chars ++ rest) (.ok (.covering place kind chars value)) (place.past chars) rest
  | unclosedString {place : Position} {body : List Char} (h : '"' ∉ body) :
    NextItem place ('"' :: body) (.error (.covering place .unclosedString ('"' :: body)))
      (place.past ('"' :: body)) []
  | unclosedComment {place : Position} {body : List Char} (h : ¬ Closes body) :
    NextItem place ('/' :: '*' :: body) (.error (.covering place .unclosedComment ('/' :: '*' :: body)))
      (place.past ('/' :: '*' :: body)) []
  /-- A character that begins neither a lexeme nor anything that is skipped. -/
  | unrecognized {place : Position} {c : Char} {rest : List Char} (hseparator : isSeparator c = false)
      (hquote : c ≠ '"') (h : ∀ kind chars, Lexeme kind chars → ¬ chars <+: c :: rest) :
    NextItem place (c :: rest) (.error (.covering place (.unrecognized c) [c])) (place.next c) rest
  | ending (place : Position) : NextItem place [] (.ok (.atEnd place.offset place.line)) place []

def isLast : Item → Bool
  | .ok token => token.isEnd
  | .error _ => false

/-- The items of a text that begins at a place, up to the end. -/
inductive Scans : Position → List Char → List Item → Prop where
  | last {place after : Position} {text rest : List Char} {item : Item}
      (next : NextItem place text item after rest) (h : isLast item = true) :
    Scans place text [item]
  | more {place after : Position} {text rest : List Char} {item : Item} {items : List Item}
      (next : NextItem place text item after rest) (h : isLast item = false)
      (further : Scans after rest items) : Scans place text (item :: items)

end Lox
