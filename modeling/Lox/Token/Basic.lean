import Lox.Number.Notation
import Lox.Report.Style
import Lox.Text.Span
import Lox.Token.Kind

/-!
# Tokens

A token is a kind, the text it covers, the value of a literal, and its place.
-/

namespace Lox

/-- The value that a literal token stands for. -/
inductive TokenValue where
  | number (value : Float)
  | text (value : String)
  deriving Inhabited

namespace TokenValue

def listing : TokenValue → String
  | .number value => Number.exact value
  | .text value => value

def inspect : TokenValue → String
  | .number value => Inspect.tuple "Number" [Number.exact value]
  | .text value => Inspect.tuple "String" [Text.quoted value]

end TokenValue

structure Token where
  kind : TokenKind
  /-- The covered text. -/
  lexeme : String
  /-- Number and string tokens carry one. -/
  value : Option TokenValue := none
  span : Span
  /-- The line of the first character, counted from one by a scanner, in 32 bits. -/
  line : Nat
  deriving Inhabited

namespace Token

def atEnd (offset line : Nat) : Token :=
  { kind := .eof, lexeme := "", span := ⟨offset, 0⟩, line }

def isEnd (token : Token) : Bool :=
  token.kind == .eof

def inspect (token : Token) : String :=
  Inspect.record "Token" [
    ("kind", token.kind.inspect),
    ("lexeme", Text.quoted token.lexeme),
    ("literal", Inspect.option TokenValue.inspect token.value),
    ("span", token.span.inspect),
    ("line", Inspect.nat token.line)]

/-- A token as one entry of a listing. -/
def render (token : Token) : Style → String
  | .basic => token.kind.name ++ " " ++ token.lexeme ++ " "
      ++ (token.value.elim "null" TokenValue.listing)
  | .pretty =>
    let entry := "(" ++ toString token.line ++ ") " ++ token.kind.name
    if token.isEnd then entry else entry ++ " " ++ token.lexeme
  | .debug => token.inspect

end Token

end Lox
