/-!
# Token kinds

The words and symbols of the language. A keyword is known by its spelling alone, and the names of
its kind in listings derive from that.
-/

namespace Lox

inductive Keyword where
  | andWord | classWord | elseWord | falseWord | forWord | funWord | ifWord | nilWord
  | orWord | printWord | returnWord | superWord | thisWord | trueWord | varWord | whileWord
  deriving DecidableEq, Repr, Inhabited

namespace Keyword

def all : List Keyword :=
  [.andWord, .classWord, .elseWord, .falseWord, .forWord, .funWord, .ifWord, .nilWord,
    .orWord, .printWord, .returnWord, .superWord, .thisWord, .trueWord, .varWord, .whileWord]

def spelling : Keyword → String
  | .andWord => "and"
  | .classWord => "class"
  | .elseWord => "else"
  | .falseWord => "false"
  | .forWord => "for"
  | .funWord => "fun"
  | .ifWord => "if"
  | .nilWord => "nil"
  | .orWord => "or"
  | .printWord => "print"
  | .returnWord => "return"
  | .superWord => "super"
  | .thisWord => "this"
  | .trueWord => "true"
  | .varWord => "var"
  | .whileWord => "while"

/-- The keyword that a word spells, if it is reserved. -/
def ofSpelling? (word : String) : Option Keyword :=
  all.find? (·.spelling == word)

/-- The words that open a declaration or a statement. -/
def startsStatement : Keyword → Bool
  | .classWord | .funWord | .varWord | .forWord | .ifWord | .whileWord | .printWord
  | .returnWord => true
  | _ => false

end Keyword

/-- The classes of tokens. -/
inductive TokenKind where
  | leftParen | rightParen | leftBrace | rightBrace
  | comma | dot | minus | plus | semicolon | star | slash
  | bang | bangEqual | equal | equalEqual | less | lessEqual | greater | greaterEqual
  | number | string | identifier
  | keyword (word : Keyword)
  | eof
  deriving DecidableEq, Repr, Inhabited

namespace TokenKind

def all : List TokenKind :=
  [.leftParen, .rightParen, .leftBrace, .rightBrace, .comma, .dot, .minus, .plus, .semicolon,
    .star, .slash, .bang, .bangEqual, .equal, .equalEqual, .less, .lessEqual, .greater,
    .greaterEqual, .number, .string, .identifier, .eof] ++ Keyword.all.map .keyword

def name : TokenKind → String
  | .leftParen => "LEFT_PAREN"
  | .rightParen => "RIGHT_PAREN"
  | .leftBrace => "LEFT_BRACE"
  | .rightBrace => "RIGHT_BRACE"
  | .comma => "COMMA"
  | .dot => "DOT"
  | .minus => "MINUS"
  | .plus => "PLUS"
  | .semicolon => "SEMICOLON"
  | .star => "STAR"
  | .slash => "SLASH"
  | .bang => "BANG"
  | .bangEqual => "BANG_EQUAL"
  | .equal => "EQUAL"
  | .equalEqual => "EQUAL_EQUAL"
  | .less => "LESS"
  | .lessEqual => "LESS_EQUAL"
  | .greater => "GREATER"
  | .greaterEqual => "GREATER_EQUAL"
  | .number => "NUMBER"
  | .string => "STRING"
  | .identifier => "IDENTIFIER"
  | .keyword word => word.spelling.toUpper
  | .eof => "EOF"

def ofName? (name : String) : Option TokenKind :=
  all.find? (·.name == name)

def inspect : TokenKind → String
  | .leftParen => "LeftParenthesis"
  | .rightParen => "RightParenthesis"
  | .leftBrace => "LeftBrace"
  | .rightBrace => "RightBrace"
  | .comma => "Comma"
  | .dot => "Dot"
  | .minus => "Minus"
  | .plus => "Plus"
  | .semicolon => "Semicolon"
  | .star => "Star"
  | .slash => "Slash"
  | .bang => "Bang"
  | .bangEqual => "BangEqual"
  | .equal => "Equal"
  | .equalEqual => "EqualEqual"
  | .less => "LessThan"
  | .lessEqual => "LessThanEqual"
  | .greater => "GreaterThan"
  | .greaterEqual => "GreaterThanEqual"
  | .number => "NumericLiteral"
  | .string => "StringLiteral"
  | .identifier => "Ident"
  | .keyword word => "Keyword" ++ word.spelling.capitalize
  | .eof => "Eof"

/-- The tokens in front of which recovery from a syntax error may stop. -/
def startsStatement : TokenKind → Bool
  | .keyword word => word.startsStatement
  | _ => false

end TokenKind

end Lox
