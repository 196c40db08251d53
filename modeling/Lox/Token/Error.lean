import Lox.Report.Diagnostic
import Lox.Report.Style

/-!
# Lexical errors

The three ways in which characters can fail to form a token.
-/

namespace Lox

namespace LexicalError

inductive Cause where
  | unrecognized (character : Char)
  | unclosedString
  | unclosedComment
  deriving DecidableEq, Repr

namespace Cause

def code : Cause → String
  | .unrecognized _ => "LX001"
  | .unclosedString => "LX002"
  | .unclosedComment => "LX003"

def message : Cause → String
  | .unrecognized c => "Unexpected character: " ++ String.singleton c
  | .unclosedString => "Unterminated string."
  | .unclosedComment => "Unterminated block comment."

/-- What a report says at the place itself. -/
def label : Cause → String
  | .unrecognized c => "'" ++ String.singleton c ++ "' does not start any token"
  | .unclosedString => "String starts here"
  | .unclosedComment => "Comment starts here"

def inspect : Cause → String
  | .unrecognized c => Inspect.tuple "Unrecognized" [Text.quotedChar c]
  | .unclosedString => "UnclosedString"
  | .unclosedComment => "UnclosedComment"

end Cause

end LexicalError

structure LexicalError where
  cause : LexicalError.Cause
  span : Span
  /-- The line on which the characters at fault begin. -/
  line : Nat
  deriving DecidableEq, Repr

namespace LexicalError

def inspect (error : LexicalError) : String :=
  Inspect.record "LexicalError" [
    ("kind", error.cause.inspect),
    ("span", error.span.inspect),
    ("line", Inspect.nat error.line)]

def summary (error : LexicalError) : String :=
  "[line " ++ toString error.line ++ "] Error: " ++ error.cause.message

def diagnostic (error : LexicalError) : Diagnostic :=
  ⟨error.cause.code, error.cause.message, error.cause.label, error.span⟩

def render (error : LexicalError) (style : Style) (source : Source) : String :=
  match style with
  | .basic => error.summary
  | .pretty => error.diagnostic.render source
  | .debug => error.inspect

end LexicalError

end Lox
