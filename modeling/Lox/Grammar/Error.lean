import Lox.Report.Diagnostic
import Lox.Report.Style
import Lox.Token.Basic

/-!
# Syntax errors

What can be wrong with a list of tokens, and at which token it was noticed. The first two causes
and the last one abandon the declaration at hand; the others are recorded and parsing goes on.
-/

namespace Lox

/-- The most parameters a function may declare and the most arguments a call may pass. -/
def maxArity : Nat := 255

/-- The most expressions, statements and function declarations that may be open at once. -/
def maxNesting : Nat := 200

namespace SyntaxError

inductive Cause where
  | unexpected (expected : TokenKind) (message : String)
  | notExpression
  | notAssignable
  | tooManyParameters
  | tooManyArguments
  | returnOutsideFunction
  | tooDeep
  deriving DecidableEq, Repr

namespace Cause

def code : Cause → String
  | unexpected .. => "PA001"
  | notExpression => "PA002"
  | notAssignable => "PA003"
  | tooManyParameters => "PA004"
  | tooManyArguments => "PA005"
  | returnOutsideFunction => "PA006"
  | tooDeep => "PA007"

def message : Cause → String
  | unexpected _ message => message
  | notExpression => "Expect expression."
  | notAssignable => "Invalid assignment target."
  | tooManyParameters => "Can't have more than " ++ toString maxArity ++ " parameters."
  | tooManyArguments => "Can't have more than " ++ toString maxArity ++ " arguments."
  | returnOutsideFunction => "Can't return from top-level code."
  | tooDeep => "Can't nest more than " ++ toString maxNesting ++ " levels."

/-- What a report says at the token itself. -/
def label (found : TokenKind) : Cause → String
  | unexpected expected _ => "Expected " ++ expected.name ++ " but got " ++ found.name
  | notExpression => found.name ++ " does not start an expression"
  | notAssignable => "Left side is not a variable"
  | tooManyParameters => "Parameter over the limit"
  | tooManyArguments => "Argument over the limit"
  | returnOutsideFunction => "Not inside a function"
  | tooDeep => "Nested one level too deep"

private def inspectLimit (name : String) (limit : Nat) : String :=
  Inspect.record name [("limit", Inspect.nat limit)]

def inspect : Cause → String
  | unexpected expected message =>
    Inspect.record "UnexpectedToken" [
      ("expected", expected.inspect),
      ("message", Text.quoted message)]
  | notExpression => "NonExpression"
  | notAssignable => "InvalidLValue"
  | tooManyParameters => inspectLimit "TooManyParameters" maxArity
  | tooManyArguments => inspectLimit "TooManyArguments" maxArity
  | returnOutsideFunction => "NonFunctionReturn"
  | tooDeep => inspectLimit "TooDeep" maxNesting

end Cause

end SyntaxError

structure SyntaxError where
  cause : SyntaxError.Cause
  token : Token

namespace SyntaxError

def inspect (error : SyntaxError) : String :=
  Inspect.record "ParserError" [
    ("kind", error.cause.inspect),
    ("token", error.token.inspect)]

def summary (error : SyntaxError) : String :=
  let place := if error.token.isEnd then " at end" else " at '" ++ error.token.lexeme ++ "'"
  "[line " ++ toString error.token.line ++ "] Error" ++ place ++ ": " ++ error.cause.message

def diagnostic (error : SyntaxError) : Diagnostic :=
  ⟨error.cause.code, error.cause.message, error.cause.label error.token.kind, error.token.span⟩

def render (error : SyntaxError) (style : Style) (source : Source) : String :=
  match style with
  | .basic => error.summary
  | .pretty => error.diagnostic.render source
  | .debug => error.inspect

end SyntaxError

end Lox
