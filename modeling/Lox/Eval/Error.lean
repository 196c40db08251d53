import Lox.Report.Diagnostic
import Lox.Report.Style

/-!
# Runtime errors

What can go wrong while a program runs, and on which line it was noticed. Nothing finer than the
line is known, so a report marks the whole of it.
-/

namespace Lox

namespace RuntimeError

inductive Cause where
  | notNumber
  | notNumbers
  | notAddable
  | undefined (name : String)
  | notCallable
  | wrongArity (expected actual : Nat)
  | stackOverflow
  deriving DecidableEq, Repr

namespace Cause

def code : Cause → String
  | notNumber => "RT001"
  | notNumbers => "RT002"
  | notAddable => "RT003"
  | undefined _ => "RT004"
  | notCallable => "RT005"
  | wrongArity .. => "RT006"
  | stackOverflow => "RT007"

def message : Cause → String
  | notNumber => "Operand must be a number."
  | notNumbers => "Operands must be numbers."
  | notAddable => "Operands must be two numbers or two strings."
  | undefined name => "Undefined variable '" ++ name ++ "'."
  | notCallable => "Can only call functions and classes."
  | wrongArity expected actual =>
    "Expected " ++ toString expected ++ " arguments but got " ++ toString actual ++ "."
  | stackOverflow => "Stack overflow."

def inspect : Cause → String
  | notNumber => "NonNumeric"
  | notNumbers => "NonNumerics"
  | notAddable => "NonAddable"
  | undefined name => Inspect.tuple "UndefinedVariable" [Text.quoted name]
  | notCallable => "NotCallable"
  | wrongArity expected actual =>
    Inspect.record "ArityMismatch" [
      ("expected", Inspect.nat expected),
      ("actual", Inspect.nat actual)]
  | stackOverflow => "StackOverflow"

end Cause

end RuntimeError

structure RuntimeError where
  cause : RuntimeError.Cause
  line : Nat
  deriving DecidableEq, Repr

namespace RuntimeError

def inspect (error : RuntimeError) : String :=
  Inspect.record "RuntimeError" [
    ("kind", error.cause.inspect),
    ("line", Inspect.nat error.line)]

/-- The error in two lines, the second one for the place. -/
def summary (error : RuntimeError) : String :=
  error.cause.message ++ "\n[line " ++ toString error.line ++ "]"

def diagnostic (error : RuntimeError) (text : String) : Diagnostic :=
  ⟨error.cause.code, error.cause.message, "Raised on line " ++ toString error.line,
    .ofLine text.toList error.line⟩

def render (error : RuntimeError) (style : Style) (source : Source) : String :=
  match style with
  | .basic => error.summary
  | .pretty => (error.diagnostic source.text).render source
  | .debug => error.inspect

end RuntimeError

end Lox
