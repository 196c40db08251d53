import Lox.Text.Inspect

/-!
# Styles

The three ways in which tokens and diagnostics are rendered.
-/

namespace Lox

inductive Style where
  /-- One line for each. -/
  | basic
  /-- An annotated quotation of the text. -/
  | pretty
  /-- The inspection text of the value. -/
  | debug
  deriving DecidableEq, Repr, Inhabited

namespace Style

def inspect : Style → String
  | .basic => "Basic"
  | .pretty => "Pretty"
  | .debug => "Debug"

def ofName? : String → Option Style
  | "basic" => some .basic
  | "pretty" => some .pretty
  | "debug" => some .debug
  | _ => none

end Style

end Lox
