import Lox.Grammar.Statement

/-!
# Programs

A program is the list of its declarations, with nothing in the place of those that were abandoned,
and the errors that were noticed. A list of tokens may also be read as a single expression, and then
any error at all is fatal.
-/

namespace Lox

structure Program where
  declarations : List (Option Statement)
  errors : List SyntaxError

namespace Grammar

def declarations : (budget : List Token) → (earlier : Array (Option Statement)) →
    Rule (List (Option Statement))
  | [], earlier => return earlier.toList
  | _ :: budget, earlier => do
    if (← peek).isEnd then return earlier.toList
    else declarations budget (earlier.push (← declaration maxNesting))

def onlyExpression : Rule Expression := do
  let parsed ← expression maxNesting
  let _ ← expect .eof "Expect end of expression."
  return parsed

end Grammar

/-- A number or string token that reached the grammar without its value. -/
structure MissingValue where
  token : Token

namespace Program

/-- Parses tokens as a program. Only a literal token without its value stops it. Declarations
recover from syntax errors, so none is left over at the end. -/
def ofTokens (tokens : List Token) : Except MissingValue Program :=
  match Grammar.declarations tokens #[] (.ofTokens tokens) with
  | .ok declarations state => .ok ⟨declarations, state.errors.toList⟩
  | .error (.rejected error) state => .ok ⟨[], (state.errors.push error).toList⟩
  | .error (.missingValue token) _ => .error ⟨token⟩

def statements (program : Program) : List Statement :=
  program.declarations.filterMap id

def hasErrors (program : Program) : Bool :=
  !program.errors.isEmpty

/-- The declarations as a list of values that may be missing. -/
def inspect (program : Program) : String :=
  Inspect.list (program.declarations.map (Inspect.option Statement.inspectEntry))

end Program

namespace Expression

/-- Parses tokens as one expression, or yields all errors. -/
def ofTokens (tokens : List Token) : Except MissingValue (Except (List SyntaxError) Expression) :=
  match Grammar.onlyExpression (.ofTokens tokens) with
  | .ok parsed state =>
    .ok (if state.errors.isEmpty then .ok parsed else .error state.errors.toList)
  | .error (.rejected error) state => .ok (.error (state.errors.push error).toList)
  | .error (.missingValue token) _ => .error ⟨token⟩

end Expression

end Lox
