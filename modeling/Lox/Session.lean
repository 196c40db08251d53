import Lox.Eval.Evaluator
import Lox.Grammar.Program
import Lox.Token.Scanner

/-!
# Sessions

A session runs one text after the other and keeps what they bound at top level. A text with errors
in it is still run as far as it parsed. The report of a run lists the lexical errors, then the
syntax errors, then the runtime error.
-/

namespace Lox

/-- The outcome of one text. -/
structure RunReport where
  output : String
  /-- The rendered errors in the order they were found. -/
  diagnostics : List String
  hadCompileError : Bool
  runtimeError : Option RuntimeError

namespace RunReport

/-- Errors of the text come before errors of the run. -/
def exitCode (report : RunReport) : Nat :=
  if report.hadCompileError then 65 else if report.runtimeError.isSome then 70 else 0

end RunReport

structure Session where
  machine : Machine
  globals : ScopeId
  style : Style

namespace Session

def start (clock : Clock) (style : Style := .basic) : Session :=
  let (globals, machine) := Machine.addGlobals { clock }
  { machine, globals, style }

/-- The session with another clock from now on. -/
def withClock (session : Session) (clock : Clock) : Session :=
  { session with machine := { session.machine with clock } }

inductive Failure where
  | missingValue (token : Token)
  | fault (fault : Fault)

/-- Runs statements at top level. What a top-level `return` yields is dropped. -/
def interpret (fuel : Nat) (session : Session) (statements : List Statement) :
    Except Fault (Option RuntimeError × Session) :=
  match Run.executeAll fuel session.globals statements session.machine with
  | .ok _ machine => .ok (none, { session with machine })
  | .error (.raised error) machine => .ok (some error, { session with machine })
  | .error (.fault fault) _ => .error fault

def run (fuel : Nat) (session : Session) (source : Source) :
    Except Failure (RunReport × Session) := do
  let scan := Scan.ofText source.text
  let program ← match Program.ofTokens scan.tokens with
    | .ok program => pure program
    | .error ⟨token⟩ => throw (.missingValue token)
  let fresh := { session with machine := { session.machine with output := "" } }
  let (raised, after) ← (interpret fuel fresh program.statements).mapError .fault
  let report := {
    output := after.machine.output
    diagnostics :=
      scan.errors.map (·.render session.style source)
        ++ program.errors.map (·.render session.style source)
        ++ raised.toList.map (·.render session.style source)
    hadCompileError := scan.hasErrors || program.hasErrors
    runtimeError := raised }
  return (report, after)

def inspectInterpreter (session : Session) : String :=
  Inspect.record "TreeWalkInterpreter" [
    ("globals", session.machine.store.inspect session.globals),
    ("call_depth", Inspect.record "Cell" [("value", Inspect.nat session.machine.callDepth)])]

def inspect (session : Session) : String :=
  Inspect.record "Session" [
    ("interpreter", session.inspectInterpreter),
    ("style", session.style.inspect)]

end Session

end Lox
