import Lox.Command.Invocation
import Lox.Session
import Lox.Syntax.Tree
import Lox.Text.Blank

/-!
# Transcripts

What an invocation writes and the code it exits with. Results go to the output and diagnostics to
the error stream, each of them as a line. Files are given by their contents, and a prompt by the
lines typed at it.
-/

namespace Lox

/-- The exit code where the text had errors. -/
def compileErrorCode : Nat := 65

/-- The exit code where a file could not be read. -/
def unreadableCode : Nat := 74

/-- What the program calls itself and its version. -/
def versionText : String := "ferrox 0.1.0"

/-- Why a file has no text. -/
inductive Unreadable where
  | missing
  | directory
  | notText
  | other (reason : String)
  deriving DecidableEq, Repr

def Unreadable.reason : Unreadable → String
  | missing => "No such file or directory (os error 2)"
  | directory => "Is a directory (os error 21)"
  | notText => "stream did not contain valid UTF-8"
  | other reason => reason

abbrev Content := Except Unreadable String

inductive Write where
  | out (text : String)
  | err (text : String)
  deriving DecidableEq, Repr

namespace Write

def outLine (text : String) : Write :=
  .out (text ++ "\n")

def errLine (text : String) : Write :=
  .err (text ++ "\n")

end Write

structure Transcript where
  writes : List Write
  code : Nat
  deriving DecidableEq, Repr

namespace Transcript

def stdout (transcript : Transcript) : String :=
  String.join (transcript.writes.map fun write => match write with
    | .out text => text
    | .err _ => "")

def stderr (transcript : Transcript) : String :=
  String.join (transcript.writes.map fun write => match write with
    | .out _ => ""
    | .err text => text)

end Transcript

/-- What a run writes: the text it printed, then its diagnostics. -/
def RunReport.writes (report : RunReport) : List Write :=
  .out report.output :: report.diagnostics.map .errLine

namespace Command

def tokenize (source : Source) (format : Style) : Transcript :=
  let items := items source.text
  let write (item : Item) : Write := match item with
    | .ok token => .outLine (token.render format)
    | .error error => .errLine (error.render format source)
  let failed := items.any fun item => match item with
    | .ok _ => false
    | .error _ => true
  ⟨items.map write, if failed then compileErrorCode else 0⟩

/-- The text of an expression in a format. A table without a tree has no operator-first form. -/
def renderExpression (format : ExpressionFormat) (expression : Expression) : String :=
  match format with
  | .operatorFirst => expression.tree?.elim "" Tree.render
  | .debug => expression.inspect

/-- Parses a text as one expression. The format chosen for it also decides on that of syntax errors,
but lexical errors have one line each. -/
def parse (source : Source) (format : ExpressionFormat) : Except Session.Failure Transcript := do
  let scan := Scan.ofText source.text
  let lexical := scan.errors.map fun error => Write.errLine error.summary
  let style : Style := match format with
    | .operatorFirst => .basic
    | .debug => .debug
  match Expression.ofTokens scan.tokens with
  | .ok (.ok expression) =>
    return ⟨lexical ++ [.outLine (renderExpression format expression)],
      if scan.hasErrors then compileErrorCode else 0⟩
  | .ok (.error errors) =>
    return ⟨lexical ++ errors.map (Write.errLine <| ·.render style source), compileErrorCode⟩
  | .error ⟨token⟩ => throw (.missingValue token)

/-- Runs a text in a session of its own. -/
def runText (fuel : Nat) (clock : Clock) (style : Style) (source : Source) :
    Except Session.Failure Transcript := do
  let (report, _) ← (Session.start clock style).run fuel source
  return ⟨report.writes, report.exitCode⟩

def promptMark : String := "> "

/-- Holds for the line that ends a prompt. -/
def isExit (line : String) : Bool :=
  Text.trim line.toList = "exit".toList

def answerLine (fuel : Nat) (session : Session) (line : String) :
    Except Session.Failure (List Write × Session) := do
  let (report, after) ← session.run fuel ⟨"<stdin>", line⟩
  return (report.writes, after)

/-- Runs the lines typed at a prompt, up to one that ends it. -/
def prompt (fuel : Nat) (session : Session) : List String → Except Session.Failure (List Write)
  | [] => return [.out promptMark]
  | line :: rest =>
    if isExit line then return [.out promptMark]
    else do
      let (writes, after) ← answerLine fuel session line
      return .out promptMark :: writes ++ (← prompt fuel after rest)

/-- The lines of what is typed, without their ends, which are line feeds that may stand behind a
carriage return. -/
def inputLines (input : String) : List String :=
  (Text.splitFeeds input.toList []).map fun line =>
    match line.reverse with
    | '\n' :: '\r' :: rest | '\n' :: rest => String.ofList rest.reverse
    | _ => String.ofList line

def onText (fuel : Nat) (clock : Clock) (invocation : Invocation) (source : Source) :
    Except Session.Failure Transcript :=
  match invocation.routine with
  | .tokenize _ format => return tokenize source format
  | .parse _ format => parse source format
  | _ => runText fuel clock invocation.style source

/-- What is written about a file that cannot be read. -/
def unreadable (path : String) (why : Unreadable) : Transcript :=
  ⟨[.errLine ("Could not read " ++ path ++ ": " ++ why.reason)], unreadableCode⟩

/-- The transcript of an invocation, given the contents of files and what is typed. -/
def transcript (fuel : Nat) (clock : Clock) (contents : String → Content) (input : String)
    (invocation : Invocation) : Except Session.Failure Transcript := do
  match invocation.routine, invocation.routine.path? with
  | .version, _ => return ⟨[.outLine versionText], 0⟩
  | _, some path =>
    match contents path with
    | .ok text => onText fuel clock invocation ⟨path, text⟩
    | .error why => return unreadable path why
  | _, none =>
    let session := Session.start clock invocation.style
    return ⟨← prompt fuel session (inputLines input), 0⟩

end Command

end Lox
