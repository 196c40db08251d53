import Lox.Command.Transcript
import Std.Time.DateTime.Timestamp

/-!
# The command line

Reads files and typed lines, hands them to the commands and writes what they answer.
-/

namespace Lox.Command

/-- More than any run can use up. -/
private def ample : Nat := 1 <<< 62

private def usage : String :=
  "Usage: ferrox [--errors basic|pretty|debug] [PATH | run PATH | tokenize PATH | parse PATH]"

/-- A clock that starts at the present time and goes on by a microsecond with each reading. A run
depends on its readings alone, so they are settled before it starts. -/
private def clockNow : IO Clock := do
  let start := (← Std.Time.Timestamp.now).toNanosecondsSinceUnixEpoch.val.toNat
  return { reading := fun count => (start + 1000 * count).toFloat / 1.0e9 }

private def perform : Write → IO Unit
  | .out text => do
    let stream ← IO.getStdout
    stream.putStr text
    stream.flush
  | .err text => do
    let stream ← IO.getStderr
    stream.putStr text
    stream.flush

private def complain (failure : Session.Failure) : IO UInt32 := do
  perform <| .errLine <| match failure with
    | .missingValue _ => "A literal token has no value."
    | .fault .outOfFuel => "The run is too long."
    | .fault .danglingNode => "An expression refers to no node."
  return 1

private def readContent (path : String) : IO Content := do
  try
    match String.fromUTF8? (← IO.FS.readBinFile path) with
    | some text => return .ok text
    | none => return .error .notText
  catch failure => match failure with
    | .noFileOrDirectory .. => return .error .missing
    | .inappropriateType .. => return .error .directory
    | other => return .error (.other (toString other))

private partial def converse (session : Session) : IO UInt32 := do
  perform (.out promptMark)
  let typed ← (← IO.getStdin).getLine
  match inputLines typed with
  | [] => return 0
  | line :: _ =>
    if isExit line then return 0
    match answerLine ample (session.withClock (← clockNow)) line with
    | .ok (writes, after) =>
      writes.forM perform
      converse after
    | .error failure => complain failure

private def follow (invocation : Invocation) : IO UInt32 := do
  let clock ← clockNow
  match invocation.routine, invocation.routine.path? with
  | .prompt, _ => converse (Session.start clock invocation.style)
  | _, path? =>
    let content ← match path? with
      | some path => readContent path
      | none => pure (.ok "")
    match transcript ample clock (fun _ => content) "" invocation with
    | .ok transcript =>
      transcript.writes.forM perform
      return transcript.code.toUInt32
    | .error failure => complain failure

end Lox.Command

def main (arguments : List String) : IO UInt32 :=
  match Lox.Invocation.ofArguments? arguments with
  | some invocation => Lox.Command.follow invocation
  | none => do
    (← IO.getStderr).putStrLn Lox.Command.usage
    return 2
