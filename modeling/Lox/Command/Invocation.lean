import Lox.Report.Style

/-!
# Invocations

What the command line asks for. Without a path the program becomes a prompt. The style of
diagnostics may be chosen before or behind the name of a routine, and the nearer choice holds.
-/

namespace Lox

/-- The ways in which a parsed expression is written. -/
inductive ExpressionFormat where
  | operatorFirst
  | debug
  deriving DecidableEq, Repr, Inhabited

namespace ExpressionFormat

def ofName? : String → Option ExpressionFormat
  | "sexpr" => some .operatorFirst
  | "debug" => some .debug
  | _ => none

end ExpressionFormat

inductive Routine where
  | run (path : String)
  | tokenize (path : String) (format : Style)
  | parse (path : String) (format : ExpressionFormat)
  | prompt
  | version
  deriving DecidableEq, Repr

namespace Routine

def path? : Routine → Option String
  | run path | tokenize path _ | parse path _ => some path
  | prompt | version => none

end Routine

structure Invocation where
  routine : Routine
  style : Style := .basic
  deriving DecidableEq, Repr

namespace Invocation

/-- The routines with a name, each of which takes a path. -/
inductive Verb where
  | run
  | tokenize
  | parse
  deriving DecidableEq

def Verb.ofName? : String → Option Verb
  | "run" => some .run
  | "tokenize" => some .tokenize
  | "parse" => some .parse
  | _ => none

/-- The arguments read so far. -/
structure Draft where
  verb : Option Verb := none
  /-- A style chosen before the verb, and one chosen behind it. -/
  outerStyle : Option Style := none
  innerStyle : Option Style := none
  format : Option String := none
  /-- A path before the verb, and one behind it. -/
  outerPath : Option String := none
  innerPath : Option String := none
  version : Bool := false

namespace Draft

/-- A style may be chosen once on either side of the verb. -/
def withStyle (draft : Draft) (name : String) : Option Draft := do
  let style ← Style.ofName? name
  match draft.verb, draft.outerStyle, draft.innerStyle with
  | none, none, _ => return { draft with outerStyle := some style }
  | some _, _, none => return { draft with innerStyle := some style }
  | _, _, _ => none

/-- Only verbs that print something have a format, and it is chosen once. -/
def withFormat (draft : Draft) (name : String) : Option Draft :=
  match draft.verb, draft.format with
  | some .tokenize, none | some .parse, none => some { draft with format := some name }
  | _, _ => none

def withPath (draft : Draft) (path : String) : Option Draft :=
  match draft.verb, draft.outerPath, draft.innerPath with
  | none, none, _ => some { draft with outerPath := some path }
  | some _, _, none => some { draft with innerPath := some path }
  | _, _, _ => none

def finish (draft : Draft) : Option Invocation := do
  let style := (draft.innerStyle <|> draft.outerStyle).getD .basic
  if draft.version then return ⟨.version, style⟩
  else match draft.verb with
    | none => return ⟨draft.outerPath.elim .prompt .run, style⟩
    | some .run => return ⟨.run (← draft.innerPath), style⟩
    | some .tokenize =>
      return ⟨.tokenize (← draft.innerPath) (← Style.ofName? (draft.format.getD "basic")), style⟩
    | some .parse =>
      return ⟨.parse (← draft.innerPath) (← ExpressionFormat.ofName? (draft.format.getD "sexpr")),
        style⟩

end Draft

/-- The value of an option that is written together with its name. -/
def attached? (name argument : String) : Option String :=
  let start := name.toList ++ ['=']
  if start.isPrefixOf argument.toList then
    some (String.ofList (argument.toList.drop start.length))
  else none

/-- Holds for the options that ask for more to be logged. -/
def isVerbosity (argument : String) : Bool :=
  argument = "--verbose" || match argument.toList with
    | '-' :: 'v' :: rest => rest.all (· = 'v')
    | _ => false

def readArguments : Draft → List String → Option Draft
  | draft, [] => some draft
  | draft, "--" :: rest => rest.foldlM Draft.withPath draft
  | draft, "--errors" :: name :: rest => do readArguments (← draft.withStyle name) rest
  | draft, "--format" :: name :: rest => do readArguments (← draft.withFormat name) rest
  | draft, argument :: rest =>
    if isVerbosity argument then readArguments draft rest
    else if argument = "--version" || argument = "-V" then
      if draft.verb.isNone then some { draft with version := true } else none
    else match attached? "--errors" argument, attached? "--format" argument with
      | some name, _ => do readArguments (← draft.withStyle name) rest
      | none, some name => do readArguments (← draft.withFormat name) rest
      | none, none =>
        if argument.startsWith "-" && argument ≠ "-" then none
        else match draft.verb, Verb.ofName? argument with
          | none, some verb => readArguments { draft with verb := some verb } rest
          | _, _ => do readArguments (← draft.withPath argument) rest

/-- The invocation that a list of arguments spells, if it spells one. -/
def ofArguments? (arguments : List String) : Option Invocation := do
  (← readArguments {} arguments).finish

end Invocation

end Lox
