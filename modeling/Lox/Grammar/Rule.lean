import Lox.Grammar.Error
import Lox.Syntax.Expression

/-!
# Grammar rules

A rule reads tokens from the front of what is left and yields what they stand for. It sees one
token ahead. A rule that cannot go on fails with a syntax error at the token ahead; a fault that
leaves the declaration sound is recorded and the rule goes on.

Rules that may contain themselves are run one level deeper by `nested`, which fails once
`maxNesting` levels are open, and closes its level however the rule ends. Rules that repeat descend
on the tokens that were left when they started, their `budget`: each round reads at least one.
-/

namespace Lox.Grammar

structure State where
  /-- The tokens that are left, the end not among them. -/
  rest : List Token
  /-- The end, which is ahead once nothing is left. -/
  ending : Token
  errors : Array SyntaxError := #[]
  nesting : Nat := 0
  functionDepth : Nat := 0
  nodes : Array Node := #[]

inductive Failure where
  | rejected (error : SyntaxError)
  /-- A number or string token without its value is no input of the grammar. -/
  | missingValue (token : Token)

abbrev Rule := EStateM Failure State

namespace State

/-- The token that ends a list without one. -/
def endOf (tokens : List Token) : Token :=
  match tokens.getLast? with
  | some last => if last.isEnd then last else .atEnd last.span.stop last.line
  | none => .atEnd 0 1

/-- The state in front of a list of tokens. Nothing behind the first end is read. -/
def ofTokens (tokens : List Token) : State :=
  { rest := tokens.takeWhile (!·.isEnd)
    ending := (tokens.find? Token.isEnd).getD (endOf tokens) }

def ahead (state : State) : Token :=
  state.rest.headD state.ending

end State

variable {α : Type}

def peek : Rule Token := do
  return (← get).ahead

def check (kind : TokenKind) : Rule Bool := do
  return (← peek).kind == kind

/-- Reads the token ahead, which may be the end again and again. -/
def advance : Rule Token := do
  let token ← peek
  modify fun state => { state with rest := state.rest.tail }
  return token

def eat? (kind : TokenKind) : Rule (Option Token) := do
  if ← check kind then return some (← advance) else return none

def reject (cause : SyntaxError.Cause) : Rule α := do
  throw (.rejected ⟨cause, ← peek⟩)

def expect (kind : TokenKind) (message : String) : Rule Token := do
  match ← eat? kind with
  | some token => return token
  | none => reject (.unexpected kind message)

def report (cause : SyntaxError.Cause) (token : Token) : Rule Unit :=
  modify fun state => { state with errors := state.errors.push ⟨cause, token⟩ }

/-- Runs a rule one level deeper, unless all levels are open. -/
def nested (rule : Rule α) : Rule α := fun state =>
  if maxNesting ≤ state.nesting then reject .tooDeep state
  else match rule { state with nesting := state.nesting + 1 } with
    | .ok value after => .ok value { after with nesting := after.nesting - 1 }
    | .error failure after => .error failure { after with nesting := after.nesting - 1 }

def inFunction (rule : Rule α) : Rule α := fun state =>
  match rule { state with functionDepth := state.functionDepth + 1 } with
  | .ok value after => .ok value { after with functionDepth := after.functionDepth - 1 }
  | .error failure after => .error failure { after with functionDepth := after.functionDepth - 1 }

def addNode (node : Node) : Rule Nat := do
  let index := (← get).nodes.size
  modify fun state => { state with nodes := state.nodes.push node }
  return index

/-- Runs a rule that yields the root of an expression of its own. -/
def building (rule : Rule Nat) : Rule Expression := fun state =>
  match rule { state with nodes := #[] } with
  | .ok root after => .ok ⟨after.nodes, root⟩ { after with nodes := state.nodes }
  | .error failure after => .error failure { after with nodes := state.nodes }

/-- An item behind so many others. One beyond the most that are allowed is recorded as excess. -/
def counted (item : Rule α) (excess : SyntaxError.Cause) (earlier : Nat) : Rule α := do
  if maxArity ≤ earlier then report excess (← peek)
  item

/-- An item behind earlier ones, and further ones as long as a comma follows. -/
def items (item : Rule α) (excess : SyntaxError.Cause) :
    (budget : List Token) → (earlier : Array α) → Rule (List α)
  | [], earlier => do
    return (earlier.push (← counted item excess earlier.size)).toList
  | _ :: budget, earlier => do
    let parsed := earlier.push (← counted item excess earlier.size)
    match ← eat? .comma with
    | some _ => items item excess budget parsed
    | none => return parsed.toList

def commaSeparated (item : Rule α) (excess : SyntaxError.Cause) : Rule (List α) := do
  if ← check .rightParen then return []
  else items item excess (← get).rest #[]

/-- The tokens at which parsing goes on after the last token read: behind a semicolon, in front of
a token that starts a statement, or at the end. -/
def resumption : (last : Token) → List Token → List Token
  | _, [] => []
  | last, token :: rest =>
    if last.kind = .semicolon || token.kind.startsStatement then token :: rest
    else resumption token rest

def synchronize : List Token → List Token
  | [] => []
  | skipped :: rest => resumption skipped rest

/-- Runs a rule. If it fails with a syntax error, the error is recorded and tokens are skipped up to
where parsing goes on. -/
def recovering (rule : Rule α) : Rule (Option α) := fun state =>
  match rule state with
  | .ok value after => .ok (some value) after
  | .error (.rejected error) after =>
    .ok none { after with errors := after.errors.push error, rest := synchronize after.rest }
  | .error failure after => .error failure after

end Lox.Grammar
