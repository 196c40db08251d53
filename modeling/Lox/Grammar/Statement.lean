import Lox.Grammar.Expression
import Lox.Syntax.Statement

/-!
# The grammar of statements

Declarations stand in programs and blocks, where each of them recovers from its own syntax errors;
branches and loop bodies are statements. A statement and a function declaration open a level each.
As with expressions, rules take what they contain as parameters, and `statement` and `function` tie
the knot on the number of levels that are free.
-/

namespace Lox.Grammar

structure Parts where
  expression : Rule Expression
  statement : Rule Statement
  function : Rule Statement

def varDeclaration (expression : Rule Expression) : Rule Statement := do
  let name ← expect .identifier "Expect variable name."
  let initial ← match ← eat? .equal with
    | some _ => some <$> expression
    | none => pure none
  let _ ← expect .semicolon "Expect ';' after variable declaration."
  return .varDecl (.ofToken name) initial

/-- A declaration, or nothing where one had to be abandoned. -/
def declarationRule (parts : Parts) : Rule (Option Statement) := recovering do
  if (← eat? (.keyword .varWord)).isSome then varDeclaration parts.expression
  else if (← eat? (.keyword .funWord)).isSome then parts.function
  else parts.statement

/-- The declarations up to a closing brace or the end. Those that were abandoned are left out. -/
def entries (declaration : Rule (Option Statement)) :
    (budget : List Token) → (earlier : Array Statement) → Rule (List Statement)
  | [], earlier => return earlier.toList
  | _ :: budget, earlier => do
    if (← check .rightBrace) || (← peek).isEnd then return earlier.toList
    else match ← declaration with
      | some statement => entries declaration budget (earlier.push statement)
      | none => entries declaration budget earlier

def block (declaration : Rule (Option Statement)) : Rule (List Statement) := do
  let statements ← entries declaration (← get).rest #[]
  let _ ← expect .rightBrace "Expect '\x7d' after block."
  return statements

def parameter : Rule Identifier := do
  return .ofToken (← expect .identifier "Expect parameter name.")

def functionRule (declaration : Rule (Option Statement)) : Rule Statement := do
  let name ← expect .identifier "Expect function name."
  let _ ← expect .leftParen "Expect '(' after function name."
  let parameters ← commaSeparated parameter .tooManyParameters
  let _ ← expect .rightParen "Expect ')' after parameters."
  let _ ← expect .leftBrace "Expect '\x7b' before function body."
  let body ← inFunction (block declaration)
  return .funDecl (.ofToken name) parameters body

def expressionStatement (expression : Rule Expression) : Rule Statement := do
  let value ← expression
  let _ ← expect .semicolon "Expect ';' after expression."
  return .expression value

def printStatement (expression : Rule Expression) : Rule Statement := do
  let value ← expression
  let _ ← expect .semicolon "Expect ';' after value."
  return .print value

def returnStatement (expression : Rule Expression) (keyword : Token) : Rule Statement := do
  if (← get).functionDepth = 0 then report .returnOutsideFunction keyword
  let value ← if ← check .semicolon then pure none else some <$> expression
  let _ ← expect .semicolon "Expect ';' after return value."
  return .returnWith value keyword.line

/-- What follows `if`. An `else` belongs to the nearest `if` before it. -/
def ifStatement (expression : Rule Expression) (statement : Rule Statement) : Rule Statement := do
  let _ ← expect .leftParen "Expect '(' after 'if'."
  let condition ← expression
  let _ ← expect .rightParen "Expect ')' after if condition."
  let success ← statement
  match ← eat? (.keyword .elseWord) with
  | some _ => return .ifElse condition success (← statement)
  | none => return .ifThen condition success

def whileStatement (expression : Rule Expression) (statement : Rule Statement) :
    Rule Statement := do
  let _ ← expect .leftParen "Expect '(' after 'while'."
  let condition ← expression
  let _ ← expect .rightParen "Expect ')' after condition."
  return .whileLoop condition (← statement)

/-- The initializer of a `for` loop with its semicolon. -/
def initializer (expression : Rule Expression) : Rule (Option Statement) := do
  if (← eat? .semicolon).isSome then return none
  else if (← eat? (.keyword .varWord)).isSome then return some (← varDeclaration expression)
  else return some (← expressionStatement expression)

/-- An expression, unless the token that ends the clause is ahead. -/
def clause (expression : Rule Expression) (closing : TokenKind) : Rule (Option Expression) := do
  if ← check closing then return none else return some (← expression)

/-- The loop that a `for` loop stands for. A missing condition holds always. -/
def forLoop (initial : Option Statement) (condition increment : Option Expression)
    (body : Statement) : Statement :=
  let repeated := match increment with
    | some step => .block [body, .expression step]
    | none => body
  let loop := .whileLoop (condition.getD (.ofLiteral (.bool true))) repeated
  match initial with
  | some first => .block [first, loop]
  | none => loop

def forStatement (expression : Rule Expression) (statement : Rule Statement) : Rule Statement := do
  let _ ← expect .leftParen "Expect '(' after 'for'."
  let initial ← initializer expression
  let condition ← clause expression .semicolon
  let _ ← expect .semicolon "Expect ';' after loop condition."
  let increment ← clause expression .rightParen
  let _ ← expect .rightParen "Expect ')' after for clauses."
  return forLoop initial condition increment (← statement)

/-- A statement, told apart by its first token. -/
def statementRule (parts : Parts) : Rule Statement := do
  let token ← peek
  match token.kind with
  | .keyword .forWord =>
    let _ ← advance
    forStatement parts.expression parts.statement
  | .keyword .ifWord =>
    let _ ← advance
    ifStatement parts.expression parts.statement
  | .keyword .printWord =>
    let _ ← advance
    printStatement parts.expression
  | .keyword .returnWord =>
    let keyword ← advance
    returnStatement parts.expression keyword
  | .keyword .whileWord =>
    let _ ← advance
    whileStatement parts.expression parts.statement
  | .leftBrace =>
    let _ ← advance
    return .block (← block (declarationRule parts))
  | _ => expressionStatement parts.expression

mutual

/-- A statement, one level deeper, where so many levels are free. -/
def statement : (levels : Nat) → Rule Statement
  | 0 => reject .tooDeep
  | levels + 1 => nested (statementRule ⟨expression levels, statement levels, function levels⟩)

def function : (levels : Nat) → Rule Statement
  | 0 => reject .tooDeep
  | levels + 1 =>
    nested (functionRule (declarationRule ⟨expression levels, statement levels, function levels⟩))

end

def declaration (levels : Nat) : Rule (Option Statement) :=
  declarationRule ⟨expression levels, statement levels, function levels⟩

end Lox.Grammar
