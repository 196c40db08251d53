import Lox.Syntax.Expression

/-!
# Statements

Declarations and statements. A `for` loop has no form of its own, since it stands for a block
around a `while` loop.
-/

namespace Lox

inductive Statement where
  | varDecl (name : Identifier) (initial : Option Expression)
  | funDecl (name : Identifier) (parameters : List Identifier) (body : List Statement)
  | expression (value : Expression)
  | print (value : Expression)
  | block (body : List Statement)
  | ifThen (condition : Expression) (success : Statement)
  | ifElse (condition : Expression) (success failure : Statement)
  | whileLoop (condition : Expression) (body : Statement)
  | returnWith (value : Option Expression) (line : Nat)

namespace Statement

/-- Declarations bind a name and stand only where a block or a program lists its entries. -/
def isDeclaration : Statement → Bool
  | varDecl .. | funDecl .. => true
  | _ => false

/-- The word that marks a statement where a block or a program lists it. -/
def entryMark (statement : Statement) : String :=
  if statement.isDeclaration then "Declaration" else "NonDeclaration"

mutual

def inspect : Statement → String
  | varDecl name initial =>
    Inspect.record "Variable" [
      ("name", name.inspect),
      ("initial", Inspect.option Expression.inspect initial)]
  | funDecl name parameters body =>
    Inspect.tuple "Function" [Inspect.record "FunctionDecl" [
      ("name", name.inspect),
      ("parameters", Inspect.list (parameters.map Identifier.inspect)),
      ("body", Inspect.list (inspectEntries body))]]
  | expression value => Inspect.tuple "Expression" [value.inspect]
  | print value => Inspect.tuple "Print" [value.inspect]
  | block body => Inspect.tuple "Block" [Inspect.list (inspectEntries body)]
  | ifThen condition success =>
    Inspect.record "If" [
      ("condition", condition.inspect),
      ("success", success.inspect),
      ("failure", "None")]
  | ifElse condition success failure =>
    Inspect.record "If" [
      ("condition", condition.inspect),
      ("success", success.inspect),
      ("failure", Inspect.tuple "Some" [failure.inspect])]
  | whileLoop condition body =>
    Inspect.record "While" [("condition", condition.inspect), ("body", body.inspect)]
  | returnWith value line =>
    Inspect.record "Return" [
      ("value", Inspect.option Expression.inspect value),
      ("line", Inspect.nat line)]

/-- The entries of a list, each with its mark. -/
def inspectEntries : List Statement → List String
  | [] => []
  | statement :: rest =>
    Inspect.tuple statement.entryMark [statement.inspect] :: inspectEntries rest

end

/-- A statement where a program or a block lists it. -/
def inspectEntry (statement : Statement) : String :=
  Inspect.tuple statement.entryMark [statement.inspect]

end Statement

end Lox
