import Lox.Number.Notation
import Lox.Syntax.Operator
import Lox.Text.Inspect
import Lox.Token.Basic

/-!
# Expressions

An expression is a table of nodes and the index of its root. Operands are indices into the same
table, and a node is added only after its operands, so they always come before it. A node that was
parsed but is not part of the expression, such as the target of an assignment, stays in the table
and is simply not referred to.
-/

namespace Lox

/-- A name and the line it is written on. -/
structure Identifier where
  name : String
  line : Nat
  deriving DecidableEq, Repr

namespace Identifier

def ofToken (token : Token) : Identifier :=
  ⟨token.lexeme, token.line⟩

def inspect (identifier : Identifier) : String :=
  Inspect.record "Ident" [
    ("name", Text.quoted identifier.name),
    ("line", Inspect.nat identifier.line)]

end Identifier

inductive Literal where
  | nil
  | bool (value : Bool)
  | number (value : Float)
  | text (value : String)

namespace Literal

def ofTokenValue : TokenValue → Literal
  | .number value => .number value
  | .text value => .text value

def inspect : Literal → String
  | .nil => "Nil"
  | .bool value => Inspect.tuple "Bool" [Inspect.bool value]
  | .number value => Inspect.tuple "Number" [Number.exact value]
  | .text value => Inspect.tuple "String" [Text.quoted value]

/-- A literal as it stands in a rendered tree, texts without quotes. -/
def render : Literal → String
  | .nil => "nil"
  | .bool value => Inspect.bool value
  | .number value => Number.plain value
  | .text value => value

end Literal

/-- A node of an expression, its operands given by their indices. -/
inductive Node where
  | literal (value : Literal)
  | var (name : Identifier)
  | group (inner : Nat)
  | unary (operator : UnaryOperator) (operand line : Nat)
  | binary (operator : BinaryOperator) (left right line : Nat)
  | logical (operator : LogicalOperator) (left right : Nat)
  | assign (name : Identifier) (value : Nat)
  /-- The line is that of the closing parenthesis. -/
  | call (callee : Nat) (arguments : List Nat) (line : Nat)

namespace Node

private def inspectIndex (index : Nat) : String :=
  Inspect.tuple "ExpressionNodeRef" [Inspect.nat index]

def inspect : Node → String
  | literal value => Inspect.tuple "Literal" [value.inspect]
  | var name => Inspect.tuple "Variable" [name.inspect]
  | group inner => Inspect.record "Group" [("inner", inspectIndex inner)]
  | unary operator operand line =>
    Inspect.record "Unary" [
      ("operator", operator.inspect),
      ("rhs", inspectIndex operand),
      ("line", Inspect.nat line)]
  | binary operator left right line =>
    Inspect.record "Binary" [
      ("operator", operator.inspect),
      ("lhs", inspectIndex left),
      ("rhs", inspectIndex right),
      ("line", Inspect.nat line)]
  | logical operator left right =>
    Inspect.record "Logical" [
      ("operator", operator.inspect),
      ("lhs", inspectIndex left),
      ("rhs", inspectIndex right)]
  | assign name value =>
    Inspect.record "Assign" [("name", name.inspect), ("value", inspectIndex value)]
  | call callee arguments line =>
    Inspect.record "Call" [
      ("callee", inspectIndex callee),
      ("arguments", Inspect.list (arguments.map inspectIndex)),
      ("line", Inspect.nat line)]

/-- The nodes that a node refers to, from left to right. -/
def operands : Node → List Nat
  | literal _ | var _ => []
  | group inner => [inner]
  | unary _ operand _ => [operand]
  | binary _ left right _ | logical _ left right => [left, right]
  | assign _ value => [value]
  | call callee arguments _ => callee :: arguments

end Node

structure Expression where
  nodes : Array Node
  root : Nat

namespace Expression

def ofLiteral (value : Literal) : Expression :=
  ⟨#[.literal value], 0⟩

def inspect (expression : Expression) : String :=
  Inspect.record "Expression" [
    ("nodes", Inspect.list (expression.nodes.toList.map Node.inspect)),
    ("root", Node.inspectIndex expression.root)]

end Expression

end Lox
