import Lox.Syntax.Expression

/-!
# Syntax trees

The tree that an expression stands for. It is read off the table of nodes in one pass, since the
operands of a node have their trees before it. A tree is rendered with every operator in front of
its operands and parentheses around both.
-/

namespace Lox

inductive Tree where
  | literal (value : Literal)
  | var (name : Identifier)
  | group (inner : Tree)
  | unary (operator : UnaryOperator) (operand : Tree) (line : Nat)
  | binary (operator : BinaryOperator) (left right : Tree) (line : Nat)
  | logical (operator : LogicalOperator) (left right : Tree)
  | assign (name : Identifier) (value : Tree)
  | call (callee : Tree) (arguments : List Tree) (line : Nat)

namespace Tree

mutual

/-- A tree with every operator in front of its operands. -/
def render : Tree → String
  | literal value => value.render
  | var name => name.name
  | group inner => "(group " ++ inner.render ++ ")"
  | unary operator operand _ => "(" ++ operator.symbol ++ " " ++ operand.render ++ ")"
  | binary operator left right _ =>
    "(" ++ operator.symbol ++ " " ++ left.render ++ " " ++ right.render ++ ")"
  | logical operator left right =>
    "(" ++ operator.symbol ++ " " ++ left.render ++ " " ++ right.render ++ ")"
  | assign name value => "(= " ++ name.name ++ " " ++ value.render ++ ")"
  | call callee arguments _ => "(call " ++ callee.render ++ renderArguments arguments ++ ")"

def renderArguments : List Tree → String
  | [] => ""
  | argument :: rest => " " ++ argument.render ++ renderArguments rest

end

end Tree

namespace Node

/-- The tree of a node, given those of the nodes before it. -/
def tree? (earlier : Array Tree) : Node → Option Tree
  | literal value => some (.literal value)
  | var name => some (.var name)
  | group inner => do return .group (← earlier[inner]?)
  | unary operator operand line => do return .unary operator (← earlier[operand]?) line
  | binary operator left right line => do
    return .binary operator (← earlier[left]?) (← earlier[right]?) line
  | logical operator left right => do
    return .logical operator (← earlier[left]?) (← earlier[right]?)
  | assign name value => do return .assign name (← earlier[value]?)
  | call callee arguments line => do
    return .call (← earlier[callee]?) (← arguments.mapM (earlier[·]?)) line

end Node

namespace Expression

/-- The trees of all nodes of a table, or nothing if a node refers to none before it. -/
def trees? (nodes : List Node) (earlier : Array Tree) : Option (Array Tree) :=
  nodes.foldlM (fun trees node => do return trees.push (← node.tree? trees)) earlier

def tree? (expression : Expression) : Option Tree := do
  (← trees? expression.nodes.toList #[])[expression.root]?

end Expression

end Lox
