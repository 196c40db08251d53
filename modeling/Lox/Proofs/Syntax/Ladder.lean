import Lox.Grammar.Error
import Lox.Syntax.Tree

/-!
# How expressions are written

The in-order rendering of a syntax tree as tokens, and the rules that make the tree of such a
rendering unique: how tightly the parts of a tree have to hold together, how many arguments a call
may have, and how many levels are open at the deepest point.

Nothing here knows the parser. `Tree.Written` relates a tree to every list of tokens that spells it,
whatever the spans and lexemes; the lines in a tree are those of its operators, names and closing
parentheses.
-/

namespace Lox

/-- A token of a known kind. -/
structure Mark (kind : TokenKind) where
  token : Token
  isKind : token.kind = kind

/-- A token of a kind that carries nothing but its lexeme and its line. -/
def Mark.plain (kind : TokenKind) (lexeme : String) (line : Nat) : Mark kind :=
  ⟨{ kind, lexeme, span := ⟨0, 0⟩, line }, rfl⟩

namespace Literal

/-- The literal that a token stands for alone. -/
def ofToken? (token : Token) : Option Literal :=
  match token.kind with
  | .keyword .falseWord => some (.bool false)
  | .keyword .trueWord => some (.bool true)
  | .keyword .nilWord => some .nil
  | .number | .string => token.value.map .ofTokenValue
  | _ => none

end Literal

/-! ### The ladder

Places on the ladder go from the loosest to the tightest: assignment 0, `or` 1, `and` 2, the binary
operators 3 to 6, unary operators 7, calls 8, and 9 for what stands alone. -/

def Precedence.place : Precedence → Nat
  | .equality => 3
  | .comparison => 4
  | .sum => 5
  | .product => 6

def LogicalOperator.place : LogicalOperator → Nat
  | .or => 1
  | .and => 2

namespace Tree

def place : Tree → Nat
  | assign .. => 0
  | logical operator .. => operator.place
  | binary operator .. => operator.precedence.place
  | unary .. => 7
  | call .. => 8
  | literal _ | var _ | group _ => 9

mutual

/-- Every operand holds together tightly enough for its place: operators group to the left, and
only assignment groups to the right. -/
def Ordered : Tree → Prop
  | literal _ | var _ => True
  | group inner => inner.Ordered
  | unary _ operand _ => 7 ≤ operand.place ∧ operand.Ordered
  | binary operator left right _ =>
    operator.precedence.place ≤ left.place ∧ operator.precedence.place < right.place ∧
      left.Ordered ∧ right.Ordered
  | logical operator left right =>
    operator.place ≤ left.place ∧ operator.place < right.place ∧ left.Ordered ∧ right.Ordered
  | assign _ value => value.Ordered
  | call callee arguments _ => 8 ≤ callee.place ∧ callee.Ordered ∧ AllOrdered arguments

def AllOrdered : List Tree → Prop
  | [] => True
  | tree :: rest => tree.Ordered ∧ AllOrdered rest

end

mutual

/-- No call has more arguments than are allowed. -/
def ArityBounded : Tree → Prop
  | literal _ | var _ => True
  | group inner => inner.ArityBounded
  | unary _ operand _ => operand.ArityBounded
  | binary _ left right _ | logical _ left right => left.ArityBounded ∧ right.ArityBounded
  | assign _ value => value.ArityBounded
  | call callee arguments _ =>
    callee.ArityBounded ∧ arguments.length ≤ maxArity ∧ AllArityBounded arguments

def AllArityBounded : List Tree → Prop
  | [] => True
  | tree :: rest => tree.ArityBounded ∧ AllArityBounded rest

end

mutual

/-- The levels that are open at the deepest point of a tree, the one of the whole tree aside. A
group, an argument, the value of an assignment and the operand of a unary operator open one each. -/
def depth : Tree → Nat
  | literal _ | var _ => 0
  | group inner => inner.depth + 1
  | unary _ operand _ => operand.depth + 1
  | binary _ left right _ | logical _ left right => max left.depth right.depth
  | assign _ value => value.depth + 1
  | call callee arguments _ => max callee.depth (argumentDepth arguments)

def argumentDepth : List Tree → Nat
  | [] => 0
  | argument :: rest => max (argument.depth + 1) (argumentDepth rest)

end

mutual

/-- The tokens are the tree written out in order. -/
inductive Written : Tree → List Token → Prop where
  | literal {token : Token} {value : Literal} (reads : Literal.ofToken? token = some value) :
    Written (.literal value) [token]
  | var (name : Mark .identifier) : Written (.var (.ofToken name.token)) [name.token]
  | group {inner : Tree} {body : List Token} (opening : Mark .leftParen)
      (written : Written inner body) (closing : Mark .rightParen) :
    Written (.group inner) (opening.token :: body ++ [closing.token])
  | unary {operator : UnaryOperator} {operand : Tree} {body : List Token} {sign : Token}
      (reads : UnaryOperator.ofToken? sign.kind = some operator) (written : Written operand body) :
    Written (.unary operator operand sign.line) (sign :: body)
  | binary {operator : BinaryOperator} {left right : Tree} {first second : List Token}
      {sign : Token} (writtenLeft : Written left first)
      (reads : BinaryOperator.ofToken? sign.kind = some operator)
      (writtenRight : Written right second) :
    Written (.binary operator left right sign.line) (first ++ sign :: second)
  | logical {operator : LogicalOperator} {left right : Tree} {first second : List Token}
      (writtenLeft : Written left first) (sign : Mark (.keyword operator.keyword))
      (writtenRight : Written right second) :
    Written (.logical operator left right) (first ++ sign.token :: second)
  | assign {value : Tree} {body : List Token} (target : Mark .identifier) (equals : Mark .equal)
      (written : Written value body) :
    Written (.assign (.ofToken target.token) value) (target.token :: equals.token :: body)
  | call {callee : Tree} {arguments : List Tree} {first inside : List Token}
      (writtenCallee : Written callee first) (opening : Mark .leftParen)
      (writtenArguments : WrittenArguments arguments inside) (closing : Mark .rightParen) :
    Written (.call callee arguments closing.token.line)
      (first ++ opening.token :: inside ++ [closing.token])

/-- The tokens are the trees written one after the other with commas between them. -/
inductive WrittenArguments : List Tree → List Token → Prop where
  | none : WrittenArguments [] []
  | last {argument : Tree} {body : List Token} (written : Written argument body) :
    WrittenArguments [argument] body
  | more {argument next : Tree} {rest : List Tree} {body others : List Token}
      (written : Written argument body) (comma : Mark .comma)
      (writtenRest : WrittenArguments (next :: rest) others) :
    WrittenArguments (argument :: next :: rest) (body ++ comma.token :: others)

end

/-- The tokens are the tree written out, and the tree is one that the rules admit where so many
levels are free. -/
structure Spelled (levels : Nat) (tree : Tree) (tokens : List Token) : Prop where
  written : tree.Written tokens
  ordered : tree.Ordered
  arity : tree.ArityBounded
  depth_lt : tree.depth < levels

end Tree

/-! ### The table of a tree

Nodes are laid down behind their operands, the last one being the root. The target of an assignment
has a node of its own, which nothing refers to. -/

/-- A table with one more node, which is the root. -/
def Expression.push (nodes : Array Node) (node : Node) : Expression :=
  ⟨nodes.push node, nodes.size⟩

namespace Tree

mutual

/-- The table with the nodes of a tree behind those that are there, and the root of the tree. -/
def lay (nodes : Array Node) : Tree → Expression
  | literal value => .push nodes (.literal value)
  | var name => .push nodes (.var name)
  | group inner =>
    let ⟨nodes, index⟩ := inner.lay nodes
    .push nodes (.group index)
  | unary operator operand line =>
    let ⟨nodes, index⟩ := operand.lay nodes
    .push nodes (.unary operator index line)
  | binary operator left right line =>
    let ⟨nodes, first⟩ := left.lay nodes
    let ⟨nodes, second⟩ := right.lay nodes
    .push nodes (.binary operator first second line)
  | logical operator left right =>
    let ⟨nodes, first⟩ := left.lay nodes
    let ⟨nodes, second⟩ := right.lay nodes
    .push nodes (.logical operator first second)
  | assign name value =>
    let ⟨nodes, index⟩ := value.lay (nodes.push (.var name))
    .push nodes (.assign name index)
  | call callee arguments line =>
    let ⟨nodes, index⟩ := callee.lay nodes
    let ⟨nodes, indices⟩ := layAll nodes arguments
    .push nodes (.call index indices line)

def layAll (nodes : Array Node) : List Tree → Array Node × List Nat
  | [] => (nodes, [])
  | tree :: rest =>
    let ⟨nodes, index⟩ := tree.lay nodes
    let ⟨nodes, indices⟩ := layAll nodes rest
    (nodes, index :: indices)

end

def expression (tree : Tree) : Expression := tree.lay #[]

end Tree

end Lox
