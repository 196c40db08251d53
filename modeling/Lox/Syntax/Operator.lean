import Lox.Token.Kind

/-!
# Operators

The operators of expressions, the tokens they are written with, and how tightly the binary ones
bind.
-/

namespace Lox

inductive UnaryOperator where
  | not
  | negate
  deriving DecidableEq, Repr

namespace UnaryOperator

def ofToken? : TokenKind → Option UnaryOperator
  | .bang => some .not
  | .minus => some .negate
  | _ => none

def symbol : UnaryOperator → String
  | .not => "!"
  | .negate => "-"

def inspect : UnaryOperator → String
  | .not => "Bang"
  | .negate => "Minus"

end UnaryOperator

/-- The levels of binary operators, the loosest first. -/
inductive Precedence where
  | equality
  | comparison
  | sum
  | product
  deriving DecidableEq, Repr

inductive BinaryOperator where
  | multiply | divide
  | add | subtract
  | less | lessEqual | greater | greaterEqual
  | equal | notEqual
  deriving DecidableEq, Repr

namespace BinaryOperator

def ofToken? : TokenKind → Option BinaryOperator
  | .star => some .multiply
  | .slash => some .divide
  | .plus => some .add
  | .minus => some .subtract
  | .less => some .less
  | .lessEqual => some .lessEqual
  | .greater => some .greater
  | .greaterEqual => some .greaterEqual
  | .equalEqual => some .equal
  | .bangEqual => some .notEqual
  | _ => none

def precedence : BinaryOperator → Precedence
  | .equal | .notEqual => .equality
  | .less | .lessEqual | .greater | .greaterEqual => .comparison
  | .add | .subtract => .sum
  | .multiply | .divide => .product

/-- The operator that a token stands for at one level. -/
def ofTokenAt? (level : Precedence) (kind : TokenKind) : Option BinaryOperator :=
  (ofToken? kind).filter (·.precedence = level)

def symbol : BinaryOperator → String
  | .multiply => "*"
  | .divide => "/"
  | .add => "+"
  | .subtract => "-"
  | .less => "<"
  | .lessEqual => "<="
  | .greater => ">"
  | .greaterEqual => ">="
  | .equal => "=="
  | .notEqual => "!="

def inspect : BinaryOperator → String
  | .multiply => "Multiply"
  | .divide => "Divide"
  | .add => "Add"
  | .subtract => "Subtract"
  | .less => "LessThan"
  | .lessEqual => "LessThanEqual"
  | .greater => "GreaterThan"
  | .greaterEqual => "GreaterThanEqual"
  | .equal => "EqualEqual"
  | .notEqual => "BangEqual"

end BinaryOperator

/-- The operators that may leave their right operand unevaluated. -/
inductive LogicalOperator where
  | and
  | or
  deriving DecidableEq, Repr

namespace LogicalOperator

def keyword : LogicalOperator → Keyword
  | .and => .andWord
  | .or => .orWord

def symbol (operator : LogicalOperator) : String :=
  operator.keyword.spelling

def inspect : LogicalOperator → String
  | .and => "And"
  | .or => "Or"

end LogicalOperator

end Lox
