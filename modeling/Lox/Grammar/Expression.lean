import Lox.Grammar.Rule

/-!
# The grammar of expressions

From the loosest to the tightest: assignment, which groups to the right; `or`; `and`; the four
levels of binary operators; unary operators; calls; and what stands alone. All levels between
assignment and the unary operators are chains that group to the left.

Only the inside of a group, an argument, the value of an assignment and the operand of a unary
operator may contain any expression again, and each of these opens a level. Rules take what they run
one level deeper as parameters, and `assignment` and `unary` tie the knot on the number of levels
that are free.
-/

namespace Lox.Grammar

variable {α : Type}

/-- A node without operands for the token ahead. -/
def leaf (node : Node) : Rule Nat := do
  let _ ← advance
  addNode node

/-- What stands alone: a literal, a name, or a group. -/
def primary (inner : Rule Nat) : Rule Nat := do
  let token ← peek
  match token.kind with
  | .keyword .falseWord => leaf (.literal (.bool false))
  | .keyword .trueWord => leaf (.literal (.bool true))
  | .keyword .nilWord => leaf (.literal .nil)
  | .number | .string =>
    match token.value with
    | some value => leaf (.literal (.ofTokenValue value))
    | none => throw (.missingValue token)
  | .identifier => leaf (.var (.ofToken token))
  | .leftParen =>
    let _ ← advance
    let index ← inner
    let _ ← expect .rightParen "Expect ')' after expression."
    addNode (.group index)
  | _ => reject .notExpression

def calls (argument : Rule Nat) : (budget : List Token) → (callee : Nat) → Rule Nat
  | [], callee => return callee
  | _ :: budget, callee => do
    match ← eat? .leftParen with
    | none => return callee
    | some _ =>
      let arguments ← commaSeparated argument .tooManyArguments
      let paren ← expect .rightParen "Expect ')' after arguments."
      calls argument budget (← addNode (.call callee arguments paren.line))

def call (argument : Rule Nat) : Rule Nat := do
  let callee ← primary argument
  calls argument (← get).rest callee

def unaryRule (argument operand : Rule Nat) : Rule Nat := do
  let token ← peek
  match UnaryOperator.ofToken? token.kind with
  | some operator =>
    let _ ← advance
    let index ← operand
    addNode (.unary operator index token.line)
  | none => call argument

/-- Operators and operands behind a left operand. -/
def links (operator? : TokenKind → Option α) (join : α → (left right line : Nat) → Node)
    (operand : Rule Nat) : (budget : List Token) → (left : Nat) → Rule Nat
  | [], left => return left
  | _ :: budget, left => do
    let token ← peek
    match operator? token.kind with
    | none => return left
    | some operator =>
      let _ ← advance
      let right ← operand
      links operator? join operand budget (← addNode (join operator left right token.line))

/-- Operands with operators of one level between them, grouped to the left. -/
def chain (operator? : TokenKind → Option α) (join : α → (left right line : Nat) → Node)
    (operand : Rule Nat) : Rule Nat := do
  let left ← operand
  links operator? join operand (← get).rest left

def binary (level : Precedence) (operand : Rule Nat) : Rule Nat :=
  chain (BinaryOperator.ofTokenAt? level) Node.binary operand

def logical (operator : LogicalOperator) (operand : Rule Nat) : Rule Nat :=
  chain (fun kind => if kind = .keyword operator.keyword then some operator else none)
    (fun operator left right _ => .logical operator left right) operand

/-- Everything that binds tighter than assignment, above a unary rule. -/
def operation (unary : Rule Nat) : Rule Nat :=
  logical .or (logical .and
    (binary .equality (binary .comparison (binary .sum (binary .product unary)))))

/-- An operation, which is the target of an assignment if `=` follows. Only a variable may be one;
otherwise the value is read and dropped. -/
def assignmentRule (unary value : Rule Nat) : Rule Nat := do
  let target ← operation unary
  match ← eat? .equal with
  | none => return target
  | some equals =>
    let index ← value
    match (← get).nodes[target]? with
    | some (.var name) => addNode (.assign name index)
    | _ =>
      report .notAssignable equals
      return target

mutual

/-- An expression, one level deeper, where so many levels are free. -/
def assignment : (levels : Nat) → Rule Nat
  | 0 => reject .tooDeep
  | levels + 1 =>
    nested (assignmentRule (unaryRule (assignment levels) (unary levels)) (assignment levels))

def unary : (levels : Nat) → Rule Nat
  | 0 => reject .tooDeep
  | levels + 1 => nested (unaryRule (assignment levels) (unary levels))

end

def expression (levels : Nat) : Rule Expression :=
  building (assignment levels)

end Lox.Grammar
