import Lox.Eval.Error
import Lox.Number.Notation
import Lox.Syntax.Statement

/-!
# Values

The values of the language and what its operators make of them. Callables are told apart by an
identity given to them when they are made, since two functions with the same text are not equal.
-/

namespace Lox

/-- The place of a scope in the store. -/
abbrev ScopeId := Nat

/-- A declared function together with the scope it was declared in. -/
structure Function where
  identity : Nat
  name : Identifier
  parameters : List Identifier
  body : List Statement
  closure : ScopeId

/-- The functions that every program finds defined. -/
inductive Native where
  /-- The seconds since the epoch. -/
  | clock
  deriving DecidableEq, Repr

namespace Native

def all : List Native :=
  [.clock]

def name : Native → String
  | .clock => "clock"

def arity : Native → Nat
  | .clock => 0

def inspect : Native → String
  | .clock => "NativeClock"

end Native

inductive Value where
  | nil
  | bool (value : Bool)
  | number (value : Float)
  | text (value : String)
  | native (identity : Nat) (which : Native)
  | function (declared : Function)

namespace Value

def ofLiteral : Literal → Value
  | .nil => nil
  | .bool value => bool value
  | .number value => number value
  | .text value => text value

def render : Value → String
  | nil => "nil"
  | bool value => Inspect.bool value
  | number value => Number.plain value
  | text value => value
  | native .. => "<native fn>"
  | function declared => "<fn " ++ declared.name.name ++ ">"

def inspect : Value → String
  | nil => "Nil"
  | bool value => Inspect.tuple "Bool" [Inspect.bool value]
  | number value => Inspect.tuple "Number" [Number.exact value]
  | text value => Inspect.tuple "String" [Text.quoted value]
  | native _ which => Inspect.tuple "NativeFunction" [which.inspect]
  | function declared =>
    Inspect.tuple "Function" ["Function \x7b name: " ++ Text.quoted declared.name.name
      ++ ", arity: " ++ Inspect.nat declared.parameters.length ++ ", .. \x7d"]

/-- Only `nil` and `false` do not count as true. -/
def isTruthy : Value → Bool
  | nil | bool false => false
  | _ => true

def arity? : Value → Option Nat
  | native _ which => some which.arity
  | function declared => some declared.parameters.length
  | _ => none

/-- Values of different sorts are never equal. Numbers compare as numbers, so what is not a number
differs from itself. -/
def isEqual : Value → Value → Bool
  | nil, nil => true
  | bool left, bool right => left == right
  | number left, number right => left == right
  | text left, text right => left == right
  | native left _, native right _ => left == right
  | function left, function right => left.identity == right.identity
  | _, _ => false

def negate : Value → Except RuntimeError.Cause Value
  | number value => .ok (number (-value))
  | _ => .error .notNumber

/-- The sum of two numbers, or two texts one behind the other. -/
def add : Value → Value → Except RuntimeError.Cause Value
  | number left, number right => .ok (number (left + right))
  | text left, text right => .ok (text (left ++ right))
  | _, _ => .error .notAddable

def onNumbers (operation : Float → Float → Value) : Value → Value → Except RuntimeError.Cause Value
  | number left, number right => .ok (operation left right)
  | _, _ => .error .notNumbers

end Value

def UnaryOperator.apply (operator : UnaryOperator) (operand : Value) :
    Except RuntimeError.Cause Value :=
  match operator with
  | .not => .ok (.bool !operand.isTruthy)
  | .negate => operand.negate

def BinaryOperator.apply (operator : BinaryOperator) (left right : Value) :
    Except RuntimeError.Cause Value :=
  match operator with
  | .add => left.add right
  | .subtract => Value.onNumbers (fun left right => .number (left - right)) left right
  | .multiply => Value.onNumbers (fun left right => .number (left * right)) left right
  | .divide => Value.onNumbers (fun left right => .number (left / right)) left right
  | .less => Value.onNumbers (fun left right => .bool (left < right)) left right
  | .lessEqual => Value.onNumbers (fun left right => .bool (left ≤ right)) left right
  | .greater => Value.onNumbers (fun left right => .bool (left > right)) left right
  | .greaterEqual => Value.onNumbers (fun left right => .bool (left ≥ right)) left right
  | .equal => .ok (.bool (left.isEqual right))
  | .notEqual => .ok (.bool !left.isEqual right)

/-- Whether a left operand already decides a logical operation. -/
def LogicalOperator.isDecided (operator : LogicalOperator) (left : Value) : Bool :=
  match operator with
  | .or => left.isTruthy
  | .and => !left.isTruthy

end Lox
