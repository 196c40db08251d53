import Lox.Eval.Evaluator
import Lox.Proofs.Syntax.Unfolding

/-!
# What programs mean

A big-step semantics of expressions and statements. Expressions are trees; the tables of a program
are only unfolded into them. There is no fuel: a derivation is finite, and what runs forever has
none. An outcome is a value or the first error, and the machine that is left has everything that was
done up to then. Of the evaluator only the forms of its data are used here.

Evaluation is strict and goes from left to right, and every rule whose name ends in `Raised` hands
on the error of the part that went wrong, with nothing behind it done.
-/

namespace Lox

/-- What is left of a run that ended: a value, or the error that cut it off. -/
abbrev Outcome (α : Type) := Except RuntimeError α

/-! ### Names -/

namespace Store

/-- From a scope outwards, the first one that binds the name is the target, and binds it to the
value. -/
inductive Finds (store : Store) (name : String) : (scope target : ScopeId) → Value → Prop where
  | here {scope : ScopeId} {inner : Scope} {value : Value}
      (found : store.scopes[scope]? = some inner) (bound : inner.value? name = some value) :
    Finds store name scope scope value
  | outside {scope parent target : ScopeId} {inner : Scope} {value : Value}
      (found : store.scopes[scope]? = some inner) (free : inner.value? name = none)
      (inside : inner.parent = some parent) (finds : Finds store name parent target value) :
    Finds store name scope target value

inductive Unbound (store : Store) (name : String) : (scope : ScopeId) → Prop where
  | root {scope : ScopeId} {inner : Scope} (found : store.scopes[scope]? = some inner)
      (free : inner.value? name = none) (outermost : inner.parent = none) :
    Unbound store name scope
  | outside {scope parent : ScopeId} {inner : Scope} (found : store.scopes[scope]? = some inner)
      (free : inner.value? name = none) (inside : inner.parent = some parent)
      (unbound : Unbound store name parent) : Unbound store name scope

end Store

/-! ### Operators -/

namespace Value

/-- Only `nil` and `false` are. -/
inductive Falsy : Value → Prop where
  | nil : Falsy nil
  | bool : Falsy (bool false)

/-- Equality of values. Values of different sorts are never equal, numbers are compared as numbers,
and callables are told apart by their identity. -/
inductive Same : Value → Value → Prop where
  | nil : Same nil nil
  | bool (value : Bool) : Same (bool value) (bool value)
  | number {left right : Float} (h : (left == right) = true) : Same (number left) (number right)
  | text (value : String) : Same (text value) (text value)
  | native (identity : Nat) (left right : Native) :
    Same (native identity left) (native identity right)
  | function {left right : Function} (h : left.identity = right.identity) :
    Same (function left) (function right)

end Value

inductive UnaryOperator.Gives : UnaryOperator → Value → Except RuntimeError.Cause Value → Prop where
  | notFalsy {value : Value} (falsy : value.Falsy) : Gives .not value (.ok (.bool true))
  | notTruthy {value : Value} (truthy : ¬ value.Falsy) : Gives .not value (.ok (.bool false))
  | negate (value : Float) : Gives .negate (.number value) (.ok (.number (-value)))
  | notNumber {value : Value} (other : ∀ number, value ≠ .number number) :
    Gives .negate value (.error .notNumber)

namespace BinaryOperator

/-- The operators that want numbers, with what they make of them. -/
inductive Numeric : BinaryOperator → (Float → Float → Value) → Prop where
  | subtract : Numeric .subtract fun left right => .number (left - right)
  | multiply : Numeric .multiply fun left right => .number (left * right)
  | divide : Numeric .divide fun left right => .number (left / right)
  | less : Numeric .less fun left right => .bool (left < right)
  | lessEqual : Numeric .lessEqual fun left right => .bool (left ≤ right)
  | greater : Numeric .greater fun left right => .bool (left > right)
  | greaterEqual : Numeric .greaterEqual fun left right => .bool (left ≥ right)

inductive Gives : BinaryOperator → Value → Value → Except RuntimeError.Cause Value → Prop where
  | numbers {operator : BinaryOperator} {operation : Float → Float → Value}
      (numeric : operator.Numeric operation) (left right : Float) :
    Gives operator (.number left) (.number right) (.ok (operation left right))
  | notNumbers {operator : BinaryOperator} {operation : Float → Float → Value}
      (numeric : operator.Numeric operation) {left right : Value}
      (other : ∀ first second, (left, right) ≠ (.number first, .number second)) :
    Gives operator left right (.error .notNumbers)
  | sum (left right : Float) : Gives .add (.number left) (.number right) (.ok (.number (left + right)))
  | concatenation (left right : String) :
    Gives .add (.text left) (.text right) (.ok (.text (left ++ right)))
  | notAddable {left right : Value}
      (notNumbers : ∀ first second, (left, right) ≠ (.number first, .number second))
      (notTexts : ∀ first second, (left, right) ≠ (.text first, .text second)) :
    Gives .add left right (.error .notAddable)
  | equal {left right : Value} (same : left.Same right) : Gives .equal left right (.ok (.bool true))
  | different {left right : Value} (different : ¬ left.Same right) :
    Gives .equal left right (.ok (.bool false))
  | notEqual {left right : Value} (different : ¬ left.Same right) :
    Gives .notEqual left right (.ok (.bool true))
  | notDifferent {left right : Value} (same : left.Same right) :
    Gives .notEqual left right (.ok (.bool false))

end BinaryOperator

/-- The left operand is the result, and the right one is left out. -/
inductive LogicalOperator.Settles : LogicalOperator → Value → Prop where
  | or {value : Value} (truthy : ¬ value.Falsy) : Settles .or value
  | and {value : Value} (falsy : value.Falsy) : Settles .and value

/-! ### Changes of the machine -/

namespace Machine

def define (machine : Machine) (scope : ScopeId) (name : String) (value : Value) : Machine :=
  { machine with store := machine.store.define scope name value }

@[simp] theorem store_define (machine : Machine) (scope : ScopeId) (name : String) (value : Value) :
    (machine.define scope name value).store = machine.store.define scope name value := rfl

/-- The machine with a new scope in it, which `newest` names before it is there. -/
def enter (machine : Machine) (parent : ScopeId) : Machine :=
  { machine with store := (machine.store.add (some parent)).2 }

def newest (machine : Machine) : ScopeId := machine.store.scopes.size

def bindAll (machine : Machine) (scope : ScopeId) (bindings : List (Identifier × Value)) :
    Machine :=
  bindings.foldl (fun machine binding => machine.define scope binding.1.name binding.2) machine

def print (machine : Machine) (value : Value) : Machine :=
  { machine with output := machine.output ++ value.render ++ "\n" }

/-- Binds a function that is declared in a scope, under an identity that no callable has. -/
def declare (machine : Machine) (scope : ScopeId) (name : Identifier)
    (parameters : List Identifier) (body : List Statement) : Machine :=
  { machine with nextIdentity := machine.nextIdentity + 1 }.define scope name.name
    (.function ⟨machine.nextIdentity, name, parameters, body, scope⟩)

/-- The machine in which the body of a function is run, its scope being the newest one before. -/
def called (machine : Machine) (declared : Function) (arguments : List Value) : Machine :=
  { (machine.enter declared.closure).bindAll machine.newest (declared.parameters.zip arguments) with
    callDepth := machine.callDepth + 1 }

end Machine

/-! ### Evaluation and execution -/

mutual

/-- In a scope, a tree comes to an outcome and changes the machine. -/
inductive Evaluates : Machine → ScopeId → Tree → Outcome Value → Machine → Prop where
  | literal {machine : Machine} {scope : ScopeId} (value : Literal) :
    Evaluates machine scope (.literal value) (.ok (.ofLiteral value)) machine
  | var {machine : Machine} {scope target : ScopeId} {name : Identifier} {value : Value}
      (finds : machine.store.Finds name.name scope target value) :
    Evaluates machine scope (.var name) (.ok value) machine
  | varUnbound {machine : Machine} {scope : ScopeId} {name : Identifier}
      (unbound : machine.store.Unbound name.name scope) :
    Evaluates machine scope (.var name) (.error ⟨.undefined name.name, name.line⟩) machine
  | group {machine after : Machine} {scope : ScopeId} {inner : Tree} {outcome : Outcome Value}
      (evaluates : Evaluates machine scope inner outcome after) :
    Evaluates machine scope (.group inner) outcome after
  | unary {machine after : Machine} {scope : ScopeId} {operator : UnaryOperator} {operand : Tree}
      {line : Nat} {value : Value} {result : Except RuntimeError.Cause Value}
      (evaluates : Evaluates machine scope operand (.ok value) after)
      (gives : operator.Gives value result) :
    Evaluates machine scope (.unary operator operand line) (result.mapError (⟨·, line⟩)) after
  | unaryRaised {machine after : Machine} {scope : ScopeId} {operator : UnaryOperator}
      {operand : Tree} {line : Nat} {error : RuntimeError}
      (evaluates : Evaluates machine scope operand (.error error) after) :
    Evaluates machine scope (.unary operator operand line) (.error error) after
  | binary {machine between after : Machine} {scope : ScopeId} {operator : BinaryOperator}
      {left right : Tree} {line : Nat} {first second : Value}
      {result : Except RuntimeError.Cause Value}
      (evaluatesLeft : Evaluates machine scope left (.ok first) between)
      (evaluatesRight : Evaluates between scope right (.ok second) after)
      (gives : operator.Gives first second result) :
    Evaluates machine scope (.binary operator left right line) (result.mapError (⟨·, line⟩)) after
  | binaryLeftRaised {machine after : Machine} {scope : ScopeId} {operator : BinaryOperator}
      {left right : Tree} {line : Nat} {error : RuntimeError}
      (evaluatesLeft : Evaluates machine scope left (.error error) after) :
    Evaluates machine scope (.binary operator left right line) (.error error) after
  | binaryRightRaised {machine between after : Machine} {scope : ScopeId}
      {operator : BinaryOperator} {left right : Tree} {line : Nat} {first : Value}
      {error : RuntimeError} (evaluatesLeft : Evaluates machine scope left (.ok first) between)
      (evaluatesRight : Evaluates between scope right (.error error) after) :
    Evaluates machine scope (.binary operator left right line) (.error error) after
  | settled {machine after : Machine} {scope : ScopeId} {operator : LogicalOperator}
      {left right : Tree} {value : Value}
      (evaluatesLeft : Evaluates machine scope left (.ok value) after)
      (settles : operator.Settles value) :
    Evaluates machine scope (.logical operator left right) (.ok value) after
  | open {machine between after : Machine} {scope : ScopeId} {operator : LogicalOperator}
      {left right : Tree} {value : Value} {outcome : Outcome Value}
      (evaluatesLeft : Evaluates machine scope left (.ok value) between)
      (unsettled : ¬ operator.Settles value)
      (evaluatesRight : Evaluates between scope right outcome after) :
    Evaluates machine scope (.logical operator left right) outcome after
  | logicalRaised {machine after : Machine} {scope : ScopeId} {operator : LogicalOperator}
      {left right : Tree} {error : RuntimeError}
      (evaluatesLeft : Evaluates machine scope left (.error error) after) :
    Evaluates machine scope (.logical operator left right) (.error error) after
  | assign {machine after : Machine} {scope target : ScopeId} {name : Identifier} {tree : Tree}
      {value old : Value} (evaluates : Evaluates machine scope tree (.ok value) after)
      (finds : after.store.Finds name.name scope target old) :
    Evaluates machine scope (.assign name tree) (.ok value) (after.define target name.name value)
  | assignUnbound {machine after : Machine} {scope : ScopeId} {name : Identifier} {tree : Tree}
      {value : Value} (evaluates : Evaluates machine scope tree (.ok value) after)
      (unbound : after.store.Unbound name.name scope) :
    Evaluates machine scope (.assign name tree) (.error ⟨.undefined name.name, name.line⟩) after
  | assignRaised {machine after : Machine} {scope : ScopeId} {name : Identifier} {tree : Tree}
      {error : RuntimeError} (evaluates : Evaluates machine scope tree (.error error) after) :
    Evaluates machine scope (.assign name tree) (.error error) after
  | call {machine between ready after : Machine} {scope : ScopeId} {callee : Tree}
      {arguments : List Tree} {line : Nat} {called : Value} {values : List Value}
      {outcome : Outcome Value} (evaluates : Evaluates machine scope callee (.ok called) between)
      (evaluatesAll : EvaluatesAll between scope arguments (.ok values) ready)
      (arity : called.arity? = some values.length)
      (applies : Applies ready called values line outcome after) :
    Evaluates machine scope (.call callee arguments line) outcome after
  | wrongArity {machine between after : Machine} {scope : ScopeId} {callee : Tree}
      {arguments : List Tree} {line expected : Nat} {called : Value} {values : List Value}
      (evaluates : Evaluates machine scope callee (.ok called) between)
      (arity : called.arity? = some expected)
      (evaluatesAll : EvaluatesAll between scope arguments (.ok values) after)
      (wrong : values.length ≠ expected) :
    Evaluates machine scope (.call callee arguments line)
      (.error ⟨.wrongArity expected values.length, line⟩) after
  | argumentRaised {machine between after : Machine} {scope : ScopeId} {callee : Tree}
      {arguments : List Tree} {line expected : Nat} {called : Value} {error : RuntimeError}
      (evaluates : Evaluates machine scope callee (.ok called) between)
      (arity : called.arity? = some expected)
      (evaluatesAll : EvaluatesAll between scope arguments (.error error) after) :
    Evaluates machine scope (.call callee arguments line) (.error error) after
  | notCallable {machine after : Machine} {scope : ScopeId} {callee : Tree} {arguments : List Tree}
      {line : Nat} {called : Value}
      (evaluates : Evaluates machine scope callee (.ok called) after)
      (other : called.arity? = none) :
    Evaluates machine scope (.call callee arguments line) (.error ⟨.notCallable, line⟩) after
  | calleeRaised {machine after : Machine} {scope : ScopeId} {callee : Tree}
      {arguments : List Tree} {line : Nat} {error : RuntimeError}
      (evaluates : Evaluates machine scope callee (.error error) after) :
    Evaluates machine scope (.call callee arguments line) (.error error) after

inductive EvaluatesAll : Machine → ScopeId → List Tree → Outcome (List Value) → Machine → Prop where
  | nil {machine : Machine} {scope : ScopeId} : EvaluatesAll machine scope [] (.ok []) machine
  | cons {machine between after : Machine} {scope : ScopeId} {tree : Tree} {rest : List Tree}
      {value : Value} {values : List Value}
      (evaluates : Evaluates machine scope tree (.ok value) between)
      (evaluatesAll : EvaluatesAll between scope rest (.ok values) after) :
    EvaluatesAll machine scope (tree :: rest) (.ok (value :: values)) after
  | headRaised {machine after : Machine} {scope : ScopeId} {tree : Tree} {rest : List Tree}
      {error : RuntimeError} (evaluates : Evaluates machine scope tree (.error error) after) :
    EvaluatesAll machine scope (tree :: rest) (.error error) after
  | tailRaised {machine between after : Machine} {scope : ScopeId} {tree : Tree}
      {rest : List Tree} {value : Value} {error : RuntimeError}
      (evaluates : Evaluates machine scope tree (.ok value) between)
      (evaluatesAll : EvaluatesAll between scope rest (.error error) after) :
    EvaluatesAll machine scope (tree :: rest) (.error error) after

/-- A callable is called on a line with as many arguments as it takes. -/
inductive Applies : Machine → Value → List Value → (line : Nat) → Outcome Value → Machine → Prop where
  | clock {machine : Machine} {identity line : Nat} {arguments : List Value} :
    Applies machine (.native identity .clock) arguments line
      (.ok (.number (machine.clock.reading machine.clock.taken)))
      { machine with clock := { machine.clock with taken := machine.clock.taken + 1 } }
  | stackOverflow {machine : Machine} {declared : Function} {arguments : List Value} {line : Nat}
      (full : maxCallDepth ≤ machine.callDepth) :
    Applies machine (.function declared) arguments line (.error ⟨.stackOverflow, line⟩) machine
  | function {machine after : Machine} {declared : Function} {arguments : List Value} {line : Nat}
      {outcome : Outcome Completion} (room : machine.callDepth < maxCallDepth)
      (executesAll : ExecutesAll (machine.called declared arguments) machine.newest declared.body
        outcome after) :
    Applies machine (.function declared) arguments line (outcome.map Completion.result)
      { after with callDepth := machine.callDepth }

inductive Executes : Machine → ScopeId → Statement → Outcome Completion → Machine → Prop where
  | var {machine : Machine} {scope : ScopeId} {name : Identifier} :
    Executes machine scope (.varDecl name none) (.ok .normal) (machine.define scope name.name .nil)
  | initialized {machine after : Machine} {scope : ScopeId} {name : Identifier}
      {initial : Expression} {tree : Tree} {value : Value} (unfolds : initial.Unfolds tree)
      (evaluates : Evaluates machine scope tree (.ok value) after) :
    Executes machine scope (.varDecl name (some initial)) (.ok .normal)
      (after.define scope name.name value)
  | initialRaised {machine after : Machine} {scope : ScopeId} {name : Identifier}
      {initial : Expression} {tree : Tree} {error : RuntimeError} (unfolds : initial.Unfolds tree)
      (evaluates : Evaluates machine scope tree (.error error) after) :
    Executes machine scope (.varDecl name (some initial)) (.error error) after
  | function {machine : Machine} {scope : ScopeId} {name : Identifier}
      {parameters : List Identifier} {body : List Statement} :
    Executes machine scope (.funDecl name parameters body) (.ok .normal)
      (machine.declare scope name parameters body)
  | expression {machine after : Machine} {scope : ScopeId} {expression : Expression} {tree : Tree}
      {value : Value} (unfolds : expression.Unfolds tree)
      (evaluates : Evaluates machine scope tree (.ok value) after) :
    Executes machine scope (.expression expression) (.ok .normal) after
  | expressionRaised {machine after : Machine} {scope : ScopeId} {expression : Expression}
      {tree : Tree} {error : RuntimeError} (unfolds : expression.Unfolds tree)
      (evaluates : Evaluates machine scope tree (.error error) after) :
    Executes machine scope (.expression expression) (.error error) after
  | print {machine after : Machine} {scope : ScopeId} {expression : Expression} {tree : Tree}
      {value : Value} (unfolds : expression.Unfolds tree)
      (evaluates : Evaluates machine scope tree (.ok value) after) :
    Executes machine scope (.print expression) (.ok .normal) (after.print value)
  | printRaised {machine after : Machine} {scope : ScopeId} {expression : Expression}
      {tree : Tree} {error : RuntimeError} (unfolds : expression.Unfolds tree)
      (evaluates : Evaluates machine scope tree (.error error) after) :
    Executes machine scope (.print expression) (.error error) after
  | block {machine after : Machine} {scope : ScopeId} {body : List Statement}
      {outcome : Outcome Completion}
      (executesAll : ExecutesAll (machine.enter scope) machine.newest body outcome after) :
    Executes machine scope (.block body) outcome after
  | ifHolds {machine between after : Machine} {scope : ScopeId} {condition : Expression}
      {success : Statement} {tree : Tree} {value : Value} {outcome : Outcome Completion}
      (unfolds : condition.Unfolds tree)
      (evaluates : Evaluates machine scope tree (.ok value) between) (truthy : ¬ value.Falsy)
      (executes : Executes between scope success outcome after) :
    Executes machine scope (.ifThen condition success) outcome after
  | ifFails {machine after : Machine} {scope : ScopeId} {condition : Expression}
      {success : Statement} {tree : Tree} {value : Value} (unfolds : condition.Unfolds tree)
      (evaluates : Evaluates machine scope tree (.ok value) after) (falsy : value.Falsy) :
    Executes machine scope (.ifThen condition success) (.ok .normal) after
  | ifRaised {machine after : Machine} {scope : ScopeId} {condition : Expression}
      {success : Statement} {tree : Tree} {error : RuntimeError} (unfolds : condition.Unfolds tree)
      (evaluates : Evaluates machine scope tree (.error error) after) :
    Executes machine scope (.ifThen condition success) (.error error) after
  | elseHolds {machine between after : Machine} {scope : ScopeId} {condition : Expression}
      {success failure : Statement} {tree : Tree} {value : Value} {outcome : Outcome Completion}
      (unfolds : condition.Unfolds tree)
      (evaluates : Evaluates machine scope tree (.ok value) between) (truthy : ¬ value.Falsy)
      (executes : Executes between scope success outcome after) :
    Executes machine scope (.ifElse condition success failure) outcome after
  | elseFails {machine between after : Machine} {scope : ScopeId} {condition : Expression}
      {success failure : Statement} {tree : Tree} {value : Value} {outcome : Outcome Completion}
      (unfolds : condition.Unfolds tree)
      (evaluates : Evaluates machine scope tree (.ok value) between) (falsy : value.Falsy)
      (executes : Executes between scope failure outcome after) :
    Executes machine scope (.ifElse condition success failure) outcome after
  | elseRaised {machine after : Machine} {scope : ScopeId} {condition : Expression}
      {success failure : Statement} {tree : Tree} {error : RuntimeError}
      (unfolds : condition.Unfolds tree)
      (evaluates : Evaluates machine scope tree (.error error) after) :
    Executes machine scope (.ifElse condition success failure) (.error error) after
  | whileFails {machine after : Machine} {scope : ScopeId} {condition : Expression}
      {body : Statement} {tree : Tree} {value : Value} (unfolds : condition.Unfolds tree)
      (evaluates : Evaluates machine scope tree (.ok value) after) (falsy : value.Falsy) :
    Executes machine scope (.whileLoop condition body) (.ok .normal) after
  | whileHolds {machine between further after : Machine} {scope : ScopeId} {condition : Expression}
      {body : Statement} {tree : Tree} {value : Value} {outcome : Outcome Completion}
      (unfolds : condition.Unfolds tree)
      (evaluates : Evaluates machine scope tree (.ok value) between) (truthy : ¬ value.Falsy)
      (executes : Executes between scope body (.ok .normal) further)
      (again : Executes further scope (.whileLoop condition body) outcome after) :
    Executes machine scope (.whileLoop condition body) outcome after
  | whileLeft {machine between after : Machine} {scope : ScopeId} {condition : Expression}
      {body : Statement} {tree : Tree} {value : Value} {outcome : Outcome Completion}
      (unfolds : condition.Unfolds tree)
      (evaluates : Evaluates machine scope tree (.ok value) between) (truthy : ¬ value.Falsy)
      (executes : Executes between scope body outcome after) (left : outcome ≠ .ok .normal) :
    Executes machine scope (.whileLoop condition body) outcome after
  | whileRaised {machine after : Machine} {scope : ScopeId} {condition : Expression}
      {body : Statement} {tree : Tree} {error : RuntimeError} (unfolds : condition.Unfolds tree)
      (evaluates : Evaluates machine scope tree (.error error) after) :
    Executes machine scope (.whileLoop condition body) (.error error) after
  | returnNil {machine : Machine} {scope : ScopeId} {line : Nat} :
    Executes machine scope (.returnWith none line) (.ok (.returned .nil)) machine
  | returnWith {machine after : Machine} {scope : ScopeId} {line : Nat} {expression : Expression}
      {tree : Tree} {value : Value} (unfolds : expression.Unfolds tree)
      (evaluates : Evaluates machine scope tree (.ok value) after) :
    Executes machine scope (.returnWith (some expression) line) (.ok (.returned value)) after
  | returnRaised {machine after : Machine} {scope : ScopeId} {line : Nat}
      {expression : Expression} {tree : Tree} {error : RuntimeError}
      (unfolds : expression.Unfolds tree)
      (evaluates : Evaluates machine scope tree (.error error) after) :
    Executes machine scope (.returnWith (some expression) line) (.error error) after

/-- In a scope, statements are executed one after the other, up to one that does not end normally. -/
inductive ExecutesAll : Machine → ScopeId → List Statement → Outcome Completion → Machine → Prop where
  | nil {machine : Machine} {scope : ScopeId} : ExecutesAll machine scope [] (.ok .normal) machine
  | cons {machine between after : Machine} {scope : ScopeId} {statement : Statement}
      {rest : List Statement} {outcome : Outcome Completion}
      (executes : Executes machine scope statement (.ok .normal) between)
      (executesAll : ExecutesAll between scope rest outcome after) :
    ExecutesAll machine scope (statement :: rest) outcome after
  | left {machine after : Machine} {scope : ScopeId} {statement : Statement}
      {rest : List Statement} {outcome : Outcome Completion}
      (executes : Executes machine scope statement outcome after) (left : outcome ≠ .ok .normal) :
    ExecutesAll machine scope (statement :: rest) outcome after

end

end Lox
