import Lox.Eval.Machine

/-!
# Running programs

The meaning of expressions and statements, as runs of the machine. Operands run from left to right.
A callee is known to be callable before its arguments run, the arguments run before they are
counted, and they are counted before the number of active calls is. A `return` ends blocks and loops
up to the nearest call.

A program may run forever, so every function here takes fuel, which bounds how deep it goes and how
often a loop repeats. A run that ends does not depend on it.
-/

namespace Lox

/-- How a statement ended. -/
inductive Completion where
  | normal
  /-- A `return` is on its way to the nearest call. -/
  | returned (value : Value)

def Completion.result : Completion → Value
  | normal => .nil
  | returned value => value

namespace Run

mutual

def evaluateNode : (fuel : Nat) → (nodes : Array Node) → ScopeId → (index : Nat) → Run Value
  | 0, _, _, _ => fail .outOfFuel
  | fuel + 1, nodes, scope, index =>
    match nodes[index]? with
    | none => fail .danglingNode
    | some (.literal value) => return .ofLiteral value
    | some (.var name) => lookup scope name
    | some (.group inner) => evaluateNode fuel nodes scope inner
    | some (.unary operator operand line) => do
      let value ← evaluateNode fuel nodes scope operand
      ofExcept line (operator.apply value)
    | some (.binary operator left right line) => do
      let left ← evaluateNode fuel nodes scope left
      let right ← evaluateNode fuel nodes scope right
      ofExcept line (operator.apply left right)
    | some (.logical operator left right) => do
      let left ← evaluateNode fuel nodes scope left
      if operator.isDecided left then return left
      else evaluateNode fuel nodes scope right
    | some (.assign name value) => do
      let value ← evaluateNode fuel nodes scope value
      assign scope name value
      return value
    | some (.call callee arguments line) => do
      let callee ← evaluateNode fuel nodes scope callee
      match callee.arity? with
      | none => raise .notCallable line
      | some arity =>
        let values ← evaluateNodes fuel nodes scope arguments
        if values.length = arity then call fuel callee values line
        else raise (.wrongArity arity values.length) line
termination_by structural fuel => fuel

def evaluateNodes : (fuel : Nat) → (nodes : Array Node) → ScopeId → (indices : List Nat) →
    Run (List Value)
  | 0, _, _, _ => fail .outOfFuel
  | _ + 1, _, _, [] => return []
  | fuel + 1, nodes, scope, index :: rest => do
    let value ← evaluateNode fuel nodes scope index
    return value :: (← evaluateNodes fuel nodes scope rest)
termination_by structural fuel => fuel

/-- Calls a value with as many arguments as it takes. -/
def call : (fuel : Nat) → (callee : Value) → (arguments : List Value) → (line : Nat) → Run Value
  | 0, _, _, _ => fail .outOfFuel
  | fuel + 1, callee, arguments, line =>
    match callee with
    | .native _ .clock => return .number (← readClock)
    | .function declared => do
      if maxCallDepth ≤ (← get).callDepth then raise .stackOverflow line
      else
        let scope ← newScope (some declared.closure)
        bindAll scope declared.parameters arguments
        return (← asCall (executeAll fuel scope declared.body)).result
    | _ => raise .notCallable line
termination_by structural fuel => fuel

def execute : (fuel : Nat) → ScopeId → Statement → Run Completion
  | 0, _, _ => fail .outOfFuel
  | fuel + 1, scope, statement =>
    match statement with
    | .varDecl name initial => do
      let value ← match initial with
        | some expression => evaluateNode fuel expression.nodes scope expression.root
        | none => pure .nil
      define scope name.name value
      return .normal
    | .funDecl name parameters body => do
      let identity ← newIdentity
      define scope name.name (.function ⟨identity, name, parameters, body, scope⟩)
      return .normal
    | .expression expression => do
      let _ ← evaluateNode fuel expression.nodes scope expression.root
      return .normal
    | .print expression => do
      let value ← evaluateNode fuel expression.nodes scope expression.root
      print value.render
      return .normal
    | .block body => do
      executeAll fuel (← newScope (some scope)) body
    | .ifThen condition success => do
      let value ← evaluateNode fuel condition.nodes scope condition.root
      if value.isTruthy then execute fuel scope success else return .normal
    | .ifElse condition success failure => do
      let value ← evaluateNode fuel condition.nodes scope condition.root
      execute fuel scope (if value.isTruthy then success else failure)
    | .whileLoop condition body => loop fuel scope condition body
    | .returnWith result _ => do
      let value ← match result with
        | some expression => evaluateNode fuel expression.nodes scope expression.root
        | none => pure .nil
      return .returned value
termination_by structural fuel => fuel

def executeAll : (fuel : Nat) → ScopeId → List Statement → Run Completion
  | 0, _, _ => fail .outOfFuel
  | _ + 1, _, [] => return .normal
  | fuel + 1, scope, statement :: rest => do
    match ← execute fuel scope statement with
    | .normal => executeAll fuel scope rest
    | .returned value => return .returned value
termination_by structural fuel => fuel

/-- Runs a loop, up to a round that returns. -/
def loop : (fuel : Nat) → ScopeId → (condition : Expression) → (body : Statement) → Run Completion
  | 0, _, _, _ => fail .outOfFuel
  | fuel + 1, scope, condition, body => do
    let value ← evaluateNode fuel condition.nodes scope condition.root
    if value.isTruthy then
      match ← execute fuel scope body with
      | .normal => loop fuel scope condition body
      | .returned value => return .returned value
    else return .normal
termination_by structural fuel => fuel

end

def evaluate (fuel : Nat) (scope : ScopeId) (expression : Expression) : Run Value :=
  evaluateNode fuel expression.nodes scope expression.root

end Run

end Lox
