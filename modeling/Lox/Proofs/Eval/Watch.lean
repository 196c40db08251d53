import Lox.Eval.Evaluator
import Lox.Proofs.Mirror
import Lox.Proofs.Syntax.Enclosing

/-!
# Runs that are watched

The evaluator with a chronicle beside the machine. Beside each step it is known within which frames
of the program it is taken: a block and the body of a function add one, and a call goes back to the
frames around the declaration of the function, which the chronicle has by its identity. Nothing of
this is read off the store. Whenever a statement or a node is about to be run, the moment is noted.

The chronicle has no influence: what the machine does under watch is what it does alone.
-/

namespace Lox

/-- A statement or a node is about to be run in a scope. -/
structure Moment where
  machine : Machine
  scope : ScopeId
  /-- The frames around it, innermost first. -/
  around : List Frame
  subject : Subject

/-- What is known of functions and scopes. -/
structure Chronicle where
  /-- The frames around the declaration of a function, by its identity. -/
  homes : Nat → List Frame := fun _ => []
  /-- For each scope the frame that it was opened for and those around it. The first scope is for
  no frame. -/
  opened : List (List Frame) := [[]]

structure Watched extends Chronicle where
  machine : Machine
  /-- The latest first. -/
  moments : List Moment := []

abbrev Watch := EStateM Interrupt Watched

namespace Watch

variable {α β : Type}

/-- A step of the machine alone. -/
def step (run : Run α) : Watch α := fun watched =>
  match run watched.machine with
  | .ok value machine => .ok value { watched with machine }
  | .error interrupt machine => .error interrupt { watched with machine }

def note (around : List Frame) (scope : ScopeId) (subject : Subject) : Watch Unit :=
  modify fun watched =>
    { watched with moments := ⟨watched.machine, scope, around, subject⟩ :: watched.moments }

/-- Adds a scope for the first of the frames. -/
def openScope (around : List Frame) (parent : ScopeId) : Watch ScopeId := do
  let scope ← step (Run.newScope (some parent))
  modify fun watched => { watched with opened := watched.opened ++ [around] }
  return scope

/-- An identity for a function that is declared within the frames. -/
def newHome (around : List Frame) : Watch Nat := do
  let identity ← step Run.newIdentity
  modify fun watched =>
    { watched with homes := fun other => if other = identity then around else watched.homes other }
  return identity

def asCall (body : Watch α) : Watch α := fun watched =>
  match body { watched with
      machine := { watched.machine with callDepth := watched.machine.callDepth + 1 } } with
  | .ok value after =>
    .ok value { after with
      machine := { after.machine with callDepth := after.machine.callDepth - 1 } }
  | .error interrupt after =>
    .error interrupt { after with
      machine := { after.machine with callDepth := after.machine.callDepth - 1 } }

mutual

def evaluateNode : (fuel : Nat) → (around : List Frame) → (nodes : Array Node) → ScopeId →
    (index : Nat) → Watch Value
  | 0, _, _, _, _ => step (Run.fail .outOfFuel)
  | fuel + 1, around, nodes, scope, index => do
    note around scope (.node nodes index)
    match nodes[index]? with
    | none => step (Run.fail .danglingNode)
    | some (.literal value) => return .ofLiteral value
    | some (.var name) => step (Run.lookup scope name)
    | some (.group inner) => evaluateNode fuel around nodes scope inner
    | some (.unary operator operand line) => do
      let value ← evaluateNode fuel around nodes scope operand
      step (Run.ofExcept line (operator.apply value))
    | some (.binary operator left right line) => do
      let left ← evaluateNode fuel around nodes scope left
      let right ← evaluateNode fuel around nodes scope right
      step (Run.ofExcept line (operator.apply left right))
    | some (.logical operator left right) => do
      let left ← evaluateNode fuel around nodes scope left
      if operator.isDecided left then return left
      else evaluateNode fuel around nodes scope right
    | some (.assign name value) => do
      let value ← evaluateNode fuel around nodes scope value
      step (Run.assign scope name value)
      return value
    | some (.call callee arguments line) => do
      let callee ← evaluateNode fuel around nodes scope callee
      match callee.arity? with
      | none => step (Run.raise .notCallable line)
      | some arity =>
        let values ← evaluateNodes fuel around nodes scope arguments
        if values.length = arity then call fuel callee values line
        else step (Run.raise (.wrongArity arity values.length) line)
termination_by structural fuel => fuel

def evaluateNodes : (fuel : Nat) → (around : List Frame) → (nodes : Array Node) → ScopeId →
    (indices : List Nat) → Watch (List Value)
  | 0, _, _, _, _ => step (Run.fail .outOfFuel)
  | _ + 1, _, _, _, [] => return []
  | fuel + 1, around, nodes, scope, index :: rest => do
    let value ← evaluateNode fuel around nodes scope index
    return value :: (← evaluateNodes fuel around nodes scope rest)
termination_by structural fuel => fuel

/-- The body of a function is run within the frames around its declaration, wherever it is called. -/
def call : (fuel : Nat) → (callee : Value) → (arguments : List Value) → (line : Nat) → Watch Value
  | 0, _, _, _ => step (Run.fail .outOfFuel)
  | fuel + 1, callee, arguments, line =>
    match callee with
    | .native _ .clock => return .number (← step Run.readClock)
    | .function declared => do
      let watched ← get
      if maxCallDepth ≤ watched.machine.callDepth then step (Run.raise .stackOverflow line)
      else
        let around := ⟨declared.parameters, declared.body⟩ :: watched.homes declared.identity
        let scope ← openScope around declared.closure
        step (Run.bindAll scope declared.parameters arguments)
        return (← asCall (executeAll fuel around scope declared.body)).result
    | _ => step (Run.raise .notCallable line)
termination_by structural fuel => fuel

def execute : (fuel : Nat) → (around : List Frame) → ScopeId → Statement → Watch Completion
  | 0, _, _, _ => step (Run.fail .outOfFuel)
  | fuel + 1, around, scope, statement => do
    note around scope (.statement statement)
    match statement with
    | .varDecl name initial => do
      let value ← match initial with
        | some expression => evaluateNode fuel around expression.nodes scope expression.root
        | none => pure .nil
      step (Run.define scope name.name value)
      return .normal
    | .funDecl name parameters body => do
      let identity ← newHome around
      step (Run.define scope name.name (.function ⟨identity, name, parameters, body, scope⟩))
      return .normal
    | .expression expression => do
      let _ ← evaluateNode fuel around expression.nodes scope expression.root
      return .normal
    | .print expression => do
      let value ← evaluateNode fuel around expression.nodes scope expression.root
      step (Run.print value.render)
      return .normal
    | .block body => do
      let around := { entries := body } :: around
      executeAll fuel around (← openScope around scope) body
    | .ifThen condition success => do
      let value ← evaluateNode fuel around condition.nodes scope condition.root
      if value.isTruthy then execute fuel around scope success else return .normal
    | .ifElse condition success failure => do
      let value ← evaluateNode fuel around condition.nodes scope condition.root
      execute fuel around scope (if value.isTruthy then success else failure)
    | .whileLoop condition body => loop fuel around scope condition body
    | .returnWith result _ => do
      let value ← match result with
        | some expression => evaluateNode fuel around expression.nodes scope expression.root
        | none => pure .nil
      return .returned value
termination_by structural fuel => fuel

def executeAll : (fuel : Nat) → (around : List Frame) → ScopeId → List Statement →
    Watch Completion
  | 0, _, _, _ => step (Run.fail .outOfFuel)
  | _ + 1, _, _, [] => return .normal
  | fuel + 1, around, scope, statement :: rest => do
    match ← execute fuel around scope statement with
    | .normal => executeAll fuel around scope rest
    | .returned value => return .returned value
termination_by structural fuel => fuel

def loop : (fuel : Nat) → (around : List Frame) → ScopeId → (condition : Expression) →
    (body : Statement) → Watch Completion
  | 0, _, _, _, _ => step (Run.fail .outOfFuel)
  | fuel + 1, around, scope, condition, body => do
    let value ← evaluateNode fuel around condition.nodes scope condition.root
    if value.isTruthy then
      match ← execute fuel around scope body with
      | .normal => loop fuel around scope condition body
      | .returned value => return .returned value
    else return .normal
termination_by structural fuel => fuel

end

/-! ### The chronicle has no influence -/

/-- The machine alone. -/
def machineOnly : View Watched Machine Interrupt Interrupt where
  state := Watched.machine
  failure := id

/-- Without the chronicle, the watched run is the run. -/
abbrev Erases (watch : Watch α) (run : Run α) : Prop :=
  Mirrors machineOnly id watch run

theorem erases_step (run : Run α) : Erases (step run) run := by
  intro watched
  show run watched.machine = machineOnly.result id (step run watched)
  rw [step]
  cases run watched.machine <;> rfl

theorem Erases.afterNote {around : List Frame} {scope : ScopeId} {subject : Subject}
    {next : Watch α} {run : Run α} (h : Erases next run) :
    Erases (note around scope subject >>= fun _ => next) run := fun watched =>
  h { watched with moments := ⟨watched.machine, scope, around, subject⟩ :: watched.moments }

theorem erases_openScope (around : List Frame) (parent : ScopeId) :
    Erases (openScope around parent) (Run.newScope (some parent)) := fun _ => rfl

theorem erases_newHome (around : List Frame) : Erases (newHome around) Run.newIdentity :=
  fun _ => rfl

theorem Erases.asCall {body : Watch α} {run : Run α} (h : Erases body run) :
    Erases (asCall body) (Run.asCall run) := by
  intro watched
  have hinner := h { watched with
    machine := { watched.machine with callDepth := watched.machine.callDepth + 1 } }
  simp only [machineOnly] at hinner
  simp only [machineOnly, Watch.asCall, Run.asCall, hinner]
  cases body { watched with
    machine := { watched.machine with callDepth := watched.machine.callDepth + 1 } } <;> rfl

/-- With the fuel, the parts of the evaluator do under watch what they do alone. -/
structure AllErase (fuel : Nat) : Prop where
  node (around : List Frame) (nodes : Array Node) (scope : ScopeId) (index : Nat) :
    Erases (evaluateNode fuel around nodes scope index) (Run.evaluateNode fuel nodes scope index)
  nodes (around : List Frame) (nodes : Array Node) (scope : ScopeId) (indices : List Nat) :
    Erases (evaluateNodes fuel around nodes scope indices)
      (Run.evaluateNodes fuel nodes scope indices)
  call (callee : Value) (arguments : List Value) (line : Nat) :
    Erases (call fuel callee arguments line) (Run.call fuel callee arguments line)
  execute (around : List Frame) (scope : ScopeId) (statement : Statement) :
    Erases (execute fuel around scope statement) (Run.execute fuel scope statement)
  executeAll (around : List Frame) (scope : ScopeId) (statements : List Statement) :
    Erases (executeAll fuel around scope statements) (Run.executeAll fuel scope statements)
  loop (around : List Frame) (scope : ScopeId) (condition : Expression) (body : Statement) :
    Erases (loop fuel around scope condition body) (Run.loop fuel scope condition body)

theorem allErase_zero : AllErase 0 where
  node _ _ _ _ := erases_step _
  nodes _ _ _ _ := erases_step _
  call _ _ _ := erases_step _
  execute _ _ _ := erases_step _
  executeAll _ _ _ := erases_step _
  loop _ _ _ _ := erases_step _

section
variable {fuel : Nat} (h : AllErase fuel) (around : List Frame) (scope : ScopeId)
include h

theorem erases_node_succ (nodes : Array Node) (index : Nat) :
    Erases (evaluateNode (fuel + 1) around nodes scope index)
      (Run.evaluateNode (fuel + 1) nodes scope index) := by
  rw [evaluateNode, Run.evaluateNode]
  refine .afterNote ?_
  cases nodes[index]? with
  | none => exact erases_step _
  | some node =>
    cases node with
    | literal value => exact mirrors_pure rfl
    | var name => exact erases_step _
    | group inner => exact h.node around nodes scope inner
    | unary operator operand line =>
      exact (h.node around nodes scope operand).bind fun value => erases_step _
    | binary operator left right line =>
      exact (h.node around nodes scope left).bind fun first =>
        (h.node around nodes scope right).bind fun second => erases_step _
    | logical operator left right =>
      exact (h.node around nodes scope left).bind fun value =>
        .ite (mirrors_pure rfl) (h.node around nodes scope right)
    | assign name value =>
      exact (h.node around nodes scope value).bind fun value =>
        (erases_step _).bind fun _ => mirrors_pure rfl
    | call callee arguments line =>
      refine (h.node around nodes scope callee).bind fun callee => ?_
      rw [id_eq]
      cases callee.arity? with
      | none => exact erases_step _
      | some arity =>
        exact (h.nodes around nodes scope arguments).bind fun values =>
          .ite (h.call callee values line) (erases_step _)

theorem erases_nodes_succ (nodes : Array Node) (indices : List Nat) :
    Erases (evaluateNodes (fuel + 1) around nodes scope indices)
      (Run.evaluateNodes (fuel + 1) nodes scope indices) := by
  cases indices with
  | nil => exact mirrors_pure rfl
  | cons index rest =>
    exact (h.node around nodes scope index).bind fun value =>
      (h.nodes around nodes scope rest).bind fun values => mirrors_pure rfl

omit around scope in
theorem erases_call_succ (callee : Value) (arguments : List Value) (line : Nat) :
    Erases (call (fuel + 1) callee arguments line) (Run.call (fuel + 1) callee arguments line) := by
  cases callee with
  | native identity which =>
    cases which with
    | clock => exact (erases_step _).bind fun _ => mirrors_pure rfl
  | function declared =>
    refine mirrors_get fun watched => .ite (erases_step _) ?_
    exact (erases_openScope _ _).bind fun scope => (erases_step _).bind fun _ =>
      (h.executeAll _ scope declared.body).asCall.bind fun completion => mirrors_pure rfl
  | _ => exact erases_step _

theorem erases_execute_succ (statement : Statement) :
    Erases (execute (fuel + 1) around scope statement) (Run.execute (fuel + 1) scope statement) := by
  refine .afterNote ?_
  cases statement with
  | varDecl name initial =>
    have hdefine (value : Value) : Erases (step (Run.define scope name.name value) >>= fun _ =>
        pure .normal) (Run.define scope name.name value >>= fun _ => pure Completion.normal) :=
      (erases_step _).bind fun _ => mirrors_pure rfl
    cases initial with
    | none => exact hdefine .nil
    | some expression =>
      exact (h.node around expression.nodes scope expression.root).bind hdefine
  | funDecl name parameters body =>
    exact (erases_newHome around).bind fun identity => (erases_step _).bind fun _ => mirrors_pure rfl
  | expression value =>
    exact (h.node around value.nodes scope value.root).bind fun _ => mirrors_pure rfl
  | print value =>
    exact (h.node around value.nodes scope value.root).bind fun _ =>
      (erases_step _).bind fun _ => mirrors_pure rfl
  | block body => exact (erases_openScope _ scope).bind fun inner => h.executeAll _ inner body
  | ifThen condition success =>
    exact (h.node around condition.nodes scope condition.root).bind fun value =>
      .ite (h.execute around scope success) (mirrors_pure rfl)
  | ifElse condition success failure =>
    exact (h.node around condition.nodes scope condition.root).bind fun value =>
      h.execute around scope _
  | whileLoop condition body => exact h.loop around scope condition body
  | returnWith value line =>
    cases value with
    | none => exact mirrors_pure rfl
    | some expression =>
      exact (h.node around expression.nodes scope expression.root).bind fun _ => mirrors_pure rfl

theorem erases_executeAll_succ (statements : List Statement) :
    Erases (executeAll (fuel + 1) around scope statements)
      (Run.executeAll (fuel + 1) scope statements) := by
  cases statements with
  | nil => exact mirrors_pure rfl
  | cons statement rest =>
    refine (h.execute around scope statement).bind fun completion => ?_
    cases completion with
    | normal => exact h.executeAll around scope rest
    | returned value => exact mirrors_pure rfl

theorem erases_loop_succ (condition : Expression) (body : Statement) :
    Erases (loop (fuel + 1) around scope condition body)
      (Run.loop (fuel + 1) scope condition body) := by
  refine (h.node around condition.nodes scope condition.root).bind fun value => ?_
  refine .ite ((h.execute around scope body).bind fun completion => ?_) (mirrors_pure rfl)
  cases completion with
  | normal => exact h.loop around scope condition body
  | returned value => exact mirrors_pure rfl

end

theorem allErase (fuel : Nat) : AllErase fuel := by
  induction fuel with
  | zero => exact allErase_zero
  | succ fuel ih =>
    exact ⟨fun around nodes scope => erases_node_succ ih around scope nodes,
      fun around nodes scope => erases_nodes_succ ih around scope nodes, erases_call_succ ih,
      fun around scope => erases_execute_succ ih around scope,
      fun around scope => erases_executeAll_succ ih around scope,
      fun around scope => erases_loop_succ ih around scope⟩

end Watch

end Lox
