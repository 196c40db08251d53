import Lox.Proofs.Eval.Soundness
import Lox.Proofs.Mirror

/-!
# Runs within runs

The six parts of the evaluator call each other, each time with less fuel. A task says which part is
called for what, and `Task.Starts` says which tasks a task starts directly and in which machine:
what has to be done before has ended by then. Only the body of a function is apart, since it is
where a call becomes active. `Task.Reaches` follows tasks down to any depth and keeps the functions
whose bodies are being executed there, so every moment of every run is the start of a task that is
reached, be the run one that never ends.

A run ends with an error just if a task is reached that raises it by itself: nothing on the way back
has another influence on it, or on the machine, than to give the levels back that were taken.
-/

namespace Lox

/-- Something that is run in the evaluator. -/
inductive Task where
  | node (nodes : Array Node) (scope : ScopeId) (index : Nat)
  | nodes (nodes : Array Node) (scope : ScopeId) (indices : List Nat)
  | call (callee : Value) (arguments : List Value) (line : Nat)
  | statement (scope : ScopeId) (statement : Statement)
  | statements (scope : ScopeId) (statements : List Statement)
  | loop (scope : ScopeId) (condition : Expression) (body : Statement)

/-- The operand that is evaluated first. -/
def Node.operand? : Node → Option Nat
  | literal _ | var _ => none
  | group operand | unary _ operand _ | binary _ operand _ _ | logical _ operand _
  | assign _ operand | call operand _ _ => some operand

/-- The expression that is evaluated first. -/
def Statement.expression? : Statement → Option Expression
  | varDecl _ initial => initial
  | expression value | print value => some value
  | ifThen condition _ | ifElse condition _ _ => some condition
  | returnWith value _ => value
  | funDecl .. | block _ | whileLoop .. => none

namespace Task

/-- What the task yields. -/
abbrev Result : Task → Type
  | node .. | call .. => Value
  | nodes .. => List Value
  | statement .. | statements .. | loop .. => Completion

def run (fuel : Nat) : (task : Task) → Run task.Result
  | node table scope index => Run.evaluateNode fuel table scope index
  | nodes table scope indices => Run.evaluateNodes fuel table scope indices
  | call callee arguments line => Run.call fuel callee arguments line
  | statement scope single => Run.execute fuel scope single
  | statements scope list => Run.executeAll fuel scope list
  | loop scope condition body => Run.loop fuel scope condition body

/-- A call has as many arguments as its callee takes. -/
def Counted : Task → Prop
  | call callee arguments _ => callee.arity? = some arguments.length
  | _ => True

open Run

/-- In a machine the task starts another one, in the machine as it is then. Both have the fuel that
the parts of the task have. -/
inductive Starts (fuel : Nat) : Task → Machine → Task → Machine → Prop where
  | operand {nodes : Array Node} {scope : ScopeId} {index operand : Nat} {node : Node}
      {machine : Machine} (found : nodes[index]? = some node)
      (first : node.operand? = some operand) :
    Starts fuel (.node nodes scope index) machine (.node nodes scope operand) machine
  | binaryRight {nodes : Array Node} {scope : ScopeId} {index left right line : Nat}
      {operator : BinaryOperator} {machine between : Machine} {value : Value}
      (found : nodes[index]? = some (.binary operator left right line))
      (ended : (evaluateNode fuel nodes scope left).Ends machine (.ok value) between) :
    Starts fuel (.node nodes scope index) machine (.node nodes scope right) between
  | logicalRight {nodes : Array Node} {scope : ScopeId} {index left right : Nat}
      {operator : LogicalOperator} {machine between : Machine} {value : Value}
      (found : nodes[index]? = some (.logical operator left right))
      (ended : (evaluateNode fuel nodes scope left).Ends machine (.ok value) between)
      (undecided : ¬ operator.isDecided value = true) :
    Starts fuel (.node nodes scope index) machine (.node nodes scope right) between
  | arguments {nodes : Array Node} {scope : ScopeId} {index callee line expected : Nat}
      {arguments : List Nat} {machine between : Machine} {called : Value}
      (found : nodes[index]? = some (.call callee arguments line))
      (ended : (evaluateNode fuel nodes scope callee).Ends machine (.ok called) between)
      (arity : called.arity? = some expected) :
    Starts fuel (.node nodes scope index) machine (.nodes nodes scope arguments) between
  | call {nodes : Array Node} {scope : ScopeId} {index callee line : Nat} {arguments : List Nat}
      {machine between ready : Machine} {called : Value} {values : List Value}
      (found : nodes[index]? = some (.call callee arguments line))
      (ended : (evaluateNode fuel nodes scope callee).Ends machine (.ok called) between)
      (arity : called.arity? = some values.length)
      (endedAll : (evaluateNodes fuel nodes scope arguments).Ends between (.ok values) ready) :
    Starts fuel (.node nodes scope index) machine (.call called values line) ready
  | head {nodes : Array Node} {scope : ScopeId} {index : Nat} {rest : List Nat}
      {machine : Machine} :
    Starts fuel (.nodes nodes scope (index :: rest)) machine (.node nodes scope index) machine
  | tail {nodes : Array Node} {scope : ScopeId} {index : Nat} {rest : List Nat}
      {machine between : Machine} {value : Value}
      (ended : (evaluateNode fuel nodes scope index).Ends machine (.ok value) between) :
    Starts fuel (.nodes nodes scope (index :: rest)) machine (.nodes nodes scope rest) between
  | expression {scope : ScopeId} {statement : Statement} {expression : Expression}
      {machine : Machine} (evaluates : statement.expression? = some expression) :
    Starts fuel (.statement scope statement) machine
      (.node expression.nodes scope expression.root) machine
  | block {scope : ScopeId} {body : List Statement} {machine : Machine} :
    Starts fuel (.statement scope (.block body)) machine (.statements machine.newest body)
      (machine.enter scope)
  | success {scope : ScopeId} {condition : Expression} {success : Statement}
      {machine between : Machine} {value : Value}
      (ended : (evaluate fuel scope condition).Ends machine (.ok value) between)
      (truthy : value.isTruthy = true) :
    Starts fuel (.statement scope (.ifThen condition success)) machine (.statement scope success)
      between
  | branch {scope : ScopeId} {condition : Expression} {success failure : Statement}
      {machine between : Machine} {value : Value}
      (ended : (evaluate fuel scope condition).Ends machine (.ok value) between) :
    Starts fuel (.statement scope (.ifElse condition success failure)) machine
      (.statement scope (if value.isTruthy then success else failure)) between
  | loop {scope : ScopeId} {condition : Expression} {body : Statement} {machine : Machine} :
    Starts fuel (.statement scope (.whileLoop condition body)) machine (.loop scope condition body)
      machine
  | first {scope : ScopeId} {statement : Statement} {rest : List Statement} {machine : Machine} :
    Starts fuel (.statements scope (statement :: rest)) machine (.statement scope statement) machine
  | later {scope : ScopeId} {statement : Statement} {rest : List Statement}
      {machine between : Machine}
      (ended : (execute fuel scope statement).Ends machine (.ok .normal) between) :
    Starts fuel (.statements scope (statement :: rest)) machine (.statements scope rest) between
  | condition {scope : ScopeId} {condition : Expression} {body : Statement} {machine : Machine} :
    Starts fuel (.loop scope condition body) machine
      (.node condition.nodes scope condition.root) machine
  | round {scope : ScopeId} {condition : Expression} {body : Statement}
      {machine between : Machine} {value : Value}
      (ended : (evaluate fuel scope condition).Ends machine (.ok value) between)
      (truthy : value.isTruthy = true) :
    Starts fuel (.loop scope condition body) machine (.statement scope body) between
  | again {scope : ScopeId} {condition : Expression} {body : Statement}
      {machine between further : Machine} {value : Value}
      (ended : (evaluate fuel scope condition).Ends machine (.ok value) between)
      (truthy : value.isTruthy = true)
      (endedBody : (execute fuel scope body).Ends between (.ok .normal) further) :
    Starts fuel (.loop scope condition body) machine (.loop scope condition body) further

/-- In a machine the task raises an error by itself, and leaves a machine behind. -/
inductive Raises (fuel : Nat) : Task → Machine → RuntimeError → Machine → Prop where
  | undefined {nodes : Array Node} {scope : ScopeId} {index : Nat} {name : Identifier}
      {machine : Machine} (found : nodes[index]? = some (.var name))
      (unbound : machine.store.value? name.name scope = none) :
    Raises fuel (.node nodes scope index) machine ⟨.undefined name.name, name.line⟩ machine
  | unary {nodes : Array Node} {scope : ScopeId} {index operand line : Nat}
      {operator : UnaryOperator} {machine after : Machine} {value : Value}
      {cause : RuntimeError.Cause} (found : nodes[index]? = some (.unary operator operand line))
      (ended : (evaluateNode fuel nodes scope operand).Ends machine (.ok value) after)
      (fails : operator.apply value = .error cause) :
    Raises fuel (.node nodes scope index) machine ⟨cause, line⟩ after
  | binary {nodes : Array Node} {scope : ScopeId} {index left right line : Nat}
      {operator : BinaryOperator} {machine between after : Machine} {first second : Value}
      {cause : RuntimeError.Cause} (found : nodes[index]? = some (.binary operator left right line))
      (endedLeft : (evaluateNode fuel nodes scope left).Ends machine (.ok first) between)
      (endedRight : (evaluateNode fuel nodes scope right).Ends between (.ok second) after)
      (fails : operator.apply first second = .error cause) :
    Raises fuel (.node nodes scope index) machine ⟨cause, line⟩ after
  | unassignable {nodes : Array Node} {scope : ScopeId} {index operand : Nat} {name : Identifier}
      {machine after : Machine} {value : Value}
      (found : nodes[index]? = some (.assign name operand))
      (ended : (evaluateNode fuel nodes scope operand).Ends machine (.ok value) after)
      (unbound : after.store.resolve? name.name scope = none) :
    Raises fuel (.node nodes scope index) machine ⟨.undefined name.name, name.line⟩ after
  | notCallable {nodes : Array Node} {scope : ScopeId} {index callee line : Nat}
      {arguments : List Nat} {machine after : Machine} {called : Value}
      (found : nodes[index]? = some (.call callee arguments line))
      (ended : (evaluateNode fuel nodes scope callee).Ends machine (.ok called) after)
      (other : called.arity? = none) :
    Raises fuel (.node nodes scope index) machine ⟨.notCallable, line⟩ after
  | wrongArity {nodes : Array Node} {scope : ScopeId} {index callee line expected : Nat}
      {arguments : List Nat} {machine between after : Machine} {called : Value}
      {values : List Value} (found : nodes[index]? = some (.call callee arguments line))
      (ended : (evaluateNode fuel nodes scope callee).Ends machine (.ok called) between)
      (arity : called.arity? = some expected)
      (endedAll : (evaluateNodes fuel nodes scope arguments).Ends between (.ok values) after)
      (wrong : values.length ≠ expected) :
    Raises fuel (.node nodes scope index) machine ⟨.wrongArity expected values.length, line⟩ after
  | uncalled {callee : Value} {arguments : List Value} {line : Nat} {machine : Machine}
      (other : callee.arity? = none) :
    Raises fuel (.call callee arguments line) machine ⟨.notCallable, line⟩ machine
  | stackOverflow {declared : Function} {arguments : List Value} {line : Nat} {machine : Machine}
      (full : maxCallDepth ≤ machine.callDepth) :
    Raises fuel (.call (.function declared) arguments line) machine ⟨.stackOverflow, line⟩ machine

/-- With the fuel the task comes, in a machine, to another task with the fuel that is left for that
one, in the machine as it is then. The functions are those whose bodies are entered on the way and
being executed, outermost first. -/
inductive Reaches : (fuel : Nat) → Task → Machine → List Function → (left : Nat) → Task → Machine →
    Prop where
  | here {fuel : Nat} {task : Task} {machine : Machine} :
    Reaches fuel task machine [] fuel task machine
  | within {fuel left : Nat} {task sub last : Task} {machine between further : Machine}
      {active : List Function} (starts : task.Starts fuel machine sub between)
      (reaches : Reaches fuel sub between active left last further) :
    Reaches (fuel + 1) task machine active left last further
  | into {fuel left line : Nat} {declared : Function} {arguments : List Value} {last : Task}
      {machine further : Machine} {active : List Function}
      (room : machine.callDepth < maxCallDepth)
      (reaches : Reaches fuel (.statements machine.newest declared.body)
        (machine.called declared arguments) active left last further) :
    Reaches (fuel + 1) (.call (.function declared) arguments line) machine (declared :: active) left
      last further

/-! ### Errors on their way -/

section
variable {fuel : Nat} {task sub : Task} {machine between after : Machine} {error : RuntimeError}

/-- The task ends with the error of a task that it starts. -/
theorem Starts.raised (h : task.Starts fuel machine sub between)
    (hends : (sub.run fuel).Ends between (.error error) after) :
    (task.run (fuel + 1)).Ends machine (.error error) after := by
  cases h with
  | @operand _ _ _ _ node _ found first =>
    simp only [run, evaluateNode, found]
    cases node with
    | literal | var => cases first
    | group =>
      cases first
      exact hends
    | unary | binary | logical | assign | call =>
      cases first
      exact Ends.bindRaised hends
  | binaryRight found ended =>
    simp only [run, evaluateNode, found]
    exact ended.bind (Ends.bindRaised hends)
  | logicalRight found ended undecided =>
    simp only [run, evaluateNode, found]
    refine ended.bind ?_
    rw [if_neg undecided]
    exact hends
  | arguments found ended arity =>
    simp only [run, evaluateNode, found]
    refine ended.bind ?_
    simp only [arity]
    exact Ends.bindRaised hends
  | call found ended arity endedAll =>
    simp only [run, evaluateNode, found]
    refine ended.bind ?_
    simp only [arity]
    refine endedAll.bind ?_
    rw [if_pos rfl]
    exact hends
  | head =>
    rw [run, evaluateNodes]
    exact Ends.bindRaised hends
  | tail ended =>
    rw [run, evaluateNodes]
    exact ended.bind (Ends.bindRaised hends)
  | @expression _ statement expression _ evaluates =>
    cases statement <;> cases evaluates <;> rw [run, execute] <;> exact Ends.bindRaised hends
  | block =>
    rw [run, execute, ends_newScope_bind]
    exact hends
  | success ended truthy =>
    rw [run, execute]
    refine ended.bind ?_
    rw [if_pos truthy]
    exact hends
  | branch ended =>
    rw [run, execute]
    exact ended.bind hends
  | loop =>
    rw [run, execute]
    exact hends
  | first =>
    rw [run, executeAll]
    exact Ends.bindRaised hends
  | later ended =>
    rw [run, executeAll]
    exact ended.bind hends
  | condition =>
    rw [run, Run.loop]
    exact Ends.bindRaised hends
  | round ended truthy =>
    rw [run, Run.loop]
    refine ended.bind ?_
    rw [if_pos truthy]
    exact Ends.bindRaised hends
  | again ended truthy endedBody =>
    rw [run, Run.loop]
    refine ended.bind ?_
    rw [if_pos truthy]
    exact endedBody.bind hends

theorem Raises.ends (h : task.Raises fuel machine error after) :
    (task.run (fuel + 1)).Ends machine (.error error) after := by
  cases h with
  | undefined found unbound =>
    simp only [run, evaluateNode, found, lookup, ends_get_bind, unbound]
    exact ends_raise.2 ⟨rfl, rfl⟩
  | unary found ended fails =>
    simp only [run, evaluateNode, found]
    exact ended.bind (ends_ofExcept_raised.2 ⟨_, fails, rfl, rfl⟩)
  | binary found endedLeft endedRight fails =>
    simp only [run, evaluateNode, found]
    exact endedLeft.bind (endedRight.bind (ends_ofExcept_raised.2 ⟨_, fails, rfl, rfl⟩))
  | unassignable found ended unbound =>
    simp only [run, evaluateNode, found]
    refine ended.bind (Ends.bindRaised ?_)
    simp only [assign, ends_get_bind, unbound]
    exact ends_raise.2 ⟨rfl, rfl⟩
  | notCallable found ended other =>
    simp only [run, evaluateNode, found]
    refine ended.bind ?_
    simp only [other]
    exact ends_raise.2 ⟨rfl, rfl⟩
  | wrongArity found ended arity endedAll wrong =>
    simp only [run, evaluateNode, found]
    refine ended.bind ?_
    simp only [arity]
    refine endedAll.bind ?_
    rw [if_neg wrong]
    exact ends_raise.2 ⟨rfl, rfl⟩
  | @uncalled callee _ _ _ other =>
    cases callee <;> simp only [run, Run.call]
    case native | function => cases other
    all_goals exact ends_raise.2 ⟨rfl, rfl⟩
  | stackOverflow full =>
    exact ends_call_function.2 (.inl ⟨full, rfl, rfl⟩)

end

/-- Where an error comes from that a task ends with: from the task itself, from one that it starts,
or from the body of the function that is called. -/
inductive Origin (fuel : Nat) (task : Task) (before : Machine) (error : RuntimeError)
    (after : Machine) : Prop where
  | own (raises : task.Raises fuel before error after)
  | started {sub : Task} {between : Machine} (starts : task.Starts fuel before sub between)
      (ends : (sub.run fuel).Ends between (.error error) after)
  | entered {declared : Function} {arguments : List Value} {line : Nat} {final : Machine}
      (calls : task = .call (.function declared) arguments line)
      (room : before.callDepth < maxCallDepth)
      (ends : (executeAll fuel before.newest declared.body).Ends (before.called declared arguments)
        (.error error) final)
      (leaves : after = { final with callDepth := final.callDepth - 1 })

section
variable {fuel : Nat} {before after : Machine} {error : RuntimeError} {scope : ScopeId}

theorem origin_node {nodes : Array Node} {index : Nat}
    (h : (evaluateNode (fuel + 1) nodes scope index).Ends before (.error error) after) :
    Origin fuel (.node nodes scope index) before error after := by
  cases hfound : nodes[index]? with
  | none =>
    simp only [evaluateNode, hfound] at h
    exact absurd h not_ends_fail
  | some node =>
    cases node with
    | literal value =>
      simp only [evaluateNode, hfound] at h
      cases (ends_pure.1 h).1
    | var name =>
      simp only [evaluateNode, hfound, lookup, ends_get_bind] at h
      split at h
      · cases (ends_pure.1 h).1
      · rename_i hunbound
        obtain ⟨herror, rfl⟩ := ends_raise.1 h
        cases herror
        exact .own (.undefined hfound hunbound)
    | group inner =>
      simp only [evaluateNode, hfound] at h
      exact .started (.operand hfound rfl) h
    | unary operator operand line =>
      simp only [evaluateNode, hfound] at h
      rcases ends_bind_raised.1 h with h | ⟨value, between, hended, h⟩
      · exact .started (.operand hfound rfl) h
      · obtain ⟨cause, hfails, rfl, rfl⟩ := ends_ofExcept_raised.1 h
        exact .own (.unary hfound hended hfails)
    | binary operator left right line =>
      simp only [evaluateNode, hfound] at h
      rcases ends_bind_raised.1 h with h | ⟨first, between, hleft, h⟩
      · exact .started (.operand hfound rfl) h
      rcases ends_bind_raised.1 h with h | ⟨second, further, hright, h⟩
      · exact .started (.binaryRight hfound hleft) h
      · obtain ⟨cause, hfails, rfl, rfl⟩ := ends_ofExcept_raised.1 h
        exact .own (.binary hfound hleft hright hfails)
    | logical operator left right =>
      simp only [evaluateNode, hfound] at h
      rcases ends_bind_raised.1 h with h | ⟨value, between, hleft, h⟩
      · exact .started (.operand hfound rfl) h
      · split at h
        · cases (ends_pure.1 h).1
        · rename_i hundecided
          exact .started (.logicalRight hfound hleft hundecided) h
    | assign name operand =>
      simp only [evaluateNode, hfound] at h
      rcases ends_bind_raised.1 h with h | ⟨value, between, hended, h⟩
      · exact .started (.operand hfound rfl) h
      rcases ends_bind_raised.1 h with h | ⟨_, further, -, h⟩
      · simp only [assign, ends_get_bind] at h
        split at h
        · cases (ends_define.1 h).1
        · rename_i hunbound
          obtain ⟨herror, rfl⟩ := ends_raise.1 h
          cases herror
          exact .own (.unassignable hfound hended hunbound)
      · cases (ends_pure.1 h).1
    | call callee arguments line =>
      simp only [evaluateNode, hfound] at h
      rcases ends_bind_raised.1 h with h | ⟨called, between, hended, h⟩
      · exact .started (.operand hfound rfl) h
      cases harity : called.arity? with
      | none =>
        simp only [harity] at h
        obtain ⟨herror, rfl⟩ := ends_raise.1 h
        cases herror
        exact .own (.notCallable hfound hended harity)
      | some expected =>
        simp only [harity] at h
        rcases ends_bind_raised.1 h with h | ⟨values, ready, hall, h⟩
        · exact .started (.arguments hfound hended harity) h
        · split at h
          · rename_i hlength
            exact .started (.call hfound hended (hlength ▸ harity) hall) h
          · rename_i hwrong
            obtain ⟨herror, rfl⟩ := ends_raise.1 h
            cases herror
            exact .own (.wrongArity hfound hended harity hall hwrong)

theorem origin_nodes {nodes : Array Node} {indices : List Nat}
    (h : (evaluateNodes (fuel + 1) nodes scope indices).Ends before (.error error) after) :
    Origin fuel (.nodes nodes scope indices) before error after := by
  cases indices with
  | nil =>
    rw [evaluateNodes] at h
    cases (ends_pure.1 h).1
  | cons index rest =>
    rw [evaluateNodes] at h
    rcases ends_bind_raised.1 h with h | ⟨value, between, hended, h⟩
    · exact .started .head h
    rcases ends_bind_raised.1 h with h | ⟨values, further, -, h⟩
    · exact .started (.tail hended) h
    · cases (ends_pure.1 h).1

theorem origin_call {callee : Value} {arguments : List Value} {line : Nat}
    (h : (Run.call (fuel + 1) callee arguments line).Ends before (.error error) after) :
    Origin fuel (.call callee arguments line) before error after := by
  cases callee with
  | native identity which =>
    cases which
    simp only [Run.call] at h
    rcases ends_bind_raised.1 h with h | ⟨reading, between, -, h⟩
    · cases (ends_modifyGet.1 h).1
    · cases (ends_pure.1 h).1
  | function declared =>
    obtain ⟨hfull, herror, rfl⟩ | ⟨hroom, outcome, final, hends, herror, hafter⟩ :=
      ends_call_function.1 h
    · cases herror
      exact .own (.stackOverflow hfull)
    · cases outcome with
      | ok completion => cases herror
      | error raised =>
        cases herror
        exact .entered rfl hroom hends hafter
  | nil | bool value | number value | text value =>
    simp only [Run.call] at h
    obtain ⟨herror, rfl⟩ := ends_raise.1 h
    cases herror
    exact .own (.uncalled rfl)

theorem origin_statement {statement : Statement}
    (h : (execute (fuel + 1) scope statement).Ends before (.error error) after) :
    Origin fuel (.statement scope statement) before error after := by
  cases statement with
  | varDecl name initial =>
    cases initial with
    | none =>
      simp only [execute, pure_bind, ends_define_bind] at h
      cases (ends_pure.1 h).1
    | some expression =>
      simp only [execute] at h
      rcases ends_bind_raised.1 h with h | ⟨value, between, -, h⟩
      · exact .started (.expression rfl) h
      · rw [ends_define_bind] at h
        cases (ends_pure.1 h).1
  | funDecl name parameters body =>
    rw [execute, newIdentity, ends_modifyGet_bind, ends_define_bind] at h
    cases (ends_pure.1 h).1
  | expression value =>
    rw [execute] at h
    rcases ends_bind_raised.1 h with h | ⟨result, between, -, h⟩
    · exact .started (.expression rfl) h
    · cases (ends_pure.1 h).1
  | print value =>
    rw [execute] at h
    rcases ends_bind_raised.1 h with h | ⟨result, between, -, h⟩
    · exact .started (.expression rfl) h
    · rw [ends_print_bind] at h
      cases (ends_pure.1 h).1
  | block body =>
    rw [execute, ends_newScope_bind] at h
    exact .started .block h
  | ifThen condition success =>
    rw [execute] at h
    rcases ends_bind_raised.1 h with h | ⟨value, between, hended, h⟩
    · exact .started (.expression rfl) h
    · split at h
      · rename_i htruthy
        exact .started (.success hended htruthy) h
      · cases (ends_pure.1 h).1
  | ifElse condition success failure =>
    rw [execute] at h
    rcases ends_bind_raised.1 h with h | ⟨value, between, hended, h⟩
    · exact .started (.expression rfl) h
    · exact .started (.branch hended) h
  | whileLoop condition body =>
    rw [execute] at h
    exact .started .loop h
  | returnWith value line =>
    cases value with
    | none =>
      simp only [execute, pure_bind] at h
      cases (ends_pure.1 h).1
    | some expression =>
      simp only [execute] at h
      rcases ends_bind_raised.1 h with h | ⟨result, between, -, h⟩
      · exact .started (.expression rfl) h
      · cases (ends_pure.1 h).1

theorem origin_statements {statements : List Statement}
    (h : (executeAll (fuel + 1) scope statements).Ends before (.error error) after) :
    Origin fuel (.statements scope statements) before error after := by
  cases statements with
  | nil =>
    rw [executeAll] at h
    cases (ends_pure.1 h).1
  | cons statement rest =>
    rw [executeAll] at h
    rcases ends_bind_raised.1 h with h | ⟨completion, between, hended, h⟩
    · exact .started .first h
    · cases completion with
      | normal => exact .started (.later hended) h
      | returned value => cases (ends_pure.1 h).1

theorem origin_loop {condition : Expression} {body : Statement}
    (h : (Run.loop (fuel + 1) scope condition body).Ends before (.error error) after) :
    Origin fuel (.loop scope condition body) before error after := by
  rw [Run.loop] at h
  rcases ends_bind_raised.1 h with h | ⟨value, between, hended, h⟩
  · exact .started .condition h
  split at h
  · rename_i htruthy
    rcases ends_bind_raised.1 h with h | ⟨completion, further, hendedBody, h⟩
    · exact .started (.round hended htruthy) h
    · cases completion with
      | normal => exact .started (.again hended htruthy hendedBody) h
      | returned value => cases (ends_pure.1 h).1
  · cases (ends_pure.1 h).1

theorem origin_of_ends {task : Task}
    (h : (task.run (fuel + 1)).Ends before (.error error) after) :
    Origin fuel task before error after := by
  cases task with
  | node => exact origin_node h
  | nodes => exact origin_nodes h
  | call => exact origin_call h
  | statement => exact origin_statement h
  | statements => exact origin_statements h
  | loop => exact origin_loop h

theorem not_ends_zero {task : Task} {outcome : Outcome task.Result} :
    ¬ (task.run 0).Ends before outcome after := by
  cases task <;> exact not_ends_fail

end

end Task

end Lox
