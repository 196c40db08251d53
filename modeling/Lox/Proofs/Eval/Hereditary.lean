import Lox.Proofs.Eval.Region
import Lox.Proofs.Eval.Task

/-!
# Properties of all runs

Everything that is run is put together from a few steps and two combinators. A property that the
steps have and the combinators hand on is a property of every task: `Run.Hereditary.task` says so
once, whatever the program. The steps may rely on a region of the store: the scopes that they are
given lie in it, and those that values lead to.
-/

namespace Lox

/-- All scopes that the task is given lie in the region. -/
def Task.Within (region : ScopeId → Prop) : Task → Prop
  | node _ scope _ | nodes _ scope _ | statement scope _ | statements scope _ | loop scope _ _ =>
    region scope
  | call callee arguments _ =>
    callee.Within region ∧ ∀ argument ∈ arguments, argument.Within region

theorem Task.within_of_forall {region : ScopeId → Prop} (h : ∀ scope, region scope) (task : Task) :
    task.Within region := by
  cases task with
  | call callee arguments =>
    exact ⟨Value.within_of_forall h callee, fun argument _ => Value.within_of_forall h argument⟩
  | _ => exact h _

/-- What the task yields leads into the region. -/
def Task.Yields (region : ScopeId → Prop) : (task : Task) → task.Result → Prop
  | node .. | call .. => fun value : Value => value.Within region
  | nodes .. => fun values : List Value => ∀ value ∈ values, value.Within region
  | statement .. | statements .. | loop .. =>
    fun completion : Completion => completion.result.Within region

namespace Run

/-- The property of runs and of what they yield holds of the steps that all runs take, and of what
is put together from runs that have it. -/
structure Hereditary (region : ScopeId → Prop)
    (holds : ∀ {α : Type}, Run α → (α → Prop) → Prop) : Prop where
  pure : ∀ {α : Type} {value : α} {good : α → Prop}, good value → holds (pure value : Run α) good
  bind : ∀ {α β : Type} {run : Run α} {next : α → Run β} {good : α → Prop} {fine : β → Prop},
    holds run good → (∀ value, good value → holds (next value) fine) → holds (run >>= next) fine
  raise : ∀ {α : Type} {good : α → Prop} (cause : RuntimeError.Cause) (line : Nat),
    holds (raise cause line : Run α) good
  fail : ∀ {α : Type} {good : α → Prop} (fault : Fault), holds (fail fault : Run α) good
  lookup : ∀ {scope : ScopeId} (name : Identifier), region scope →
    holds (lookup scope name) (Value.Within region)
  assign : ∀ {scope : ScopeId} (name : Identifier) {value : Value}, region scope →
    value.Within region → holds (assign scope name value) fun _ => True
  define : ∀ {scope : ScopeId} (name : String) {value : Value}, region scope →
    value.Within region → holds (define scope name value) fun _ => True
  newScope : ∀ {parent : ScopeId}, region parent → holds (newScope (some parent)) region
  newIdentity : holds newIdentity fun _ => True
  print : ∀ text : String, holds (print text) fun _ => True
  readClock : holds readClock fun _ => True
  /-- The number of active calls decides what is run. -/
  dependent : ∀ {α : Type} {full room : Run α} {good : α → Prop}, holds full good →
    holds room good → holds (get >>= fun machine =>
      if maxCallDepth ≤ machine.callDepth then full else room) good
  asCall : ∀ {α : Type} {body : Run α} {good : α → Prop}, holds body good →
    holds (asCall body) good

namespace Hereditary

variable {region : ScopeId → Prop} {holds : ∀ {α : Type}, Run α → (α → Prop) → Prop}
  (h : Hereditary region holds)
include h

/-! ### Steps -/

omit h in
theorem ite {α : Type} {condition : Prop} [Decidable condition] {first second : Run α}
    {good : α → Prop} (hfirst : holds first good) (hsecond : holds second good) :
    holds (if condition then first else second) good := by
  split
  · exact hfirst
  · exact hsecond

theorem ofExcept {line : Nat} {result : Except RuntimeError.Cause Value}
    (hfits : ∀ value, result = .ok value → value.Fits 0) :
    holds (Run.ofExcept line result) (Value.Within region) := by
  cases result with
  | ok value => exact h.pure (Value.within_of_fits (hfits value rfl) region)
  | error cause => exact h.raise cause line

theorem bindAll {scope : ScopeId} (hscope : region scope) (parameters : List Identifier) :
    ∀ {arguments : List Value}, (∀ argument ∈ arguments, argument.Within region) →
      holds (Run.bindAll scope parameters arguments) fun _ => True := by
  induction parameters with
  | nil => exact fun _ => h.pure trivial
  | cons parameter parameters ih =>
    intro arguments harguments
    cases arguments with
    | nil => exact h.pure trivial
    | cons argument arguments =>
      obtain ⟨hargument, hrest⟩ := List.forall_mem_cons.1 harguments
      exact h.bind (h.define parameter.name hscope hargument) fun _ _ => ih hrest

theorem defines {scope : ScopeId} (hscope : region scope) (name : String) {value : Value}
    (hvalue : value.Within region) : holds
      (Run.define scope name value >>= fun _ => (Pure.pure .normal : Run Completion))
      fun completion => completion.result.Within region :=
  h.bind (h.define name hscope hvalue) fun _ _ => h.pure trivial

/-! ### Tasks -/

section
variable {fuel : Nat}
  (ih : ∀ task : Task, task.Within region → holds (task.run fuel) (task.Yields region))
  {scope : ScopeId} (hscope : region scope)
include ih

theorem call_succ {callee : Value} {arguments : List Value} (line : Nat)
    (hcallee : callee.Within region) (harguments : ∀ argument ∈ arguments, argument.Within region) :
    holds (Run.call (fuel + 1) callee arguments line) (Value.Within region) := by
  cases callee with
  | native identity which =>
    cases which
    exact h.bind h.readClock fun _ _ => h.pure trivial
  | function declared =>
    refine h.dependent (h.raise _ _) (h.bind (h.newScope hcallee) fun scope hscope => ?_)
    refine h.bind (h.bindAll hscope _ harguments) fun _ _ => ?_
    have hbody : holds (Run.executeAll fuel scope declared.body)
        fun completion => completion.result.Within region :=
      ih (.statements scope declared.body) hscope
    exact h.bind (h.asCall hbody) fun completion hresult => h.pure hresult
  | nil | bool | number | text => exact h.raise _ _

include hscope

theorem node_succ (nodes : Array Node) (index : Nat) :
    holds (evaluateNode (fuel + 1) nodes scope index) (Value.Within region) := by
  have hnode (operand : Nat) :
      holds (evaluateNode fuel nodes scope operand) (Value.Within region) :=
    ih (.node nodes scope operand) hscope
  rw [evaluateNode]
  cases nodes[index]? with
  | none => exact h.fail _
  | some node =>
    cases node with
    | literal value => exact h.pure (Value.within_of_fits (Value.fits_ofLiteral 0 value) region)
    | var name => exact h.lookup name hscope
    | group inner => exact hnode inner
    | unary operator operand line =>
      exact h.bind (hnode operand) fun value _ => h.ofExcept fun _ hresult =>
        UnaryOperator.fits_apply hresult 0
    | binary operator left right line =>
      exact h.bind (hnode left) fun first _ => h.bind (hnode right) fun second _ =>
        h.ofExcept fun _ hresult => BinaryOperator.fits_apply hresult 0
    | logical operator left right =>
      exact h.bind (hnode left) fun value hvalue => ite (h.pure hvalue) (hnode right)
    | assign name operand =>
      exact h.bind (hnode operand) fun value hvalue =>
        h.bind (h.assign name hscope hvalue) fun _ _ => h.pure hvalue
    | call callee arguments line =>
      refine h.bind (hnode callee) fun called hcalled => ?_
      cases called.arity? with
      | none => exact h.raise _ _
      | some arity =>
        have hall : holds (evaluateNodes fuel nodes scope arguments)
            fun values => ∀ value ∈ values, value.Within region :=
          ih (.nodes nodes scope arguments) hscope
        exact h.bind hall fun values hvalues =>
          ite (ih (.call called values line) ⟨hcalled, hvalues⟩) (h.raise _ _)

theorem nodes_succ (nodes : Array Node) (indices : List Nat) :
    holds (evaluateNodes (fuel + 1) nodes scope indices)
      fun values => ∀ value ∈ values, value.Within region := by
  cases indices with
  | nil => exact h.pure fun _ hmem => absurd hmem List.not_mem_nil
  | cons index rest =>
    have hfirst : holds (evaluateNode fuel nodes scope index) (Value.Within region) :=
      ih (.node nodes scope index) hscope
    have hrest : holds (evaluateNodes fuel nodes scope rest)
        fun values => ∀ value ∈ values, value.Within region :=
      ih (.nodes nodes scope rest) hscope
    exact h.bind hfirst fun value hvalue => h.bind hrest fun values hvalues =>
      h.pure (List.forall_mem_cons.2 ⟨hvalue, hvalues⟩)

theorem statement_succ (statement : Statement) :
    holds (execute (fuel + 1) scope statement)
      fun completion => completion.result.Within region := by
  have hvalue (expression : Expression) :
      holds (evaluateNode fuel expression.nodes scope expression.root) (Value.Within region) :=
    ih (.node expression.nodes scope expression.root) hscope
  have hstatement (inner : Statement) : holds (execute fuel scope inner)
      fun completion => completion.result.Within region := ih (.statement scope inner) hscope
  cases statement with
  | varDecl name initial =>
    cases initial with
    | none => exact h.defines hscope name.name trivial
    | some expression =>
      exact h.bind (hvalue expression) fun value hfound => h.defines hscope name.name hfound
  | funDecl name parameters body =>
    exact h.bind h.newIdentity fun identity _ => h.defines hscope name.name hscope
  | expression value => exact h.bind (hvalue value) fun _ _ => h.pure trivial
  | print value =>
    exact h.bind (hvalue value) fun _ _ => h.bind (h.print _) fun _ _ => h.pure trivial
  | block body =>
    exact h.bind (h.newScope hscope) fun inner hinner => ih (.statements inner body) hinner
  | ifThen condition success =>
    exact h.bind (hvalue condition) fun _ _ => ite (hstatement success) (h.pure trivial)
  | ifElse condition success failure =>
    exact h.bind (hvalue condition) fun _ _ => hstatement _
  | whileLoop condition body => exact ih (.loop scope condition body) hscope
  | returnWith value line =>
    cases value with
    | none => exact h.pure trivial
    | some expression => exact h.bind (hvalue expression) fun _ hfound => h.pure hfound

theorem statements_succ (statements : List Statement) :
    holds (executeAll (fuel + 1) scope statements)
      fun completion => completion.result.Within region := by
  cases statements with
  | nil => exact h.pure trivial
  | cons statement rest =>
    have hfirst : holds (execute fuel scope statement)
        fun completion => completion.result.Within region :=
      ih (.statement scope statement) hscope
    refine h.bind hfirst fun completion hresult => ?_
    cases completion with
    | normal => exact ih (.statements scope rest) hscope
    | returned value => exact h.pure hresult

theorem loop_succ (condition : Expression) (body : Statement) :
    holds (Run.loop (fuel + 1) scope condition body)
      fun completion => completion.result.Within region := by
  have hcondition : holds (evaluateNode fuel condition.nodes scope condition.root)
      (Value.Within region) := ih (.node condition.nodes scope condition.root) hscope
  have hbody : holds (execute fuel scope body)
      fun completion => completion.result.Within region := ih (.statement scope body) hscope
  refine h.bind hcondition fun value _ => ?_
  refine ite (h.bind hbody fun completion hresult => ?_) (h.pure trivial)
  cases completion with
  | normal => exact ih (.loop scope condition body) hscope
  | returned value => exact h.pure hresult

end

/-- The property holds of every task that is given scopes of the region only. -/
theorem task (fuel : Nat) :
    ∀ task : Task, task.Within region → holds (task.run fuel) (task.Yields region) := by
  induction fuel with
  | zero =>
    intro task _
    cases task <;> exact h.fail _
  | succ fuel ih =>
    intro task hwithin
    cases task with
    | node nodes scope index => exact h.node_succ ih hwithin nodes index
    | nodes nodes scope indices => exact h.nodes_succ ih hwithin nodes indices
    | call callee arguments line => exact h.call_succ ih line hwithin.1 hwithin.2
    | statement scope statement => exact h.statement_succ ih hwithin statement
    | statements scope statements => exact h.statements_succ ih hwithin statements
    | loop scope condition body => exact h.loop_succ ih hwithin condition body

end Hereditary

end Run

end Lox
