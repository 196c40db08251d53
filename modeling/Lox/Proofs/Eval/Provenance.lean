import Lox.Proofs.Eval.Scoping
import Lox.Proofs.Eval.Task
import Lox.Proofs.Grammar.Provenance

/-!
# Where errors are raised

An error is raised on the line of a node, in the program that is run or in the body of a function
that is called. Bodies come from programs too, and stay in the store as they were declared. So where
all these nodes are on lines of some sort, errors are raised on such lines only, and the functions
that are left in the store will raise theirs on such lines again.
-/

namespace Lox

/-! ### Values and stores -/

section
variable (placed : Nat → Prop)

/-- A function whose body raises errors on such lines only, or a value without a body. -/
def Value.Placed : Value → Prop
  | function declared => Statement.AllKeep (Expression.Placed placed) declared.body
  | _ => True

def Store.Placed (store : Store) : Prop :=
  ∀ {scope : ScopeId} {found : Scope} {name : String} {value : Value},
    store.scopes[scope]? = some found → (name, value) ∈ found.bindings → value.Placed placed

def Interrupt.Placed : Interrupt → Prop
  | raised error => placed error.line
  | fault _ => True

/-- All code that the task is about raises errors on such lines only. -/
def Task.Placed : Task → Prop
  | node table _ _ | nodes table _ _ => ∀ entry ∈ table.toList, entry.Placed placed
  | call callee arguments line =>
    callee.Placed placed ∧ (∀ argument ∈ arguments, argument.Placed placed) ∧ placed line
  | statement _ body => body.Keeps (Expression.Placed placed)
  | statements _ body => Statement.AllKeep (Expression.Placed placed) body
  | loop _ condition body =>
    condition.Placed placed ∧ body.Keeps (Expression.Placed placed)

/-- What the task yields brings no other lines with it. -/
def Task.YieldsPlaced : (task : Task) → task.Result → Prop
  | node .. | call .. => fun value : Value => value.Placed placed
  | nodes .. => fun values : List Value => ∀ value ∈ values, value.Placed placed
  | statement .. | statements .. | loop .. =>
    fun completion : Completion => completion.result.Placed placed

end

section
variable {placed : Nat → Prop}

theorem Value.placed_of_fits {value : Value} (h : value.Fits 0) : value.Placed placed := by
  cases value with
  | function declared => exact absurd h.1 (Nat.not_lt_zero _)
  | _ => trivial

theorem Store.Placed.define {store : Store} (h : store.Placed placed) {value : Value}
    (hvalue : value.Placed placed) (scope : ScopeId) (name : String) :
    (store.define scope name value).Placed placed := by
  intro other found bound kept hfound hmem
  obtain rfl | ⟨old, hold, hmem⟩ := mem_of_define hfound hmem
  · exact hvalue
  · exact h hold hmem

theorem Store.Placed.add {store : Store} (h : store.Placed placed) (parent : Option ScopeId) :
    (store.add parent).2.Placed placed :=
  fun hfound hmem => h (mem_of_add hfound hmem) hmem

namespace Run

variable {α β : Type}

/-- From a store in which functions raise errors on such lines only, the run does so and leaves such
a store. A value that it yields is good. -/
def Places (placed : Nat → Prop) (run : Run α) (good : α → Prop) : Prop :=
  ∀ before : Machine, before.store.Placed placed →
    match run before with
    | .ok value after => after.store.Placed placed ∧ good value
    | .error interrupt after => after.store.Placed placed ∧ interrupt.Placed placed

section
variable {run : Run α} {good : α → Prop} {fine : β → Prop}

theorem places_pure {value : α} (h : good value) : (pure value : Run α).Places placed good :=
  fun _ hbefore => ⟨hbefore, h⟩

theorem places_raise (cause : RuntimeError.Cause) {line : Nat} (hline : placed line) :
    (raise cause line : Run α).Places placed good :=
  fun _ hbefore => ⟨hbefore, hline⟩

theorem places_fail (fault : Fault) : (fail fault : Run α).Places placed good :=
  fun _ hbefore => ⟨hbefore, trivial⟩

theorem places_modifyGet {change : Machine → α × Machine}
    (h : ∀ {machine : Machine}, machine.store.Placed placed →
      (change machine).2.store.Placed placed ∧ good (change machine).1) :
    (modifyGet change : Run α).Places placed good :=
  fun _ hbefore => h hbefore

theorem Places.bind {next : α → Run β} (h : run.Places placed good)
    (hnext : ∀ value, good value → (next value).Places placed fine) :
    (run >>= next).Places placed fine := by
  intro before hbefore
  have hfirst := h before hbefore
  rw [bind_apply]
  cases hrun : run before with
  | ok value between =>
    rw [hrun] at hfirst
    exact hnext value hfirst.2 between hfirst.1
  | error interrupt between =>
    rw [hrun] at hfirst
    exact hfirst

theorem Places.ite {condition : Prop} [Decidable condition] {other : Run α}
    (h : run.Places placed good) (hother : other.Places placed good) :
    (if condition then run else other).Places placed good := by
  split
  · exact h
  · exact hother

theorem places_get_bind {next : Machine → Run β}
    (h : ∀ machine, (next machine).Places placed fine) : (get >>= next).Places placed fine :=
  fun before => h before before

theorem Places.asCall (h : run.Places placed good) : (asCall run).Places placed good := by
  intro before hbefore
  have hbody := h { before with callDepth := before.callDepth + 1 } hbefore
  rw [Run.asCall]
  cases hrun : run { before with callDepth := before.callDepth + 1 } with
  | ok value after | error interrupt after =>
    rw [hrun] at hbody
    exact hbody

end

/-! ### Steps -/

theorem places_define (scope : ScopeId) (name : String) {value : Value}
    (hvalue : value.Placed placed) : (define scope name value).Places placed fun _ => True :=
  places_modifyGet fun hmachine => ⟨hmachine.define hvalue scope name, trivial⟩

theorem places_newScope (parent : ScopeId) :
    (newScope (some parent)).Places placed fun _ => True :=
  places_modifyGet fun hmachine => ⟨hmachine.add (some parent), trivial⟩

theorem places_lookup (scope : ScopeId) {name : Identifier} (hname : placed name.line) :
    (lookup scope name).Places placed (Value.Placed placed) := by
  intro before hbefore
  rw [lookup_apply]
  cases hvalue : before.store.value? name.name scope with
  | none => exact ⟨hbefore, hname⟩
  | some value =>
    obtain ⟨target, found, hfound, hmem⟩ := Store.exists_mem_of_value? hvalue
    exact ⟨hbefore, hbefore hfound hmem⟩

theorem places_assign (scope : ScopeId) {name : Identifier} (hname : placed name.line)
    {value : Value} (hvalue : value.Placed placed) :
    (assign scope name value).Places placed fun _ => True := by
  intro before hbefore
  rw [assign_apply]
  cases before.store.resolve? name.name scope with
  | none => exact ⟨hbefore, hname⟩
  | some target => exact ⟨hbefore.define hvalue target name.name, trivial⟩

theorem places_bindAll (scope : ScopeId) (parameters : List Identifier) {arguments : List Value}
    (harguments : ∀ argument ∈ arguments, argument.Placed placed) :
    (bindAll scope parameters arguments).Places placed fun _ => True := by
  induction parameters generalizing arguments with
  | nil => exact places_pure trivial
  | cons parameter parameters ih =>
    cases arguments with
    | nil => exact places_pure trivial
    | cons argument arguments =>
      obtain ⟨hargument, hrest⟩ := List.forall_mem_cons.1 harguments
      exact (places_define scope parameter.name hargument).bind fun _ _ => ih hrest

theorem places_ofExcept {line : Nat} (hline : placed line)
    {result : Except RuntimeError.Cause Value} (h : ∀ value, result = .ok value → value.Fits 0) :
    (ofExcept line result).Places placed (Value.Placed placed) := by
  cases result with
  | ok value => exact places_pure (Value.placed_of_fits (h value rfl))
  | error cause => exact places_raise cause hline

/-- What is bound is placed, and a declaration yields nothing. -/
theorem places_defines (scope : ScopeId) (name : String) {value : Value}
    (hvalue : value.Placed placed) :
    (define scope name value >>= fun _ => (pure .normal : Run Completion)).Places placed
      fun completion => completion.result.Placed placed :=
  (places_define scope name hvalue).bind fun _ _ => places_pure trivial

/-! ### Tasks -/

section
variable {fuel : Nat}
  (ih : ∀ task : Task, task.Placed placed →
    (task.run fuel).Places placed (task.YieldsPlaced placed))
include ih

theorem places_node_succ {nodes : Array Node} (h : ∀ node ∈ nodes.toList, node.Placed placed)
    (scope : ScopeId) (index : Nat) :
    (evaluateNode (fuel + 1) nodes scope index).Places placed (Value.Placed placed) := by
  have hnode (operand : Nat) :
      (evaluateNode fuel nodes scope operand).Places placed (Value.Placed placed) :=
    ih (.node nodes scope operand) h
  rw [evaluateNode]
  cases hfound : nodes[index]? with
  | none => exact places_fail _
  | some node =>
    have hsite : node.Placed placed :=
      h node (Array.mem_toList_iff.2 (Array.mem_of_getElem? hfound))
    cases node with
    | literal value => exact places_pure (Value.placed_of_fits (Value.fits_ofLiteral 0 value))
    | var name => exact places_lookup scope (hsite name.line rfl)
    | group inner => exact hnode inner
    | unary operator operand line =>
      exact (hnode operand).bind fun value _ => places_ofExcept (hsite line rfl) fun _ hresult =>
        UnaryOperator.fits_apply hresult 0
    | binary operator left right line =>
      exact (hnode left).bind fun first _ => (hnode right).bind fun second _ =>
        places_ofExcept (hsite line rfl) fun _ hresult => BinaryOperator.fits_apply hresult 0
    | logical operator left right =>
      exact (hnode left).bind fun value hvalue => .ite (places_pure hvalue) (hnode right)
    | assign name operand =>
      exact (hnode operand).bind fun value hvalue =>
        (places_assign scope (hsite name.line rfl) hvalue).bind fun _ _ => places_pure hvalue
    | call callee arguments line =>
      refine (hnode callee).bind fun called hcalled => ?_
      cases called.arity? with
      | none => exact places_raise _ (hsite line rfl)
      | some arity =>
        have hall : (evaluateNodes fuel nodes scope arguments).Places placed
            fun values => ∀ value ∈ values, value.Placed placed :=
          ih (.nodes nodes scope arguments) h
        exact hall.bind fun values hvalues =>
          .ite (ih (.call called values line) ⟨hcalled, hvalues, hsite line rfl⟩)
            (places_raise _ (hsite line rfl))

theorem places_nodes_succ {nodes : Array Node} (h : ∀ node ∈ nodes.toList, node.Placed placed)
    (scope : ScopeId) (indices : List Nat) :
    (evaluateNodes (fuel + 1) nodes scope indices).Places placed
      fun values => ∀ value ∈ values, value.Placed placed := by
  cases indices with
  | nil => exact places_pure fun _ hmem => absurd hmem List.not_mem_nil
  | cons index rest =>
    have hfirst : (evaluateNode fuel nodes scope index).Places placed (Value.Placed placed) :=
      ih (.node nodes scope index) h
    have hrest : (evaluateNodes fuel nodes scope rest).Places placed
        fun values => ∀ value ∈ values, value.Placed placed := ih (.nodes nodes scope rest) h
    exact hfirst.bind fun value hvalue => hrest.bind fun values hvalues =>
      places_pure (List.forall_mem_cons.2 ⟨hvalue, hvalues⟩)

theorem places_call_succ {callee : Value} {arguments : List Value} {line : Nat}
    (hcallee : callee.Placed placed) (harguments : ∀ argument ∈ arguments, argument.Placed placed)
    (hline : placed line) :
    (call (fuel + 1) callee arguments line).Places placed (Value.Placed placed) := by
  cases callee with
  | native identity which =>
    cases which
    have hclock : readClock.Places placed fun _ => True :=
      places_modifyGet fun hmachine => ⟨hmachine, trivial⟩
    exact hclock.bind fun _ _ => places_pure trivial
  | function declared =>
    refine places_get_bind fun _ => .ite (places_raise _ hline) ?_
    refine (places_newScope declared.closure).bind fun scope _ => ?_
    refine (places_bindAll scope declared.parameters harguments).bind fun _ _ => ?_
    have hbody : (executeAll fuel scope declared.body).Places placed
        fun completion => completion.result.Placed placed :=
      ih (.statements scope declared.body) hcallee
    exact hbody.asCall.bind fun completion hresult => places_pure hresult
  | nil | bool | number | text => exact places_raise _ hline

theorem places_statement_succ (scope : ScopeId) {statement : Statement}
    (h : statement.Keeps (Expression.Placed placed)) :
    (execute (fuel + 1) scope statement).Places placed
      fun completion => completion.result.Placed placed := by
  have hvalue {expression : Expression} (hexpression : expression.Placed placed) :
      (evaluateNode fuel expression.nodes scope expression.root).Places placed
        (Value.Placed placed) := ih (.node expression.nodes scope expression.root) hexpression
  have hstatement {inner : Statement} (hinner : inner.Keeps (Expression.Placed placed)) :
      (execute fuel scope inner).Places placed fun completion => completion.result.Placed placed :=
    ih (.statement scope inner) hinner
  cases statement with
  | varDecl name initial =>
    cases initial with
    | none => exact places_defines scope name.name trivial
    | some expression =>
      exact (hvalue (h expression List.mem_cons_self)).bind fun value hfound =>
        places_defines scope name.name hfound
  | funDecl name parameters body =>
    have hidentity : newIdentity.Places placed fun _ => True :=
      places_modifyGet fun hmachine => ⟨hmachine, trivial⟩
    exact hidentity.bind fun identity _ =>
      places_defines scope name.name (Statement.keeps_funDecl_iff.1 h)
  | expression expression =>
    exact (hvalue (h expression List.mem_cons_self)).bind fun _ _ => places_pure trivial
  | print expression =>
    have hprint (text : String) : (print text).Places placed fun _ => True :=
      places_modifyGet fun hmachine => ⟨hmachine, trivial⟩
    exact (hvalue (h expression List.mem_cons_self)).bind fun value _ =>
      (hprint value.render).bind fun _ _ => places_pure trivial
  | block body =>
    exact (places_newScope scope).bind fun inner _ =>
      ih (.statements inner body) (Statement.keeps_block_iff.1 h)
  | ifThen condition success =>
    obtain ⟨hcondition, hsuccess⟩ := Statement.keeps_ifThen_iff.1 h
    exact (hvalue hcondition).bind fun _ _ => .ite (hstatement hsuccess) (places_pure trivial)
  | ifElse condition success failure =>
    obtain ⟨hcondition, hsuccess, hfailure⟩ := Statement.keeps_ifElse_iff.1 h
    refine (hvalue hcondition).bind fun _ _ => hstatement ?_
    split
    · exact hsuccess
    · exact hfailure
  | whileLoop condition body =>
    exact ih (.loop scope condition body) (Statement.keeps_whileLoop_iff.1 h)
  | returnWith value line =>
    cases value with
    | none => exact places_pure trivial
    | some expression =>
      exact (hvalue (h expression List.mem_cons_self)).bind fun _ hfound => places_pure hfound

theorem places_statements_succ (scope : ScopeId) {statements : List Statement}
    (h : Statement.AllKeep (Expression.Placed placed) statements) :
    (executeAll (fuel + 1) scope statements).Places placed
      fun completion => completion.result.Placed placed := by
  cases statements with
  | nil => exact places_pure trivial
  | cons statement rest =>
    obtain ⟨hstatement, hrest⟩ := List.forall_mem_cons.1 h
    have hfirst : (execute fuel scope statement).Places placed
        fun completion => completion.result.Placed placed :=
      ih (.statement scope statement) hstatement
    refine hfirst.bind fun completion hresult => ?_
    cases completion with
    | normal => exact ih (.statements scope rest) hrest
    | returned value => exact places_pure hresult

theorem places_loop_succ (scope : ScopeId) {condition : Expression} {body : Statement}
    (hcondition : condition.Placed placed) (hbody : body.Keeps (Expression.Placed placed)) :
    (loop (fuel + 1) scope condition body).Places placed
      fun completion => completion.result.Placed placed := by
  have hvalue : (evaluateNode fuel condition.nodes scope condition.root).Places placed
      (Value.Placed placed) := ih (.node condition.nodes scope condition.root) hcondition
  have hround : (execute fuel scope body).Places placed
      fun completion => completion.result.Placed placed := ih (.statement scope body) hbody
  refine hvalue.bind fun _ _ => .ite (hround.bind fun completion hresult => ?_)
    (places_pure trivial)
  cases completion with
  | normal => exact ih (.loop scope condition body) ⟨hcondition, hbody⟩
  | returned value => exact places_pure hresult

end

end Run

/-- Whatever is run, errors are raised on lines that its code and the functions in the store bring
with them. -/
theorem Task.places (fuel : Nat) : ∀ task : Task, task.Placed placed →
    (task.run fuel).Places placed (task.YieldsPlaced placed) := by
  induction fuel with
  | zero =>
    intro task _
    cases task <;> exact Run.places_fail _
  | succ fuel ih =>
    intro task h
    cases task with
    | node nodes scope index => exact Run.places_node_succ ih h scope index
    | nodes nodes scope indices => exact Run.places_nodes_succ ih h scope indices
    | call callee arguments line => exact Run.places_call_succ ih h.1 h.2.1 h.2.2
    | statement scope statement => exact Run.places_statement_succ ih scope h
    | statements scope statements => exact Run.places_statements_succ ih scope h
    | loop scope condition body => exact Run.places_loop_succ ih scope h.1 h.2

end

end Lox
