import Lox.Proofs.Eval.Run
import Lox.Proofs.Syntax.Lines
import Mathlib.Data.List.Forall2

/-!
# Runs in paired machines

What runs may have other places for its scopes, other identities for its callables and other lines
in its code. A pairing says once for a whole run which of them stand for each other, those included
that the run is going to take. A relation between machines that the few changes of the machine
respect is respected by everything that is run, since values are only handed on, and compared where
the pairing is one to one: the two runs come to values that are paired, or are interrupted alike.
-/

namespace Lox

/-- Which scopes and which callables stand for each other, and the lines that code has on the second
side. -/
structure Pairing where
  scopes : ScopeId → ScopeId → Prop
  natives : Nat → Nat → Prop
  functions : Nat → Nat → Prop
  line : Nat → Nat
  scopes_biUnique : Relator.BiUnique scopes
  natives_biUnique : Relator.BiUnique natives
  functions_biUnique : Relator.BiUnique functions

namespace Pairing

theorem biUnique_eq : Relator.BiUnique (Eq : Nat → Nat → Prop) :=
  ⟨fun _ _ _ first second => first.trans second.symm,
    fun _ _ _ first second => first.symm.trans second⟩

variable {α β γ δ : Type} (pairing : Pairing)

/-- The values differ in what is paired only. -/
inductive Values : Value → Value → Prop where
  | nil : Values .nil .nil
  | bool (value : Bool) : Values (.bool value) (.bool value)
  | number (value : Float) : Values (.number value) (.number value)
  | text (value : String) : Values (.text value) (.text value)
  | native {identity other : Nat} {which : Native} (paired : pairing.natives identity other) :
    Values (.native identity which) (.native other which)
  | function {identity other : Nat} {closure beside : ScopeId} {name : Identifier}
      {parameters : List Identifier} {body : List Statement}
      (paired : pairing.functions identity other) (closed : pairing.scopes closure beside) :
    Values (.function ⟨identity, name, parameters, body, closure⟩)
      (.function ⟨other, name.mapLines pairing.line, parameters.map (·.mapLines pairing.line),
        Statement.mapAllLines pairing.line body, beside⟩)

inductive Completions : Completion → Completion → Prop where
  | normal : Completions .normal .normal
  | returned {value other : Value} (values : pairing.Values value other) :
    Completions (.returned value) (.returned other)

inductive Interrupts : Interrupt → Interrupt → Prop where
  | raised (cause : RuntimeError.Cause) (place : Nat) :
    Interrupts (.raised ⟨cause, place⟩) (.raised ⟨cause, pairing.line place⟩)
  | fault (fault : Fault) : Interrupts (.fault fault) (.fault fault)

/-- Two runs yield values that are related, or are interrupted alike, and leave related machines. -/
inductive Endings (machines : Machine → Machine → Prop) (good : α → β → Prop) :
    EStateM.Result Interrupt Machine α → EStateM.Result Interrupt Machine β → Prop where
  | ok {value : α} {other : β} {after beside : Machine} (yields : good value other)
      (leaves : machines after beside) : Endings machines good (.ok value after) (.ok other beside)
  | error {interrupt other : Interrupt} {after beside : Machine}
      (interrupts : pairing.Interrupts interrupt other) (leaves : machines after beside) :
    Endings machines good (.error interrupt after) (.error other beside)

/-- From related machines, the two runs come to related endings. -/
def Relates (machines : Machine → Machine → Prop) (good : α → β → Prop) (run : Run α)
    (other : Run β) : Prop :=
  ∀ before beside : Machine, machines before beside →
    pairing.Endings machines good (run before) (other beside)

/-- Related machines answer alike, and are related after each of the changes that runs make. -/
structure Respects (machines : Machine → Machine → Prop) : Prop where
  value? : ∀ {machine other : Machine} {scope beside : ScopeId}, machines machine other →
    pairing.scopes scope beside → ∀ name : String,
      Option.Rel pairing.Values (machine.store.value? name scope) (other.store.value? name beside)
  resolve? : ∀ {machine other : Machine} {scope beside : ScopeId}, machines machine other →
    pairing.scopes scope beside → ∀ name : String, Option.Rel pairing.scopes
      (machine.store.resolve? name scope) (other.store.resolve? name beside)
  define : ∀ {machine other : Machine} {scope beside : ScopeId} {value twin : Value},
    machines machine other → pairing.scopes scope beside → ∀ name : String,
      pairing.Values value twin →
        machines (machine.define scope name value) (other.define beside name twin)
  enter : ∀ {machine other : Machine} {parent beside : ScopeId}, machines machine other →
    pairing.scopes parent beside → pairing.scopes machine.newest other.newest ∧
      machines (machine.enter parent) (other.enter beside)
  identify : ∀ {machine other : Machine}, machines machine other →
    pairing.functions machine.nextIdentity other.nextIdentity ∧
      machines { machine with nextIdentity := machine.nextIdentity + 1 }
        { other with nextIdentity := other.nextIdentity + 1 }
  print : ∀ {machine other : Machine}, machines machine other → ∀ text : String,
    machines { machine with output := machine.output ++ text ++ "\n" }
      { other with output := other.output ++ text ++ "\n" }
  tick : ∀ {machine other : Machine}, machines machine other →
    machine.clock.reading machine.clock.taken = other.clock.reading other.clock.taken ∧
      machines { machine with clock := { machine.clock with taken := machine.clock.taken + 1 } }
        { other with clock := { other.clock with taken := other.clock.taken + 1 } }
  callDepth_eq : ∀ {machine other : Machine}, machines machine other →
    machine.callDepth = other.callDepth
  atDepth : ∀ {machine other : Machine}, machines machine other → ∀ depth : Nat,
    machines { machine with callDepth := depth } { other with callDepth := depth }

/-! ### Values -/

section
variable {pairing} {value other left right first second : Value}

theorem values_ofLiteral (value : Literal) : pairing.Values (.ofLiteral value) (.ofLiteral value) := by
  cases value with
  | nil => exact .nil
  | bool value => exact .bool value
  | number value => exact .number value
  | text value => exact .text value

theorem Values.isTruthy_eq (h : pairing.Values value other) : other.isTruthy = value.isTruthy := by
  cases h <;> rfl

theorem Values.render_eq (h : pairing.Values value other) : other.render = value.render := by
  cases h <;> rfl

theorem Values.arity?_eq (h : pairing.Values value other) : other.arity? = value.arity? := by
  cases h with
  | function => simp [Value.arity?]
  | _ => rfl

theorem Values.isEqual_eq (hleft : pairing.Values left first) (hright : pairing.Values right second) :
    first.isEqual second = left.isEqual right := by
  -- Callables are compared by their identities, and these are paired one to one.
  cases hleft with
  | native hpaired =>
    cases hright with
    | native hother =>
      exact decide_eq_decide.2 (Relator.rel_eq pairing.natives_biUnique hpaired hother).symm
    | _ => rfl
  | function hpaired =>
    cases hright with
    | function hother =>
      exact decide_eq_decide.2 (Relator.rel_eq pairing.functions_biUnique hpaired hother).symm
    | _ => rfl
  | _ => cases hright <;> rfl

theorem Completions.result {completion image : Completion}
    (h : pairing.Completions completion image) :
    pairing.Values completion.result image.result := by
  cases h with
  | normal => exact .nil
  | returned hvalues => exact hvalues

end

/-! ### Combinators -/

section
variable {pairing} {machines : Machine → Machine → Prop} {good : α → β → Prop} {fine : γ → δ → Prop}

theorem relates_pure {value : α} {other : β} (h : good value other) :
    pairing.Relates machines good (pure value) (pure other) :=
  fun _ _ hmachines => .ok h hmachines

theorem relates_raise (cause : RuntimeError.Cause) (place : Nat) :
    pairing.Relates machines good (Run.raise cause place) (Run.raise cause (pairing.line place)) :=
  fun _ _ hmachines => .error (.raised cause place) hmachines

theorem relates_fail (fault : Fault) :
    pairing.Relates machines good (Run.fail fault) (Run.fail fault) :=
  fun _ _ hmachines => .error (.fault fault) hmachines

theorem relates_modifyGet {change : Machine → α × Machine} {twin : Machine → β × Machine}
    (h : ∀ {machine other : Machine}, machines machine other →
      good (change machine).1 (twin other).1 ∧ machines (change machine).2 (twin other).2) :
    pairing.Relates machines good (modifyGet change : Run α) (modifyGet twin : Run β) :=
  fun _ _ hmachines => .ok (h hmachines).1 (h hmachines).2

theorem Relates.bind {run : Run α} {other : Run β} {next : α → Run γ} {twin : β → Run δ}
    (hrun : pairing.Relates machines good run other)
    (hnext : ∀ value beside, good value beside →
      pairing.Relates machines fine (next value) (twin beside)) :
    pairing.Relates machines fine (run >>= next) (other >>= twin) := by
  intro before beside hmachines
  have hending := hrun before beside hmachines
  rw [Run.bind_apply, Run.bind_apply]
  generalize run before = ending, other beside = image at hending
  cases hending with
  | ok hyields hleaves => exact hnext _ _ hyields _ _ hleaves
  | error hinterrupts hleaves => exact .error hinterrupts hleaves

theorem Relates.ite {condition : Prop} [Decidable condition] {run more : Run α}
    {other beside : Run β} (hrun : pairing.Relates machines good run other)
    (hmore : pairing.Relates machines good more beside) :
    pairing.Relates machines good (if condition then run else more)
      (if condition then other else beside) := by
  split
  · exact hrun
  · exact hmore

end

/-! ### Operators -/

/-- The results are paired values or the same error. -/
inductive Results : Except RuntimeError.Cause Value → Except RuntimeError.Cause Value → Prop where
  | ok {value other : Value} (values : pairing.Values value other) : Results (.ok value) (.ok other)
  | error (cause : RuntimeError.Cause) : Results (.error cause) (.error cause)

section
variable {pairing} {value other left right first second : Value}

theorem Values.unary (h : pairing.Values value other) (operator : UnaryOperator) :
    pairing.Results (operator.apply value) (operator.apply other) := by
  cases operator with
  | not =>
    rw [UnaryOperator.apply, UnaryOperator.apply, h.isTruthy_eq]
    exact .ok (.bool _)
  | negate =>
    cases h with
    | number value => exact .ok (.number _)
    | _ => exact .error _

theorem Values.onNumbers (hleft : pairing.Values left first) (hright : pairing.Values right second)
    {operation : Float → Float → Value}
    (h : ∀ left right, pairing.Values (operation left right) (operation left right)) :
    pairing.Results (Value.onNumbers operation left right)
      (Value.onNumbers operation first second) := by
  cases hleft with
  | number value =>
    cases hright with
    | number beside => exact .ok (h value beside)
    | _ => exact .error _
  | _ => exact .error _

theorem Values.binary (hleft : pairing.Values left first) (hright : pairing.Values right second)
    (operator : BinaryOperator) :
    pairing.Results (operator.apply left right) (operator.apply first second) := by
  cases operator with
  | add =>
    cases hleft with
    | number value =>
      cases hright with
      | number beside => exact .ok (.number _)
      | _ => exact .error _
    | text value =>
      cases hright with
      | text beside => exact .ok (.text _)
      | _ => exact .error _
    | _ => exact .error _
  | subtract | multiply | divide => exact hleft.onNumbers hright fun _ _ => .number _
  | less | lessEqual | greater | greaterEqual => exact hleft.onNumbers hright fun _ _ => .bool _
  | equal | notEqual =>
    rw [BinaryOperator.apply, BinaryOperator.apply, hleft.isEqual_eq hright]
    exact .ok (.bool _)

theorem Values.isDecided_eq (h : pairing.Values value other) (operator : LogicalOperator) :
    operator.isDecided other = operator.isDecided value := by
  cases operator with
  | or => exact h.isTruthy_eq
  | and => exact congrArg not h.isTruthy_eq

theorem Results.relates {result image : Except RuntimeError.Cause Value}
    {machines : Machine → Machine → Prop} (h : pairing.Results result image) (place : Nat) :
    pairing.Relates machines pairing.Values (Run.ofExcept place result)
      (Run.ofExcept (pairing.line place) image) := by
  cases h with
  | ok hvalues => exact relates_pure hvalues
  | error cause => exact relates_raise cause place

end

/-! ### Steps -/

section
variable {pairing} {machines : Machine → Machine → Prop} (h : pairing.Respects machines)
include h

theorem relates_print (text : String) :
    pairing.Relates machines (fun _ _ => True) (Run.print text) (Run.print text) :=
  relates_modifyGet fun hmachines => ⟨trivial, h.print hmachines text⟩

theorem relates_newIdentity :
    pairing.Relates machines pairing.functions Run.newIdentity Run.newIdentity :=
  relates_modifyGet h.identify

theorem relates_readClock : pairing.Relates machines Eq Run.readClock Run.readClock :=
  relates_modifyGet h.tick

section
variable {scope beside : ScopeId} (hscope : pairing.scopes scope beside)
include hscope

theorem relates_newScope : pairing.Relates machines pairing.scopes (Run.newScope (some scope))
    (Run.newScope (some beside)) :=
  relates_modifyGet fun hmachines => h.enter hmachines hscope

theorem relates_define (name : String) {value other : Value} (hvalue : pairing.Values value other) :
    pairing.Relates machines (fun _ _ => True) (Run.define scope name value)
      (Run.define beside name other) :=
  relates_modifyGet fun hmachines => ⟨trivial, h.define hmachines hscope name hvalue⟩

theorem relates_defines (name : String) {value other : Value}
    (hvalue : pairing.Values value other) : pairing.Relates machines pairing.Completions
      (Run.define scope name value >>= fun _ => (pure .normal : Run Completion))
      (Run.define beside name other >>= fun _ => (pure .normal : Run Completion)) :=
  (relates_define h hscope name hvalue).bind fun _ _ _ => relates_pure .normal

theorem relates_lookup (name : Identifier) :
    pairing.Relates machines pairing.Values (Run.lookup scope name)
      (Run.lookup beside (name.mapLines pairing.line)) := by
  intro machine other hmachines
  have hvalue := h.value? hmachines hscope name.name
  rw [Run.lookup_apply, Run.lookup_apply, Identifier.mapLines]
  generalize machine.store.value? name.name scope = found, other.store.value? name.name beside = seen
    at hvalue
  cases hvalue with
  | none => exact .error (.raised _ _) hmachines
  | some hvalues => exact .ok hvalues hmachines

theorem relates_assign (name : Identifier) {value other : Value}
    (hvalue : pairing.Values value other) :
    pairing.Relates machines (fun _ _ => True) (Run.assign scope name value)
      (Run.assign beside (name.mapLines pairing.line) other) := by
  intro machine twin hmachines
  have htarget := h.resolve? hmachines hscope name.name
  rw [Run.assign_apply, Run.assign_apply, Identifier.mapLines]
  generalize machine.store.resolve? name.name scope = found,
    twin.store.resolve? name.name beside = seen at htarget
  cases htarget with
  | none => exact .error (.raised _ _) hmachines
  | some hscopes => exact .ok trivial (h.define hmachines hscopes name.name hvalue)

theorem relates_bindAll (parameters : List Identifier) {arguments others : List Value}
    (harguments : List.Forall₂ pairing.Values arguments others) :
    pairing.Relates machines (fun _ _ => True) (Run.bindAll scope parameters arguments)
      (Run.bindAll beside (parameters.map (·.mapLines pairing.line)) others) := by
  induction harguments generalizing parameters with
  | nil => cases parameters <;> exact relates_pure trivial
  | cons hargument _ ih =>
    cases parameters with
    | nil => exact relates_pure trivial
    | cons parameter parameters =>
      exact (relates_define h hscope parameter.name hargument).bind fun _ _ _ => ih parameters

end

variable {good : α → β → Prop}

theorem Relates.asCall {body : Run α} {other : Run β}
    (hbody : pairing.Relates machines good body other) :
    pairing.Relates machines good (Run.asCall body) (Run.asCall other) := by
  intro before beside hmachines
  -- As many calls are active on both sides, when the level is taken and when it is given back.
  have hdepth := h.callDepth_eq hmachines
  have hending := hbody _ _ (h.atDepth hmachines (before.callDepth + 1))
  rw [Run.asCall, Run.asCall, ← hdepth]
  generalize body { before with callDepth := before.callDepth + 1 } = ending,
    other { beside with callDepth := before.callDepth + 1 } = image at hending
  cases hending with
  | ok hyields hleaves =>
    refine .ok hyields ?_
    rw [← h.callDepth_eq hleaves]
    exact h.atDepth hleaves _
  | error hinterrupts hleaves =>
    refine .error hinterrupts ?_
    rw [← h.callDepth_eq hleaves]
    exact h.atDepth hleaves _

/-- The number of active calls is the same on both sides. -/
theorem relates_dependent {full room : Run α} {other beside : Run β}
    (hfull : pairing.Relates machines good full other)
    (hroom : pairing.Relates machines good room beside) :
    pairing.Relates machines good
      (get >>= fun machine => if maxCallDepth ≤ machine.callDepth then full else room)
      (get >>= fun machine => if maxCallDepth ≤ machine.callDepth then other else beside) := by
  intro before twin hmachines
  show pairing.Endings machines good
    ((if maxCallDepth ≤ before.callDepth then full else room) before)
    ((if maxCallDepth ≤ twin.callDepth then other else beside) twin)
  rw [← h.callDepth_eq hmachines]
  exact hfull.ite hroom before twin hmachines

end

/-! ### The evaluator -/

/-- With the fuel, the parts of the evaluator are related to themselves. -/
structure AllRelate (machines : Machine → Machine → Prop) (fuel : Nat) : Prop where
  node {scope beside : ScopeId} (hscope : pairing.scopes scope beside) (nodes : Array Node)
    (index : Nat) : pairing.Relates machines pairing.Values
      (Run.evaluateNode fuel nodes scope index)
      (Run.evaluateNode fuel (nodes.map (·.mapLines pairing.line)) beside index)
  nodes {scope beside : ScopeId} (hscope : pairing.scopes scope beside) (nodes : Array Node)
    (indices : List Nat) : pairing.Relates machines (List.Forall₂ pairing.Values)
      (Run.evaluateNodes fuel nodes scope indices)
      (Run.evaluateNodes fuel (nodes.map (·.mapLines pairing.line)) beside indices)
  call {callee other : Value} {arguments others : List Value}
    (hcallee : pairing.Values callee other)
    (harguments : List.Forall₂ pairing.Values arguments others) (place : Nat) :
    pairing.Relates machines pairing.Values (Run.call fuel callee arguments place)
      (Run.call fuel other others (pairing.line place))
  execute {scope beside : ScopeId} (hscope : pairing.scopes scope beside) (statement : Statement) :
    pairing.Relates machines pairing.Completions (Run.execute fuel scope statement)
      (Run.execute fuel beside (statement.mapLines pairing.line))
  executeAll {scope beside : ScopeId} (hscope : pairing.scopes scope beside)
    (statements : List Statement) :
    pairing.Relates machines pairing.Completions (Run.executeAll fuel scope statements)
      (Run.executeAll fuel beside (Statement.mapAllLines pairing.line statements))
  loop {scope beside : ScopeId} (hscope : pairing.scopes scope beside) (condition : Expression)
    (body : Statement) :
    pairing.Relates machines pairing.Completions (Run.loop fuel scope condition body)
      (Run.loop fuel beside (condition.mapLines pairing.line) (body.mapLines pairing.line))

theorem allRelate_zero {machines : Machine → Machine → Prop} : pairing.AllRelate machines 0 where
  node _ _ _ := relates_fail _
  nodes _ _ _ := relates_fail _
  call _ _ _ := relates_fail _
  execute _ _ := relates_fail _
  executeAll _ _ := relates_fail _
  loop _ _ _ := relates_fail _

section
variable {pairing} {machines : Machine → Machine → Prop} {fuel : Nat}
  (ih : pairing.AllRelate machines fuel)
  {scope beside : ScopeId} (hscope : pairing.scopes scope beside)
include ih

section
include hscope

theorem relates_nodes_succ (nodes : Array Node) (indices : List Nat) :
    pairing.Relates machines (List.Forall₂ pairing.Values)
      (Run.evaluateNodes (fuel + 1) nodes scope indices)
      (Run.evaluateNodes (fuel + 1) (nodes.map (·.mapLines pairing.line)) beside indices) := by
  cases indices with
  | nil => exact relates_pure .nil
  | cons index rest =>
    exact (ih.node hscope nodes index).bind fun _ _ hvalue =>
      (ih.nodes hscope nodes rest).bind fun _ _ hvalues => relates_pure (.cons hvalue hvalues)

theorem relates_executeAll_succ (statements : List Statement) :
    pairing.Relates machines pairing.Completions (Run.executeAll (fuel + 1) scope statements)
      (Run.executeAll (fuel + 1) beside (Statement.mapAllLines pairing.line statements)) := by
  cases statements with
  | nil => exact relates_pure .normal
  | cons statement rest =>
    refine (ih.execute hscope statement).bind fun _ _ hcompletion => ?_
    cases hcompletion with
    | normal => exact ih.executeAll hscope rest
    | returned hvalues => exact relates_pure (.returned hvalues)

theorem relates_loop_succ (condition : Expression) (body : Statement) :
    pairing.Relates machines pairing.Completions (Run.loop (fuel + 1) scope condition body)
      (Run.loop (fuel + 1) beside (condition.mapLines pairing.line)
        (body.mapLines pairing.line)) := by
  refine (ih.node hscope condition.nodes condition.root).bind fun value _ hvalue => ?_
  rw [hvalue.isTruthy_eq]
  refine Relates.ite ((ih.execute hscope body).bind fun _ _ hcompletion => ?_) (relates_pure .normal)
  cases hcompletion with
  | normal => exact ih.loop hscope condition body
  | returned hvalues => exact relates_pure (.returned hvalues)

end

variable (h : pairing.Respects machines)
include h

theorem relates_call_succ {callee other : Value} {arguments others : List Value}
    (hcallee : pairing.Values callee other)
    (harguments : List.Forall₂ pairing.Values arguments others) (place : Nat) :
    pairing.Relates machines pairing.Values (Run.call (fuel + 1) callee arguments place)
      (Run.call (fuel + 1) other others (pairing.line place)) := by
  cases hcallee with
  | @native _ _ which =>
    cases which
    refine (relates_readClock h).bind fun reading _ hreading => ?_
    subst hreading
    exact relates_pure (.number reading)
  | @function _ _ _ _ _ parameters body _ hclosed =>
    -- The scopes that are opened in paired closures are paired, and the bodies are run in them.
    refine relates_dependent h (relates_raise _ _) ?_
    refine (relates_newScope h hclosed).bind fun scope beside hscope => ?_
    refine (relates_bindAll h hscope parameters harguments).bind fun _ _ _ => ?_
    exact (Relates.asCall h (ih.executeAll hscope body)).bind fun _ _ hcompletion =>
      relates_pure hcompletion.result
  | _ => exact relates_raise _ _

include hscope

theorem relates_node_succ (nodes : Array Node) (index : Nat) :
    pairing.Relates machines pairing.Values (Run.evaluateNode (fuel + 1) nodes scope index)
      (Run.evaluateNode (fuel + 1) (nodes.map (·.mapLines pairing.line)) beside index) := by
  rw [Run.evaluateNode, Run.evaluateNode, Array.getElem?_map]
  cases nodes[index]? with
  | none => exact relates_fail _
  | some node =>
    cases node with
    | literal value => exact relates_pure (values_ofLiteral value)
    | var name => exact relates_lookup h hscope name
    | group inner => exact ih.node hscope nodes inner
    | unary operator operand place =>
      exact (ih.node hscope nodes operand).bind fun _ _ hvalue =>
        (hvalue.unary operator).relates place
    | binary operator left right place =>
      exact (ih.node hscope nodes left).bind fun _ _ hfirst =>
        (ih.node hscope nodes right).bind fun _ _ hsecond =>
          (hfirst.binary hsecond operator).relates place
    | logical operator left right =>
      refine (ih.node hscope nodes left).bind fun value _ hvalue => ?_
      rw [hvalue.isDecided_eq]
      exact (relates_pure hvalue).ite (ih.node hscope nodes right)
    | assign name operand =>
      exact (ih.node hscope nodes operand).bind fun _ _ hvalue =>
        (relates_assign h hscope name hvalue).bind fun _ _ _ => relates_pure hvalue
    | call callee arguments place =>
      refine (ih.node hscope nodes callee).bind fun callee _ hcallee => ?_
      rw [hcallee.arity?_eq]
      cases callee.arity? with
      | none => exact relates_raise _ _
      | some arity =>
        refine (ih.nodes hscope nodes arguments).bind fun _ _ hvalues => ?_
        rw [← hvalues.length_eq]
        exact (ih.call hcallee hvalues place).ite (relates_raise _ _)

theorem relates_execute_succ (statement : Statement) :
    pairing.Relates machines pairing.Completions (Run.execute (fuel + 1) scope statement)
      (Run.execute (fuel + 1) beside (statement.mapLines pairing.line)) := by
  have hvalue (expression : Expression) : pairing.Relates machines pairing.Values
      (Run.evaluateNode fuel expression.nodes scope expression.root)
      (Run.evaluateNode fuel (expression.nodes.map (·.mapLines pairing.line)) beside
        expression.root) := ih.node hscope expression.nodes expression.root
  cases statement with
  | varDecl name initial =>
    cases initial with
    | none => exact relates_defines h hscope name.name .nil
    | some expression =>
      exact (hvalue expression).bind fun _ _ hfound => relates_defines h hscope name.name hfound
  | funDecl name parameters body =>
    exact (relates_newIdentity h).bind fun _ _ hpaired =>
      relates_defines h hscope name.name (.function hpaired hscope)
  | expression value => exact (hvalue value).bind fun _ _ _ => relates_pure .normal
  | print value =>
    refine (hvalue value).bind fun found _ hfound => ?_
    rw [hfound.render_eq]
    exact (relates_print h found.render).bind fun _ _ _ => relates_pure .normal
  | block body =>
    exact (relates_newScope h hscope).bind fun _ _ hinner => ih.executeAll hinner body
  | ifThen condition success =>
    refine (hvalue condition).bind fun value _ hfound => ?_
    rw [hfound.isTruthy_eq]
    exact (ih.execute hscope success).ite (relates_pure .normal)
  | ifElse condition success failure =>
    refine (hvalue condition).bind fun value _ hfound => ?_
    rw [hfound.isTruthy_eq]
    split
    · exact ih.execute hscope success
    · exact ih.execute hscope failure
  | whileLoop condition body => exact ih.loop hscope condition body
  | returnWith value place =>
    cases value with
    | none => exact relates_pure (.returned .nil)
    | some expression =>
      exact (hvalue expression).bind fun _ _ hfound => relates_pure (.returned hfound)

end

/-- What respects the changes of the machine is respected by everything that is run. -/
theorem allRelate {machines : Machine → Machine → Prop} (h : pairing.Respects machines)
    (fuel : Nat) : pairing.AllRelate machines fuel := by
  induction fuel with
  | zero => exact pairing.allRelate_zero
  | succ fuel ih =>
    exact {
      node := fun hscope => relates_node_succ ih hscope h
      nodes := fun hscope => relates_nodes_succ ih hscope
      call := fun hcallee harguments => relates_call_succ ih h hcallee harguments
      execute := fun hscope => relates_execute_succ ih hscope h
      executeAll := fun hscope => relates_executeAll_succ ih hscope
      loop := fun hscope => relates_loop_succ ih hscope }

end Pairing

end Lox
