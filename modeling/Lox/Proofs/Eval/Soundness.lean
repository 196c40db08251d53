import Lox.Proofs.Eval.Operators
import Lox.Proofs.Eval.Safety

/-!
# What is run is derived

Every outcome that the evaluator comes to, with whatever fuel, has a derivation. The proof is by
induction on the fuel. The store has to be well-formed for it, since a derivation unfolds the tables
of the functions that are called, and that it stays so is what makes the induction go through.
-/

namespace Lox

theorem Machine.wellFormed_called {machine : Machine} (hstore : machine.store.WellFormed)
    {declared : Function} (hclosure : declared.closure < machine.store.scopes.size)
    {arguments : List Value}
    (harguments : ∀ argument ∈ arguments, argument.Fits machine.store.scopes.size) :
    (machine.called declared arguments).store.WellFormed ∧
      machine.newest < (machine.called declared arguments).store.scopes.size ∧
        (machine.called declared arguments).callDepth = machine.callDepth + 1 := by
  have henter : (machine.enter declared.closure).store.WellFormed :=
    hstore.add fun scope hscope => Option.some.inj hscope ▸ hclosure
  have hbound := machine.enter declared.closure |>.wellFormed_bindAll machine.newest
    (declared.parameters.zip arguments) henter fun binding hbinding =>
      (harguments _ (List.of_mem_zip hbinding).2).mono (machine.grows_enter _).size_le
  have hgrows := (machine.enter declared.closure).grows_bindAll machine.newest
    (declared.parameters.zip arguments)
  have hle := hgrows.size_le
  rw [Machine.size_enter] at hle
  exact ⟨hbound, hle, rfl⟩

namespace Run

theorem ends_call_function {fuel : Nat} {before after : Machine} {declared : Function}
    {arguments : List Value} {line : Nat} {outcome : Outcome Value} :
    (call (fuel + 1) (.function declared) arguments line).Ends before outcome after ↔
      (maxCallDepth ≤ before.callDepth ∧ outcome = .error ⟨.stackOverflow, line⟩ ∧ after = before) ∨
      (before.callDepth < maxCallDepth ∧ ∃ (first : Outcome Completion) (final : Machine),
        (executeAll fuel before.newest declared.body).Ends (before.called declared arguments) first
          final ∧ outcome = first.map Completion.result ∧
          after = { final with callDepth := final.callDepth - 1 }) := by
  rw [call, ends_get_bind]
  by_cases hfull : maxCallDepth ≤ before.callDepth
  · rw [if_pos hfull, ends_raise]
    simp [hfull, Nat.not_lt.2 hfull]
  · rw [if_neg hfull, ends_newScope_bind]
    have hroom := Nat.not_le.1 hfull
    have hdepth := ((before.enter declared.closure).grows_bindAll before.newest
      (declared.parameters.zip arguments)).callDepth_eq
    have hcalled : { (before.enter declared.closure).bindAll before.newest
          (declared.parameters.zip arguments) with
          callDepth := ((before.enter declared.closure).bindAll before.newest
            (declared.parameters.zip arguments)).callDepth + 1 } =
        before.called declared arguments := by
      rw [hdepth]
      rfl
    constructor
    · intro hrun
      obtain ⟨_, bound, hbind, hrun⟩ | ⟨error, hbind, rfl⟩ := ends_bind.1 hrun
      · obtain ⟨-, rfl⟩ := ends_bindAll.1 hbind
        obtain ⟨first, hcall, rfl⟩ := ends_bind_pure.1 hrun
        obtain ⟨final, hbody, rfl⟩ := ends_asCall.1 hcall
        rw [hcalled] at hbody
        exact .inr ⟨hroom, first, final, hbody, rfl, rfl⟩
      · cases (ends_bindAll.1 hbind).1
    · rintro (⟨hover, -⟩ | ⟨-, first, final, hbody, rfl, rfl⟩)
      · exact absurd hover hfull
      · rw [← hcalled] at hbody
        exact (ends_bindAll.2 ⟨rfl, rfl⟩).bind
          (ends_bind_pure.2 ⟨first, ends_asCall.2 ⟨final, hbody, rfl⟩, rfl⟩)

/-- With this much fuel, every outcome has a derivation. -/
structure AllDerived (fuel : Nat) : Prop where
  node : ∀ {before after : Machine} {nodes : Array Node} {scope : ScopeId} {index : Nat}
    {tree : Tree} {outcome : Outcome Value}, before.store.WellFormed →
      scope < before.store.scopes.size → Unfolds nodes index tree →
        (evaluateNode fuel nodes scope index).Ends before outcome after →
          Evaluates before scope tree outcome after
  nodes : ∀ {before after : Machine} {nodes : Array Node} {scope : ScopeId} {indices : List Nat}
    {trees : List Tree} {outcome : Outcome (List Value)}, before.store.WellFormed →
      scope < before.store.scopes.size → AllUnfold nodes indices trees →
        (evaluateNodes fuel nodes scope indices).Ends before outcome after →
          EvaluatesAll before scope trees outcome after
  call : ∀ {before after : Machine} {callee : Value} {arguments : List Value} {line : Nat}
    {outcome : Outcome Value}, before.store.WellFormed → callee.Fits before.store.scopes.size →
      (∀ argument ∈ arguments, argument.Fits before.store.scopes.size) →
        callee.arity? = some arguments.length →
          (call fuel callee arguments line).Ends before outcome after →
            Applies before callee arguments line outcome after
  execute : ∀ {before after : Machine} {scope : ScopeId} {statement : Statement}
    {outcome : Outcome Completion}, before.store.WellFormed → scope < before.store.scopes.size →
      statement.Keeps Expression.Legible → (execute fuel scope statement).Ends before outcome after →
        Executes before scope statement outcome after
  executeAll : ∀ {before after : Machine} {scope : ScopeId} {statements : List Statement}
    {outcome : Outcome Completion}, before.store.WellFormed → scope < before.store.scopes.size →
      Statement.AllKeep Expression.Legible statements →
        (executeAll fuel scope statements).Ends before outcome after →
          ExecutesAll before scope statements outcome after
  loop : ∀ {before after : Machine} {scope : ScopeId} {condition : Expression} {body : Statement}
    {outcome : Outcome Completion}, before.store.WellFormed → scope < before.store.scopes.size →
      condition.Legible → body.Keeps Expression.Legible →
        (loop fuel scope condition body).Ends before outcome after →
          Executes before scope (.whileLoop condition body) outcome after

theorem allDerived_zero : AllDerived 0 := by
  constructor <;> intros
  case node hrun =>
    rw [evaluateNode] at hrun
    exact absurd hrun not_ends_fail
  case nodes hrun =>
    rw [evaluateNodes] at hrun
    exact absurd hrun not_ends_fail
  case call hrun =>
    rw [Run.call] at hrun
    exact absurd hrun not_ends_fail
  case execute hrun =>
    rw [Run.execute] at hrun
    exact absurd hrun not_ends_fail
  case executeAll hrun =>
    rw [Run.executeAll] at hrun
    exact absurd hrun not_ends_fail
  case loop hrun =>
    rw [Run.loop] at hrun
    exact absurd hrun not_ends_fail

namespace AllDerived

variable {fuel : Nat} (h : AllDerived fuel) {before after : Machine}
  (hstore : before.store.WellFormed) {scope : ScopeId}
include h hstore

theorem call_succ {callee : Value} {arguments : List Value} {line : Nat} {outcome : Outcome Value}
    (hcallee : callee.Fits before.store.scopes.size)
    (harguments : ∀ argument ∈ arguments, argument.Fits before.store.scopes.size)
    (harity : callee.arity? = some arguments.length)
    (hrun : (Run.call (fuel + 1) callee arguments line).Ends before outcome after) :
    Applies before callee arguments line outcome after := by
  cases callee with
  | native identity which =>
    cases which
    rw [Run.call, readClock, ends_modifyGet_bind] at hrun
    obtain ⟨rfl, rfl⟩ := ends_pure.1 hrun
    exact .clock
  | function declared =>
    obtain ⟨hfull, rfl, rfl⟩ | ⟨hroom, first, final, hbody, rfl, rfl⟩ := ends_call_function.1 hrun
    · exact .stackOverflow hfull
    · obtain ⟨hcalled, hscope, hdepth⟩ := Machine.wellFormed_called hstore hcallee.1 harguments
      have hafter := ((allSafe fuel).executeAll hcalled hscope hcallee.2).grows hbody
      have hback : final.callDepth - 1 = before.callDepth := by
        rw [hafter.callDepth_eq, hdepth, Nat.add_sub_cancel]
      rw [hback]
      exact .function hroom (h.executeAll hcalled hscope hcallee.2 hbody)
  | nil | bool value | number value | text value => cases harity

variable (hscope : scope < before.store.scopes.size)
include hscope

theorem node_succ {nodes : Array Node} {index : Nat} {tree : Tree} {outcome : Outcome Value}
    (hunfolds : Unfolds nodes index tree)
    (hrun : (evaluateNode (fuel + 1) nodes scope index).Ends before outcome after) :
    Evaluates before scope tree outcome after := by
  have hsafe := allSafe fuel
  cases hunfolds with
  | literal hfound =>
    simp only [evaluateNode, hfound] at hrun
    obtain ⟨rfl, rfl⟩ := ends_pure.1 hrun
    exact .literal _
  | var hfound =>
    simp only [evaluateNode, hfound] at hrun
    obtain ⟨rfl, ⟨target, value, hfinds, rfl⟩ | ⟨hunbound, rfl⟩⟩ :=
      (ends_lookup hstore hscope).1 hrun
    · exact .var hfinds
    · exact .varUnbound hunbound
  | group hfound hinner =>
    simp only [evaluateNode, hfound] at hrun
    exact .group (h.node hstore hscope hinner hrun)
  | unary hfound hoperand =>
    simp only [evaluateNode, hfound] at hrun
    obtain ⟨value, between, hvalue, happly⟩ | ⟨error, hraised, rfl⟩ := ends_bind.1 hrun
    · obtain ⟨rfl, rfl⟩ := ends_ofExcept.1 happly
      exact .unary (h.node hstore hscope hoperand hvalue) (UnaryOperator.gives_iff.2 rfl)
    · exact .unaryRaised (h.node hstore hscope hoperand hraised)
  | binary hfound hleft hright =>
    simp only [evaluateNode, hfound] at hrun
    obtain ⟨first, between, hfirst, hrun⟩ | ⟨error, hraised, rfl⟩ := ends_bind.1 hrun
    · have hbetween := (hsafe.node hstore hscope hleft).wellFormed hfirst
      have hinner := Nat.lt_of_lt_of_le hscope ((hsafe.node hstore hscope hleft).grows hfirst).size_le
      obtain ⟨second, further, hsecond, happly⟩ | ⟨error, hraised, rfl⟩ := ends_bind.1 hrun
      · obtain ⟨rfl, rfl⟩ := ends_ofExcept.1 happly
        exact .binary (h.node hstore hscope hleft hfirst) (h.node hbetween hinner hright hsecond)
          (BinaryOperator.gives_iff.2 rfl)
      · exact .binaryRightRaised (h.node hstore hscope hleft hfirst)
          (h.node hbetween hinner hright hraised)
    · exact .binaryLeftRaised (h.node hstore hscope hleft hraised)
  | logical hfound hleft hright =>
    simp only [evaluateNode, hfound] at hrun
    obtain ⟨value, between, hvalue, hrun⟩ | ⟨error, hraised, rfl⟩ := ends_bind.1 hrun
    · split at hrun
      case isTrue hdecided =>
        obtain ⟨rfl, rfl⟩ := ends_pure.1 hrun
        exact .settled (h.node hstore hscope hleft hvalue) (LogicalOperator.settles_iff.2 hdecided)
      case isFalse hopen =>
        have hbetween := (hsafe.node hstore hscope hleft).wellFormed hvalue
        have hgrows := (hsafe.node hstore hscope hleft).grows hvalue
        exact .open (h.node hstore hscope hleft hvalue) (mt LogicalOperator.settles_iff.1 hopen)
          (h.node hbetween (Nat.lt_of_lt_of_le hscope hgrows.size_le) hright hrun)
    · exact .logicalRaised (h.node hstore hscope hleft hraised)
  | assign hfound hvalue =>
    simp only [evaluateNode, hfound] at hrun
    obtain ⟨value, between, hrunValue, hrun⟩ | ⟨error, hraised, rfl⟩ := ends_bind.1 hrun
    · have hbetween := (hsafe.node hstore hscope hvalue).wellFormed hrunValue
      have hgrows := (hsafe.node hstore hscope hvalue).grows hrunValue
      have hinner := Nat.lt_of_lt_of_le hscope hgrows.size_le
      obtain ⟨_, further, hassign, hpure⟩ | ⟨error, hassign, rfl⟩ := ends_bind.1 hrun
      · obtain ⟨target, old, hfinds, -, rfl⟩ | ⟨-, herror, -⟩ :=
          (ends_assign hbetween hinner).1 hassign
        · obtain ⟨rfl, rfl⟩ := ends_pure.1 hpure
          exact .assign (h.node hstore hscope hvalue hrunValue) hfinds
        · cases herror
      · obtain ⟨target, old, -, hok, -⟩ | ⟨hunbound, herror, rfl⟩ :=
          (ends_assign hbetween hinner).1 hassign
        · cases hok
        · cases herror
          exact .assignUnbound (h.node hstore hscope hvalue hrunValue) hunbound
    · exact .assignRaised (h.node hstore hscope hvalue hraised)
  | call hfound hcallee harguments =>
    simp only [evaluateNode, hfound] at hrun
    obtain ⟨called, between, hcalled, hrun⟩ | ⟨error, hraised, rfl⟩ := ends_bind.1 hrun
    · have hfirst := h.node hstore hscope hcallee hcalled
      cases harity : called.arity? with
      | none =>
        simp only [harity] at hrun
        obtain ⟨rfl, rfl⟩ := ends_raise.1 hrun
        exact .notCallable hfirst harity
      | some expected =>
        simp only [harity] at hrun
        have hbetween := (hsafe.node hstore hscope hcallee).wellFormed hcalled
        have hgrows := (hsafe.node hstore hscope hcallee).grows hcalled
        have hfits := (hsafe.node hstore hscope hcallee).good hcalled
        have hinner := Nat.lt_of_lt_of_le hscope hgrows.size_le
        obtain ⟨values, ready, hvalues, hrun⟩ | ⟨error, hraised, rfl⟩ := ends_bind.1 hrun
        · have hall := h.nodes hbetween hinner harguments hvalues
          have hnodes := hsafe.nodes hbetween hinner harguments
          split at hrun
          case isTrue hlength =>
            rw [← hlength] at harity
            exact .call hfirst hall harity (h.call (hnodes.wellFormed hvalues)
              (hfits.mono (hnodes.grows hvalues).size_le) (hnodes.good hvalues) harity hrun)
          case isFalse hlength =>
            obtain ⟨rfl, rfl⟩ := ends_raise.1 hrun
            exact .wrongArity hfirst harity hall hlength
        · exact .argumentRaised hfirst harity (h.nodes hbetween hinner harguments hraised)
    · exact .calleeRaised (h.node hstore hscope hcallee hraised)

theorem nodes_succ {nodes : Array Node} {indices : List Nat} {trees : List Tree}
    {outcome : Outcome (List Value)} (hall : AllUnfold nodes indices trees)
    (hrun : (evaluateNodes (fuel + 1) nodes scope indices).Ends before outcome after) :
    EvaluatesAll before scope trees outcome after := by
  cases hall with
  | nil =>
    rw [evaluateNodes] at hrun
    obtain ⟨rfl, rfl⟩ := ends_pure.1 hrun
    exact .nil
  | cons hunfolds hrest =>
    rw [evaluateNodes] at hrun
    obtain ⟨value, between, hvalue, hrun⟩ | ⟨error, hraised, rfl⟩ := ends_bind.1 hrun
    · have hsafe := (allSafe fuel).node hstore hscope hunfolds
      have hinner := Nat.lt_of_lt_of_le hscope (hsafe.grows hvalue).size_le
      obtain ⟨first, hvalues, rfl⟩ := ends_bind_pure.1 hrun
      have hall := h.nodes (hsafe.wellFormed hvalue) hinner hrest hvalues
      cases first with
      | ok values => exact .cons (h.node hstore hscope hunfolds hvalue) hall
      | error error => exact .tailRaised (h.node hstore hscope hunfolds hvalue) hall
    · exact .headRaised (h.node hstore hscope hunfolds hraised)

theorem execute_succ {statement : Statement} {outcome : Outcome Completion}
    (hkeeps : statement.Keeps Expression.Legible)
    (hrun : (Run.execute (fuel + 1) scope statement).Ends before outcome after) :
    Executes before scope statement outcome after := by
  have hsafe := allSafe fuel
  cases statement with
  | varDecl name initial =>
    cases initial with
    | none =>
      rw [Run.execute, pure_bind, ends_define_bind] at hrun
      obtain ⟨rfl, rfl⟩ := ends_pure.1 hrun
      exact .var
    | some expression =>
      obtain ⟨tree, htree⟩ := hkeeps expression List.mem_cons_self
      rw [Run.execute] at hrun
      obtain ⟨value, between, hvalue, hrun⟩ | ⟨error, hraised, rfl⟩ := ends_bind.1 hrun
      · have hdone := ends_define_bind.1 hrun
        obtain ⟨rfl, rfl⟩ := ends_pure.1 hdone
        exact .initialized htree (h.node hstore hscope htree hvalue)
      · exact .initialRaised htree (h.node hstore hscope htree hraised)
  | funDecl name parameters body =>
    rw [Run.execute, newIdentity, ends_modifyGet_bind, ends_define_bind] at hrun
    obtain ⟨rfl, rfl⟩ := ends_pure.1 hrun
    exact .function
  | expression expression =>
    obtain ⟨tree, htree⟩ := hkeeps expression List.mem_cons_self
    rw [Run.execute] at hrun
    obtain ⟨value, between, hvalue, hrun⟩ | ⟨error, hraised, rfl⟩ := ends_bind.1 hrun
    · obtain ⟨rfl, rfl⟩ := ends_pure.1 hrun
      exact .expression htree (h.node hstore hscope htree hvalue)
    · exact .expressionRaised htree (h.node hstore hscope htree hraised)
  | print expression =>
    obtain ⟨tree, htree⟩ := hkeeps expression List.mem_cons_self
    rw [Run.execute] at hrun
    obtain ⟨value, between, hvalue, hrun⟩ | ⟨error, hraised, rfl⟩ := ends_bind.1 hrun
    · have hdone := ends_print_bind.1 hrun
      obtain ⟨rfl, rfl⟩ := ends_pure.1 hdone
      exact .print htree (h.node hstore hscope htree hvalue)
    · exact .printRaised htree (h.node hstore hscope htree hraised)
  | block body =>
    rw [Run.execute, ends_newScope_bind] at hrun
    have henter := safe_newScope hstore hscope
    have hends : (newScope (some scope)).Ends before (.ok before.newest) (before.enter scope) := rfl
    exact .block (h.executeAll (henter.wellFormed hends) (henter.good hends)
      (Statement.keeps_block_iff.1 hkeeps) hrun)
  | ifThen condition success =>
    obtain ⟨⟨tree, htree⟩, hsuccess⟩ := Statement.keeps_ifThen_iff.1 hkeeps
    have hcondition := hsafe.node hstore hscope htree
    rw [Run.execute] at hrun
    obtain ⟨value, between, hvalue, hrun⟩ | ⟨error, hraised, rfl⟩ := ends_bind.1 hrun
    · have hderived := h.node hstore hscope htree hvalue
      split at hrun
      case isTrue htruthy =>
        exact .ifHolds htree hderived (Value.not_falsy_iff.2 htruthy)
          (h.execute (hcondition.wellFormed hvalue)
            (Nat.lt_of_lt_of_le hscope (hcondition.grows hvalue).size_le) hsuccess hrun)
      case isFalse hfalsy =>
        obtain ⟨rfl, rfl⟩ := ends_pure.1 hrun
        exact .ifFails htree hderived (Value.falsy_iff.2 (Bool.not_eq_true _ ▸ hfalsy))
    · exact .ifRaised htree (h.node hstore hscope htree hraised)
  | ifElse condition success failure =>
    obtain ⟨⟨tree, htree⟩, hsuccess, hfailure⟩ := Statement.keeps_ifElse_iff.1 hkeeps
    have hcondition := hsafe.node hstore hscope htree
    rw [Run.execute] at hrun
    obtain ⟨value, between, hvalue, hrun⟩ | ⟨error, hraised, rfl⟩ := ends_bind.1 hrun
    · have hderived := h.node hstore hscope htree hvalue
      have hbetween := hcondition.wellFormed hvalue
      have hinner := Nat.lt_of_lt_of_le hscope (hcondition.grows hvalue).size_le
      split at hrun
      case isTrue htruthy =>
        exact .elseHolds htree hderived (Value.not_falsy_iff.2 htruthy)
          (h.execute hbetween hinner hsuccess hrun)
      case isFalse hfalsy =>
        exact .elseFails htree hderived (Value.falsy_iff.2 (Bool.not_eq_true _ ▸ hfalsy))
          (h.execute hbetween hinner hfailure hrun)
    · exact .elseRaised htree (h.node hstore hscope htree hraised)
  | whileLoop condition body =>
    obtain ⟨hcondition, hbody⟩ := Statement.keeps_whileLoop_iff.1 hkeeps
    rw [Run.execute] at hrun
    exact h.loop hstore hscope hcondition hbody hrun
  | returnWith value line =>
    cases value with
    | none =>
      rw [Run.execute, pure_bind] at hrun
      obtain ⟨rfl, rfl⟩ := ends_pure.1 hrun
      exact .returnNil
    | some expression =>
      obtain ⟨tree, htree⟩ := hkeeps expression List.mem_cons_self
      rw [Run.execute] at hrun
      obtain ⟨value, between, hvalue, hrun⟩ | ⟨error, hraised, rfl⟩ := ends_bind.1 hrun
      · obtain ⟨rfl, rfl⟩ := ends_pure.1 hrun
        exact .returnWith htree (h.node hstore hscope htree hvalue)
      · exact .returnRaised htree (h.node hstore hscope htree hraised)

theorem executeAll_succ {statements : List Statement} {outcome : Outcome Completion}
    (hkeep : Statement.AllKeep Expression.Legible statements)
    (hrun : (Run.executeAll (fuel + 1) scope statements).Ends before outcome after) :
    ExecutesAll before scope statements outcome after := by
  cases statements with
  | nil =>
    rw [Run.executeAll] at hrun
    obtain ⟨rfl, rfl⟩ := ends_pure.1 hrun
    exact .nil
  | cons statement rest =>
    obtain ⟨hstatement, hrest⟩ := List.forall_mem_cons.1 hkeep
    have hsafe := (allSafe fuel).execute hstore hscope hstatement
    rw [Run.executeAll] at hrun
    obtain ⟨completion, between, hfirst, hrun⟩ | ⟨error, hraised, rfl⟩ := ends_bind.1 hrun
    · have hderived := h.execute hstore hscope hstatement hfirst
      cases completion with
      | normal => exact .cons hderived (h.executeAll (hsafe.wellFormed hfirst)
          (Nat.lt_of_lt_of_le hscope (hsafe.grows hfirst).size_le) hrest hrun)
      | returned value =>
        obtain ⟨rfl, rfl⟩ := ends_pure.1 hrun
        exact .left hderived (by simp)
    · exact .left (h.execute hstore hscope hstatement hraised) (by simp)

theorem loop_succ {condition : Expression} {body : Statement} {outcome : Outcome Completion}
    (hcondition : condition.Legible) (hbody : body.Keeps Expression.Legible)
    (hrun : (Run.loop (fuel + 1) scope condition body).Ends before outcome after) :
    Executes before scope (.whileLoop condition body) outcome after := by
  have hsafe := allSafe fuel
  obtain ⟨tree, htree⟩ := hcondition
  have hvalueSafe := hsafe.node hstore hscope htree
  rw [Run.loop] at hrun
  obtain ⟨value, between, hvalue, hrun⟩ | ⟨error, hraised, rfl⟩ := ends_bind.1 hrun
  · have hderived := h.node hstore hscope htree hvalue
    have hbetween := hvalueSafe.wellFormed hvalue
    have hinner := Nat.lt_of_lt_of_le hscope (hvalueSafe.grows hvalue).size_le
    split at hrun
    case isTrue htruthy =>
      have htrue := Value.not_falsy_iff.2 htruthy
      have hbodySafe := hsafe.execute hbetween hinner hbody
      obtain ⟨completion, further, hround, hrun⟩ | ⟨error, hraised, rfl⟩ := ends_bind.1 hrun
      · have hexecutes := h.execute hbetween hinner hbody hround
        cases completion with
        | normal =>
          exact .whileHolds htree hderived htrue hexecutes (h.loop (hbodySafe.wellFormed hround)
            (Nat.lt_of_lt_of_le hinner (hbodySafe.grows hround).size_le) ⟨tree, htree⟩ hbody hrun)
        | returned value =>
          obtain ⟨rfl, rfl⟩ := ends_pure.1 hrun
          exact .whileLeft htree hderived htrue hexecutes (by simp)
      · exact .whileLeft htree hderived htrue (h.execute hbetween hinner hbody hraised) (by simp)
    case isFalse hfalsy =>
      obtain ⟨rfl, rfl⟩ := ends_pure.1 hrun
      exact .whileFails htree hderived (Value.falsy_iff.2 (Bool.not_eq_true _ ▸ hfalsy))
  · exact .whileRaised htree (h.node hstore hscope htree hraised)

end AllDerived

theorem allDerived (fuel : Nat) : AllDerived fuel := by
  induction fuel with
  | zero => exact allDerived_zero
  | succ fuel ih =>
    exact ⟨fun hstore hscope => ih.node_succ hstore hscope,
      fun hstore hscope => ih.nodes_succ hstore hscope, fun hstore => ih.call_succ hstore,
      fun hstore hscope => ih.execute_succ hstore hscope,
      fun hstore hscope => ih.executeAll_succ hstore hscope,
      fun hstore hscope => ih.loop_succ hstore hscope⟩

end Run

end Lox
