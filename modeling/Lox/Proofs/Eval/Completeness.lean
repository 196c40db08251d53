import Lox.Proofs.Eval.Task

/-!
# What is derived is run

Every derivation is followed by the evaluator, given enough fuel, and more fuel does no harm. The
proof is by induction on the derivation. How much fuel is enough is not counted: it is enough that
from some amount on, every amount is.
-/

namespace Lox

/-- From some amount on, every amount of fuel will do. -/
def Eventually (holds : Nat → Prop) : Prop :=
  ∃ bound, ∀ fuel, bound ≤ fuel → holds fuel

namespace Eventually

variable {holds others next : Nat → Prop}

theorem and (h : Eventually holds) (hothers : Eventually others) :
    Eventually fun fuel => holds fuel ∧ others fuel := by
  obtain ⟨bound, h⟩ := h
  obtain ⟨other, hothers⟩ := hothers
  exact ⟨max bound other, fun fuel hle =>
    ⟨h fuel (Nat.le_trans (Nat.le_max_left _ _) hle),
      hothers fuel (Nat.le_trans (Nat.le_max_right _ _) hle)⟩⟩

/-- A function that passes less fuel on needs one step more. -/
theorem succ (h : Eventually holds) (hnext : ∀ fuel, holds fuel → next (fuel + 1)) :
    Eventually next := by
  obtain ⟨bound, h⟩ := h
  refine ⟨bound + 1, fun fuel hle => ?_⟩
  cases fuel with
  | zero => exact absurd hle (Nat.not_succ_le_zero bound)
  | succ fuel => exact hnext fuel (h fuel (Nat.le_of_succ_le_succ hle))

theorem of_succ (hnext : ∀ fuel, next (fuel + 1)) : Eventually next :=
  have hall : Eventually fun _ => True := ⟨0, fun _ _ => trivial⟩
  hall.succ fun fuel _ => hnext fuel

theorem of_pred (h : Eventually holds) : Eventually fun fuel => holds (fuel + 1) := by
  obtain ⟨bound, h⟩ := h
  exact ⟨bound, fun fuel hle => h (fuel + 1) (Nat.le_succ_of_le hle)⟩

theorem exists_fuel (h : Eventually holds) : ∃ fuel, holds fuel := by
  obtain ⟨bound, h⟩ := h
  exact ⟨bound, h bound (Nat.le_refl bound)⟩

end Eventually

namespace Run

variable {α : Type} {run : Nat → Run α} {before after : Machine} {good : Machine → α → Prop}

/-- What eventually comes to an outcome leaves a sound machine, if it is safe. -/
theorem sound_of_eventually {outcome : Outcome α} {scope : ScopeId}
    (h : Eventually fun fuel => (run fuel).Ends before outcome after)
    (hsafe : ∀ fuel, (run fuel).Safe before good) (hscope : scope < before.store.scopes.size) :
    after.store.WellFormed ∧ scope < after.store.scopes.size := by
  obtain ⟨fuel, hrun⟩ := h.exists_fuel
  exact ⟨(hsafe fuel).wellFormed hrun,
    Nat.lt_of_lt_of_le hscope ((hsafe fuel).grows hrun).size_le⟩

theorem good_of_eventually {value : α}
    (h : Eventually fun fuel => (run fuel).Ends before (.ok value) after)
    (hsafe : ∀ fuel, (run fuel).Safe before good) : good after value := by
  obtain ⟨fuel, hrun⟩ := h.exists_fuel
  exact (hsafe fuel).good hrun

/-- A statement that does not end normally ends the list that it stands in. -/
theorem Ends.leave {run : Run Completion} {next : Run Completion} {outcome : Outcome Completion}
    (hrun : run.Ends before outcome after) (hleft : outcome ≠ .ok .normal) :
    (run >>= fun completion => match completion with
      | .normal => next
      | .returned value => pure (.returned value)).Ends before outcome after := by
  cases outcome with
  | error error => exact hrun.bindRaised
  | ok completion =>
    cases completion with
    | normal => exact absurd rfl hleft
    | returned value => exact hrun.bind (ends_pure.2 ⟨rfl, rfl⟩)

theorem eventually_whileLoop_iff {scope : ScopeId} {condition : Expression} {body : Statement}
    {outcome : Outcome Completion} :
    (Eventually fun fuel =>
      (execute fuel scope (.whileLoop condition body)).Ends before outcome after) ↔
        Eventually fun fuel => (loop fuel scope condition body).Ends before outcome after := by
  refine ⟨fun h => ?_, fun h => h.succ fun fuel hrun => ?_⟩
  · obtain ⟨bound, h⟩ := h.of_pred
    refine ⟨bound, fun fuel hle => ?_⟩
    have hrun : (execute (fuel + 1) scope (.whileLoop condition body)).Ends before outcome after :=
      h fuel hle
    rwa [execute] at hrun
  · rwa [execute]

section
variable {nodes : Array Node} {index operand : Nat} {node : Node} {tree : Tree} {scope : ScopeId}
  {between : Machine} {statement : Statement} {expression : Expression} {error : RuntimeError}

/-- An error of the first operand is the outcome of the node. -/
theorem eventually_operandRaised (hfound : nodes[index]? = some node)
    (hfirst : node.operand? = some operand)
    (h : Eventually fun fuel =>
      (evaluateNode fuel nodes scope operand).Ends before (.error error) after) :
    Eventually fun fuel => (evaluateNode fuel nodes scope index).Ends before (.error error) after :=
  h.succ fun _ hrun => (Task.Starts.operand hfound hfirst).raised hrun

/-- An error of the first expression is the outcome of the statement. -/
theorem eventually_expressionRaised (hfirst : statement.expression? = some expression)
    (h : Eventually fun fuel => (evaluate fuel scope expression).Ends before (.error error) after) :
    Eventually fun fuel => (execute fuel scope statement).Ends before (.error error) after :=
  h.succ fun _ hrun => (Task.Starts.expression hfirst).raised hrun

section
variable (hstore : before.store.WellFormed) (hscope : scope < before.store.scopes.size)
include hstore hscope

theorem sound_of_node {outcome : Outcome Value} (htree : Unfolds nodes index tree)
    (h : Eventually fun fuel => (evaluateNode fuel nodes scope index).Ends before outcome between) :
    between.store.WellFormed ∧ scope < between.store.scopes.size :=
  sound_of_eventually h (fun fuel => (allSafe fuel).node hstore hscope htree) hscope

/-- What a node is evaluated to leaves a sound machine, and from there something more is done. -/
theorem eventually_nodeThen {value : Value} {more : Nat → Prop} (htree : Unfolds nodes index tree)
    (h : Eventually fun fuel => (evaluateNode fuel nodes scope index).Ends before (.ok value) between)
    (hmore : between.store.WellFormed → scope < between.store.scopes.size → Eventually more) :
    Eventually fun fuel =>
      (evaluateNode fuel nodes scope index).Ends before (.ok value) between ∧ more fuel := by
  obtain ⟨hbetween, hinner⟩ := sound_of_node hstore hscope htree h
  exact h.and (hmore hbetween hinner)

theorem eventually_statementThen {more : Nat → Prop} {completion : Completion}
    (hkeeps : statement.Keeps Expression.Legible)
    (h : Eventually fun fuel => (execute fuel scope statement).Ends before (.ok completion) between)
    (hmore : between.store.WellFormed → scope < between.store.scopes.size → Eventually more) :
    Eventually fun fuel =>
      (execute fuel scope statement).Ends before (.ok completion) between ∧ more fuel := by
  obtain ⟨hbetween, hinner⟩ := sound_of_eventually h
    (fun fuel => (allSafe fuel).execute hstore hscope hkeeps) hscope
  exact h.and (hmore hbetween hinner)

end

end

end Run

open Run

mutual

theorem Evaluates.eventually {machine after : Machine} {scope : ScopeId} {tree : Tree}
    {outcome : Outcome Value} : Evaluates machine scope tree outcome after →
    machine.store.WellFormed → scope < machine.store.scopes.size →
    ∀ {nodes : Array Node} {index : Nat}, Unfolds nodes index tree →
      Eventually fun fuel => (evaluateNode fuel nodes scope index).Ends machine outcome after
  | .literal value, hstore, hscope, nodes, index, hunfolds => by
    cases hunfolds with
    | literal hfound =>
      refine .of_succ fun fuel => ?_
      simp only [evaluateNode, hfound]
      exact ends_pure.2 ⟨rfl, rfl⟩
  | .var hfinds, hstore, hscope, nodes, index, hunfolds => by
    cases hunfolds with
    | var hfound =>
      refine .of_succ fun fuel => ?_
      simp only [evaluateNode, hfound]
      exact (ends_lookup hstore hscope).2 ⟨rfl, .inl ⟨_, _, hfinds, rfl⟩⟩
  | .varUnbound hunbound, hstore, hscope, nodes, index, hunfolds => by
    cases hunfolds with
    | var hfound =>
      refine .of_succ fun fuel => ?_
      simp only [evaluateNode, hfound]
      exact (ends_lookup hstore hscope).2 ⟨rfl, .inr ⟨hunbound, rfl⟩⟩
  | .group hinner, hstore, hscope, nodes, index, hunfolds => by
    cases hunfolds with
    | group hfound htree =>
      refine (hinner.eventually hstore hscope htree).succ fun fuel hrun => ?_
      simp only [evaluateNode, hfound]
      exact hrun
  | .unary hoperand hgives, hstore, hscope, nodes, index, hunfolds => by
    cases hunfolds with
    | unary hfound htree =>
      refine (hoperand.eventually hstore hscope htree).succ fun fuel hrun => ?_
      simp only [evaluateNode, hfound]
      exact hrun.bind (ends_ofExcept.2 ⟨by rw [UnaryOperator.gives_iff.1 hgives], rfl⟩)
  | .unaryRaised hoperand, hstore, hscope, nodes, index, hunfolds => by
    cases hunfolds with
    | unary hfound htree =>
      exact eventually_operandRaised hfound rfl (hoperand.eventually hstore hscope htree)
  | .binary hleft hright hgives, hstore, hscope, nodes, index, hunfolds => by
    cases hunfolds with
    | binary hfound htree hother =>
      have hboth := eventually_nodeThen hstore hscope htree (hleft.eventually hstore hscope htree)
        fun hbetween hinner => hright.eventually hbetween hinner hother
      refine hboth.succ fun fuel ⟨hrun, hmore⟩ => ?_
      simp only [evaluateNode, hfound]
      exact hrun.bind (hmore.bind (ends_ofExcept.2
        ⟨by rw [BinaryOperator.gives_iff.1 hgives], rfl⟩))
  | .binaryLeftRaised hleft, hstore, hscope, nodes, index, hunfolds => by
    cases hunfolds with
    | binary hfound htree hother =>
      exact eventually_operandRaised hfound rfl (hleft.eventually hstore hscope htree)
  | .binaryRightRaised hleft hright, hstore, hscope, nodes, index, hunfolds => by
    cases hunfolds with
    | binary hfound htree hother =>
      have hboth := eventually_nodeThen hstore hscope htree (hleft.eventually hstore hscope htree)
        fun hbetween hinner => hright.eventually hbetween hinner hother
      exact hboth.succ fun _ ⟨hrun, hmore⟩ => (Task.Starts.binaryRight hfound hrun).raised hmore
  | .settled hleft hsettles, hstore, hscope, nodes, index, hunfolds => by
    cases hunfolds with
    | logical hfound htree hother =>
      refine (hleft.eventually hstore hscope htree).succ fun fuel hrun => ?_
      simp only [evaluateNode, hfound]
      refine hrun.bind ?_
      rw [if_pos (LogicalOperator.settles_iff.1 hsettles)]
      exact ends_pure.2 ⟨rfl, rfl⟩
  | .open hleft hopen hright, hstore, hscope, nodes, index, hunfolds => by
    cases hunfolds with
    | logical hfound htree hother =>
      have hboth := eventually_nodeThen hstore hscope htree (hleft.eventually hstore hscope htree)
        fun hbetween hinner => hright.eventually hbetween hinner hother
      refine hboth.succ fun fuel ⟨hrun, hmore⟩ => ?_
      simp only [evaluateNode, hfound]
      refine hrun.bind ?_
      rwa [if_neg (mt LogicalOperator.settles_iff.2 hopen)]
  | .logicalRaised hleft, hstore, hscope, nodes, index, hunfolds => by
    cases hunfolds with
    | logical hfound htree hother =>
      exact eventually_operandRaised hfound rfl (hleft.eventually hstore hscope htree)
  | .assign hvalue hfinds, hstore, hscope, nodes, index, hunfolds => by
    cases hunfolds with
    | assign hfound htree =>
      have hfirst := hvalue.eventually hstore hscope htree
      obtain ⟨hbetween, hinner⟩ := sound_of_node hstore hscope htree hfirst
      refine hfirst.succ fun fuel hrun => ?_
      simp only [evaluateNode, hfound]
      exact hrun.bind (((ends_assign hbetween hinner).2 (.inl ⟨_, _, hfinds, rfl, rfl⟩)).bind
        (ends_pure.2 ⟨rfl, rfl⟩))
  | .assignUnbound hvalue hunbound, hstore, hscope, nodes, index, hunfolds => by
    cases hunfolds with
    | assign hfound htree =>
      have hfirst := hvalue.eventually hstore hscope htree
      obtain ⟨hbetween, hinner⟩ := sound_of_node hstore hscope htree hfirst
      refine hfirst.succ fun fuel hrun => ?_
      simp only [evaluateNode, hfound]
      exact hrun.bind ((ends_assign hbetween hinner).2 (.inr ⟨hunbound, rfl, rfl⟩)).bindRaised
  | .assignRaised hvalue, hstore, hscope, nodes, index, hunfolds => by
    cases hunfolds with
    | assign hfound htree =>
      exact eventually_operandRaised hfound rfl (hvalue.eventually hstore hscope htree)
  | .call hcallee hall harity happlies, hstore, hscope, nodes, index, hunfolds => by
    cases hunfolds with
    | call hfound htree htrees =>
      have hsafe := fun fuel => (allSafe fuel).node hstore hscope htree
      have hfirst := hcallee.eventually hstore hscope htree
      obtain ⟨hbetween, hinner⟩ := sound_of_node hstore hscope htree hfirst
      have hallSafe := fun fuel => (allSafe fuel).nodes hbetween hinner htrees
      have hsecond := hall.eventually hbetween hinner htrees
      obtain ⟨hready, -⟩ := sound_of_eventually hsecond hallSafe hinner
      obtain ⟨fuel, hrun⟩ := hsecond.exists_fuel
      have hfits := (good_of_eventually hfirst hsafe).mono ((hallSafe fuel).grows hrun).size_le
      have hthird := happlies.eventually hready hfits (good_of_eventually hsecond hallSafe)
      refine ((hfirst.and hsecond).and hthird).succ fun fuel ⟨⟨hrun, hmore⟩, hlast⟩ => ?_
      simp only [evaluateNode, hfound]
      refine hrun.bind ?_
      simp only [harity]
      refine hmore.bind ?_
      rwa [if_pos rfl]
  | .wrongArity hcallee harity hall hwrong, hstore, hscope, nodes, index, hunfolds => by
    cases hunfolds with
    | call hfound htree htrees =>
      have hboth := eventually_nodeThen hstore hscope htree (hcallee.eventually hstore hscope htree)
        fun hbetween hinner => hall.eventually hbetween hinner htrees
      exact hboth.succ fun _ ⟨hrun, hmore⟩ =>
        (Task.Raises.wrongArity hfound hrun harity hmore hwrong).ends
  | .argumentRaised hcallee harity hall, hstore, hscope, nodes, index, hunfolds => by
    cases hunfolds with
    | call hfound htree htrees =>
      have hboth := eventually_nodeThen hstore hscope htree (hcallee.eventually hstore hscope htree)
        fun hbetween hinner => hall.eventually hbetween hinner htrees
      exact hboth.succ fun _ ⟨hrun, hmore⟩ =>
        (Task.Starts.arguments hfound hrun harity).raised hmore
  | .notCallable hcallee hother, hstore, hscope, nodes, index, hunfolds => by
    cases hunfolds with
    | call hfound htree htrees =>
      exact (hcallee.eventually hstore hscope htree).succ fun _ hrun =>
        (Task.Raises.notCallable hfound hrun hother).ends
  | .calleeRaised hcallee, hstore, hscope, nodes, index, hunfolds => by
    cases hunfolds with
    | call hfound htree htrees =>
      exact eventually_operandRaised hfound rfl (hcallee.eventually hstore hscope htree)

theorem EvaluatesAll.eventually {machine after : Machine} {scope : ScopeId} {trees : List Tree}
    {outcome : Outcome (List Value)} : EvaluatesAll machine scope trees outcome after →
    machine.store.WellFormed → scope < machine.store.scopes.size →
    ∀ {nodes : Array Node} {indices : List Nat}, AllUnfold nodes indices trees →
      Eventually fun fuel => (evaluateNodes fuel nodes scope indices).Ends machine outcome after
  | .nil, hstore, hscope, nodes, indices, hall => by
    cases hall
    refine .of_succ fun fuel => ?_
    rw [evaluateNodes]
    exact ends_pure.2 ⟨rfl, rfl⟩
  | .cons htree hrest, hstore, hscope, nodes, indices, hall => by
    cases hall with
    | cons hunfolds hothers =>
      have hboth := eventually_nodeThen hstore hscope hunfolds
        (htree.eventually hstore hscope hunfolds)
        fun hbetween hinner => hrest.eventually hbetween hinner hothers
      refine hboth.succ fun fuel ⟨hrun, hmore⟩ => ?_
      rw [evaluateNodes]
      exact hrun.bind (ends_bind_pure.2 ⟨_, hmore, rfl⟩)
  | .headRaised htree, hstore, hscope, nodes, indices, hall => by
    cases hall with
    | cons hunfolds hothers =>
      exact (htree.eventually hstore hscope hunfolds).succ fun _ hrun =>
        Task.Starts.head.raised hrun
  | .tailRaised htree hrest, hstore, hscope, nodes, indices, hall => by
    cases hall with
    | cons hunfolds hothers =>
      have hboth := eventually_nodeThen hstore hscope hunfolds
        (htree.eventually hstore hscope hunfolds)
        fun hbetween hinner => hrest.eventually hbetween hinner hothers
      exact hboth.succ fun _ ⟨hrun, hmore⟩ => (Task.Starts.tail hrun).raised hmore

theorem Applies.eventually {machine after : Machine} {callee : Value} {arguments : List Value}
    {line : Nat} {outcome : Outcome Value} : Applies machine callee arguments line outcome after →
    machine.store.WellFormed → callee.Fits machine.store.scopes.size →
    (∀ argument ∈ arguments, argument.Fits machine.store.scopes.size) →
      Eventually fun fuel => (call fuel callee arguments line).Ends machine outcome after
  | .clock, hstore, hcallee, harguments => by
    refine .of_succ fun fuel => ?_
    rw [call, readClock, ends_modifyGet_bind]
    exact ends_pure.2 ⟨rfl, rfl⟩
  | .stackOverflow hfull, hstore, hcallee, harguments =>
    .of_succ fun fuel => ends_call_function.2 (.inl ⟨hfull, rfl, rfl⟩)
  | .function hroom hbody, hstore, hcallee, harguments => by
    obtain ⟨hcalled, hscope, hdepth⟩ := Machine.wellFormed_called hstore hcallee.1 harguments
    have hruns := hbody.eventually hcalled hscope hcallee.2
    refine hruns.succ fun fuel hrun => ends_call_function.2 (.inr ⟨hroom, _, _, hrun, rfl, ?_⟩)
    have hafter := ((allSafe fuel).executeAll hcalled hscope hcallee.2).grows hrun
    rw [hafter.callDepth_eq, hdepth, Nat.add_sub_cancel]

theorem Executes.eventually {machine after : Machine} {scope : ScopeId} {statement : Statement}
    {outcome : Outcome Completion} : Executes machine scope statement outcome after →
    machine.store.WellFormed → scope < machine.store.scopes.size →
    statement.Keeps Expression.Legible →
      Eventually fun fuel => (execute fuel scope statement).Ends machine outcome after
  | .var, hstore, hscope, hkeeps => by
    refine .of_succ fun fuel => ?_
    rw [execute, pure_bind, ends_define_bind]
    exact ends_pure.2 ⟨rfl, rfl⟩
  | .initialized htree hvalue, hstore, hscope, hkeeps => by
    refine (hvalue.eventually hstore hscope htree).succ fun fuel hrun => ?_
    rw [execute]
    exact hrun.bind (ends_define_bind.2 (ends_pure.2 ⟨rfl, rfl⟩))
  | .initialRaised htree hvalue, hstore, hscope, hkeeps =>
    eventually_expressionRaised rfl (hvalue.eventually hstore hscope htree)
  | .function, hstore, hscope, hkeeps => by
    refine .of_succ fun fuel => ?_
    rw [execute, newIdentity, ends_modifyGet_bind, ends_define_bind]
    exact ends_pure.2 ⟨rfl, rfl⟩
  | .expression htree hvalue, hstore, hscope, hkeeps => by
    refine (hvalue.eventually hstore hscope htree).succ fun fuel hrun => ?_
    rw [execute]
    exact hrun.bind (ends_pure.2 ⟨rfl, rfl⟩)
  | .expressionRaised htree hvalue, hstore, hscope, hkeeps =>
    eventually_expressionRaised rfl (hvalue.eventually hstore hscope htree)
  | .print htree hvalue, hstore, hscope, hkeeps => by
    refine (hvalue.eventually hstore hscope htree).succ fun fuel hrun => ?_
    rw [execute]
    exact hrun.bind (ends_print_bind.2 (ends_pure.2 ⟨rfl, rfl⟩))
  | .printRaised htree hvalue, hstore, hscope, hkeeps =>
    eventually_expressionRaised rfl (hvalue.eventually hstore hscope htree)
  | .block hbody, hstore, hscope, hkeeps => by
    have henter := safe_newScope hstore hscope
    have hends : (newScope (some scope)).Ends machine (.ok machine.newest) (machine.enter scope) :=
      rfl
    refine (hbody.eventually (henter.wellFormed hends) (henter.good hends)
      (Statement.keeps_block_iff.1 hkeeps)).succ fun fuel hrun => ?_
    rw [execute, ends_newScope_bind]
    exact hrun
  | .ifHolds htree hvalue htruthy hsuccess, hstore, hscope, hkeeps => by
    have hboth := eventually_nodeThen hstore hscope htree (hvalue.eventually hstore hscope htree)
      fun hbetween hinner =>
        hsuccess.eventually hbetween hinner (Statement.keeps_ifThen_iff.1 hkeeps).2
    refine hboth.succ fun fuel ⟨hrun, hmore⟩ => ?_
    rw [execute]
    refine hrun.bind ?_
    rwa [if_pos (Value.not_falsy_iff.1 htruthy)]
  | .ifFails htree hvalue hfalsy, hstore, hscope, hkeeps => by
    refine (hvalue.eventually hstore hscope htree).succ fun fuel hrun => ?_
    rw [execute]
    refine hrun.bind ?_
    rw [if_neg (by rw [Value.falsy_iff.1 hfalsy]; simp)]
    exact ends_pure.2 ⟨rfl, rfl⟩
  | .ifRaised htree hvalue, hstore, hscope, hkeeps =>
    eventually_expressionRaised rfl (hvalue.eventually hstore hscope htree)
  | .elseHolds htree hvalue htruthy hsuccess, hstore, hscope, hkeeps => by
    have hboth := eventually_nodeThen hstore hscope htree (hvalue.eventually hstore hscope htree)
      fun hbetween hinner =>
        hsuccess.eventually hbetween hinner (Statement.keeps_ifElse_iff.1 hkeeps).2.1
    refine hboth.succ fun fuel ⟨hrun, hmore⟩ => ?_
    rw [execute]
    refine hrun.bind ?_
    rwa [if_pos (Value.not_falsy_iff.1 htruthy)]
  | .elseFails htree hvalue hfalsy hfailure, hstore, hscope, hkeeps => by
    have hboth := eventually_nodeThen hstore hscope htree (hvalue.eventually hstore hscope htree)
      fun hbetween hinner =>
        hfailure.eventually hbetween hinner (Statement.keeps_ifElse_iff.1 hkeeps).2.2
    refine hboth.succ fun fuel ⟨hrun, hmore⟩ => ?_
    rw [execute]
    refine hrun.bind ?_
    rwa [if_neg (by rw [Value.falsy_iff.1 hfalsy]; simp)]
  | .elseRaised htree hvalue, hstore, hscope, hkeeps =>
    eventually_expressionRaised rfl (hvalue.eventually hstore hscope htree)
  | .whileFails htree hvalue hfalsy, hstore, hscope, hkeeps => by
    refine eventually_whileLoop_iff.2 ((hvalue.eventually hstore hscope htree).succ
      fun fuel hrun => ?_)
    rw [loop]
    refine hrun.bind ?_
    rw [if_neg (by rw [Value.falsy_iff.1 hfalsy]; simp)]
    exact ends_pure.2 ⟨rfl, rfl⟩
  | .whileHolds htree hvalue htruthy hbody hagain, hstore, hscope, hkeeps => by
    have hbodyKeeps := (Statement.keeps_whileLoop_iff.1 hkeeps).2
    have hruns := eventually_nodeThen hstore hscope htree (hvalue.eventually hstore hscope htree)
      fun hbetween hinner => eventually_statementThen hbetween hinner hbodyKeeps
        (hbody.eventually hbetween hinner hbodyKeeps) fun hfurther hinner =>
          eventually_whileLoop_iff.1 (hagain.eventually hfurther hinner hkeeps)
    refine eventually_whileLoop_iff.2 (hruns.succ fun fuel ⟨hrun, hround, hmore⟩ => ?_)
    rw [loop]
    refine hrun.bind ?_
    rw [if_pos (Value.not_falsy_iff.1 htruthy)]
    exact hround.bind hmore
  | .whileLeft htree hvalue htruthy hbody hleft, hstore, hscope, hkeeps => by
    have hruns := eventually_nodeThen hstore hscope htree (hvalue.eventually hstore hscope htree)
      fun hbetween hinner =>
        hbody.eventually hbetween hinner (Statement.keeps_whileLoop_iff.1 hkeeps).2
    refine eventually_whileLoop_iff.2 (hruns.succ fun fuel ⟨hrun, hround⟩ => ?_)
    rw [loop]
    refine hrun.bind ?_
    rw [if_pos (Value.not_falsy_iff.1 htruthy)]
    exact hround.leave hleft
  | .whileRaised htree hvalue, hstore, hscope, hkeeps =>
    eventually_whileLoop_iff.2 ((hvalue.eventually hstore hscope htree).succ
      fun _ hrun => Task.Starts.condition.raised hrun)
  | .returnNil, hstore, hscope, hkeeps => by
    refine .of_succ fun fuel => ?_
    rw [execute, pure_bind]
    exact ends_pure.2 ⟨rfl, rfl⟩
  | .returnWith htree hvalue, hstore, hscope, hkeeps => by
    refine (hvalue.eventually hstore hscope htree).succ fun fuel hrun => ?_
    rw [execute]
    exact hrun.bind (ends_pure.2 ⟨rfl, rfl⟩)
  | .returnRaised htree hvalue, hstore, hscope, hkeeps =>
    eventually_expressionRaised rfl (hvalue.eventually hstore hscope htree)

theorem ExecutesAll.eventually {machine after : Machine} {scope : ScopeId}
    {statements : List Statement} {outcome : Outcome Completion} :
    ExecutesAll machine scope statements outcome after →
    machine.store.WellFormed → scope < machine.store.scopes.size →
    Statement.AllKeep Expression.Legible statements →
      Eventually fun fuel => (executeAll fuel scope statements).Ends machine outcome after
  | .nil, hstore, hscope, hkeep => by
    refine .of_succ fun fuel => ?_
    rw [executeAll]
    exact ends_pure.2 ⟨rfl, rfl⟩
  | .cons hstatement hrest, hstore, hscope, hkeep => by
    obtain ⟨hhead, htail⟩ := List.forall_mem_cons.1 hkeep
    have hboth := eventually_statementThen hstore hscope hhead
      (hstatement.eventually hstore hscope hhead)
      fun hbetween hinner => hrest.eventually hbetween hinner htail
    refine hboth.succ fun fuel ⟨hrun, hmore⟩ => ?_
    rw [executeAll]
    exact hrun.bind hmore
  | .left hstatement hleft, hstore, hscope, hkeep => by
    refine (hstatement.eventually hstore hscope (List.forall_mem_cons.1 hkeep).1).succ
      fun fuel hrun => ?_
    rw [executeAll]
    exact hrun.leave hleft

end

end Lox
