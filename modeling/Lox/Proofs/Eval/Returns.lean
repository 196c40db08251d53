import Lox.Proofs.Eval.Completeness
import Lox.Proofs.Syntax.Derivation

/-!
# Where a return ends

A `return` ends everything up to the nearest call. Where a program is written without errors each
one stands in the body of a function, so the statements of such a program are run to the last one
unless there is an error, and other statements may come behind them.
-/

namespace Lox

namespace Statement

mutual

/-- Whether a `return` stands in the statement that is not in a function of it. -/
def returns : Statement → Bool
  | returnWith .. => true
  | block body => anyReturns body
  | ifThen _ success => success.returns
  | ifElse _ success failure => success.returns || failure.returns
  | whileLoop _ body => body.returns
  | varDecl .. | funDecl .. | expression _ | print _ => false

def anyReturns : List Statement → Bool
  | [] => false
  | statement :: rest => statement.returns || anyReturns rest

end

theorem returns_loop (initial : Option Statement) (condition increment : Option Expression)
    (body : Statement) : (loop initial condition increment body).returns =
      (initial.elim false returns || body.returns) := by
  cases initial <;> cases increment <;> simp [loop, returns, anyReturns]

theorem VarWritten.returns_eq_false {levels : Nat} {statement : Statement} {tokens : List Token}
    (h : VarWritten levels statement tokens) : statement.returns = false := by
  cases h <;> rfl

theorem InitializerWritten.returns_eq_false {levels : Nat} {initial : Option Statement}
    {tokens : List Token} (h : InitializerWritten levels initial tokens) :
    initial.elim false returns = false := by
  cases h with
  | none => rfl
  | var keyword written => exact written.returns_eq_false
  | expression => rfl

theorem FunctionWritten.returns_eq_false {levels : Nat} {statement : Statement}
    {tokens : List Token} (h : FunctionWritten levels statement tokens) :
    statement.returns = false := by
  cases h
  rw [returns]

mutual

theorem Written.returns_eq_false {inBody dangling : Bool} {levels : Nat} {statement : Statement}
    {tokens : List Token} : Written inBody levels dangling statement tokens → inBody = false →
    statement.returns = false
  | .expression spelled semicolon, _ => by rw [returns]
  | .behind first written, h => written.returns_eq_false h

theorem WrittenBehind.returns_eq_false {inBody dangling : Bool} {levels line : Nat}
    {first : TokenKind} {statement : Statement} {tokens : List Token} :
    WrittenBehind inBody levels dangling first line statement tokens → inBody = false →
    statement.returns = false
  | .print spelled semicolon, _ => by rw [returns]
  | .returnWith spelled semicolon, h => nomatch h
  | .block listed closing, h => by rw [returns, listed.anyReturns_eq_false h]
  | .ifThen opening spelled closing written, h => by rw [returns, written.returns_eq_false h]
  | .ifElse opening spelled closing writtenSuccess otherwise writtenFailure, h => by
    rw [returns, writtenSuccess.returns_eq_false h, writtenFailure.returns_eq_false h, Bool.or_self]
  | .whileLoop opening spelled closing written, h => by rw [returns, written.returns_eq_false h]
  | .forLoop opening writtenInitial spelledCondition semicolon spelledIncrement closing written,
      h => by
    rw [returns_loop, writtenInitial.returns_eq_false, written.returns_eq_false h, Bool.or_self]

theorem Listed.returns_eq_false {inBody dangling : Bool} {levels : Nat} {statement : Statement}
    {tokens : List Token} : Listed inBody levels dangling statement tokens → inBody = false →
    statement.returns = false
  | .var keyword written, _ => written.returns_eq_false
  | .function keyword written, _ => written.returns_eq_false
  | .statement written, h => written.returns_eq_false h

theorem AllListed.anyReturns_eq_false {inBody : Bool} {levels : Nat} {statements : List Statement}
    {tokens : List Token} : AllListed inBody levels statements tokens → inBody = false →
    anyReturns statements = false
  | .nil, _ => rfl
  | .cons listed listedRest, h => by
    rw [anyReturns, listed.returns_eq_false h, listedRest.anyReturns_eq_false h, Bool.or_self]

end

end Statement

/-! ### Executions that return -/

mutual

theorem Executes.returns_of_returned {machine after : Machine} {scope : ScopeId}
    {statement : Statement} {outcome : Outcome Completion} {value : Value} :
    Executes machine scope statement outcome after → outcome = .ok (.returned value) →
    statement.returns = true
  | .var, h | .initialized .., h | .initialRaised .., h | .function, h | .expression .., h
  | .expressionRaised .., h | .print .., h | .printRaised .., h | .ifFails .., h | .ifRaised .., h
  | .elseRaised .., h | .whileFails .., h | .whileRaised .., h | .returnRaised .., h => nomatch h
  | .block executesAll, h => executesAll.anyReturns_of_returned h
  | .ifHolds _ _ _ executes, h => executes.returns_of_returned h
  | .elseHolds _ _ _ executes, h => by
    rw [Statement.returns, executes.returns_of_returned h, Bool.true_or]
  | .elseFails _ _ _ executes, h => by
    rw [Statement.returns, executes.returns_of_returned h, Bool.or_true]
  | .whileHolds _ _ _ _ again, h => again.returns_of_returned h
  | .whileLeft _ _ _ executes _, h => executes.returns_of_returned h
  | .returnNil, _ => rfl
  | .returnWith _ _, _ => rfl

theorem ExecutesAll.anyReturns_of_returned {machine after : Machine} {scope : ScopeId}
    {statements : List Statement} {outcome : Outcome Completion} {value : Value} :
    ExecutesAll machine scope statements outcome after → outcome = .ok (.returned value) →
    Statement.anyReturns statements = true
  | .nil, h => nomatch h
  | .cons _ executesAll, h => by
    rw [Statement.anyReturns, executesAll.anyReturns_of_returned h, Bool.or_true]
  | .left executes _, h => by
    rw [Statement.anyReturns, executes.returns_of_returned h, Bool.true_or]

end

/-! ### Statements behind others -/

theorem ExecutesAll.append {machine between after : Machine} {scope : ScopeId}
    {first second : List Statement} {outcome : Outcome Completion}
    (hfirst : ExecutesAll machine scope first (.ok .normal) between)
    (hsecond : ExecutesAll between scope second outcome after) :
    ExecutesAll machine scope (first ++ second) outcome after := by
  induction first generalizing machine with
  | nil =>
    cases hfirst
    exact hsecond
  | cons statement rest ih =>
    cases hfirst with
    | cons executes executesAll => exact .cons executes (ih executesAll)
    | left _ left => exact absurd rfl left

/-- Where statements are executed one list behind the other, the first list comes to its end, or it
is the one that is left. -/
theorem ExecutesAll.of_append {machine after : Machine} {scope : ScopeId}
    {first second : List Statement} {outcome : Outcome Completion}
    (h : ExecutesAll machine scope (first ++ second) outcome after) :
    (∃ between, ExecutesAll machine scope first (.ok .normal) between ∧
        ExecutesAll between scope second outcome after) ∨
      outcome ≠ .ok .normal ∧ ExecutesAll machine scope first outcome after := by
  induction first generalizing machine with
  | nil => exact .inl ⟨machine, .nil, h⟩
  | cons statement rest ih =>
    cases h with
    | cons executes executesAll =>
      rcases ih executesAll with ⟨between, hfirst, hsecond⟩ | ⟨left, hfirst⟩
      · exact .inl ⟨between, .cons executes hfirst, hsecond⟩
      · exact .inr ⟨left, .cons executes hfirst⟩
    | left executes left => exact .inr ⟨left, .left executes left⟩

/-- Statements come to one end at most. -/
theorem ExecutesAll.unique {machine after final : Machine} {scope : ScopeId}
    {statements : List Statement} {outcome other : Outcome Completion}
    (hstore : machine.store.WellFormed) (hscope : scope < machine.store.scopes.size)
    (hkeep : Statement.AllKeep Expression.Legible statements)
    (h : ExecutesAll machine scope statements outcome after)
    (hother : ExecutesAll machine scope statements other final) : outcome = other ∧ after = final := by
  obtain ⟨bound, hruns⟩ := h.eventually hstore hscope hkeep
  obtain ⟨most, hothers⟩ := hother.eventually hstore hscope hkeep
  exact (hruns _ (Nat.le_max_left bound most)).unique (hothers _ (Nat.le_max_right bound most))

end Lox
