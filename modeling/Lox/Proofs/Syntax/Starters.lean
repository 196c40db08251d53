import Lox.Proofs.Syntax.Derivation

/-!
# Words that start statements

How many words in front of which recovery may stop are in the writing of a statement does not depend
on the writing: no expression has any, and every other form of statement has its own.
-/

namespace Lox

/-- The tokens that open a statement or a declaration with a word. -/
def starters (tokens : List Token) : Nat :=
  tokens.countP (·.kind.startsStatement)

@[simp] theorem starters_nil : starters [] = 0 := rfl

@[simp] theorem starters_append (tokens others : List Token) :
    starters (tokens ++ others) = starters tokens + starters others :=
  List.countP_append

theorem starters_cons (token : Token) (tokens : List Token) : starters (token :: tokens) =
    starters tokens + if token.kind.startsStatement then 1 else 0 :=
  List.countP_cons

theorem starters_cons_of_false {token : Token} {tokens : List Token}
    (h : token.kind.startsStatement = false) : starters (token :: tokens) = starters tokens :=
  List.countP_cons_of_neg (by simp [h])

theorem starters_le_of_suffix {tokens whole : List Token} (h : tokens <:+ whole) :
    starters tokens ≤ starters whole :=
  h.sublist.countP_le

theorem Mark.starters_cons {kind : TokenKind} (mark : Mark kind) (tokens : List Token) :
    starters (mark.token :: tokens) = starters tokens + if kind.startsStatement then 1 else 0 := by
  rw [Lox.starters_cons, mark.isKind]

/-! ### Expressions -/

theorem UnaryOperator.startsStatement_eq_false {kind : TokenKind} {operator : UnaryOperator}
    (h : ofToken? kind = some operator) : kind.startsStatement = false := by
  unfold ofToken? at h
  split at h <;> first | rfl | cases h

theorem BinaryOperator.startsStatement_eq_false {kind : TokenKind} {operator : BinaryOperator}
    (h : ofToken? kind = some operator) : kind.startsStatement = false := by
  unfold ofToken? at h
  split at h <;> first | rfl | cases h

theorem LogicalOperator.startsStatement_keyword (operator : LogicalOperator) :
    (TokenKind.keyword operator.keyword).startsStatement = false := by
  cases operator <;> rfl

theorem Literal.startsStatement_eq_false {token : Token} {value : Literal}
    (h : ofToken? token = some value) : token.kind.startsStatement = false := by
  unfold ofToken? at h
  split at h <;> simp_all [TokenKind.startsStatement, Keyword.startsStatement]

attribute [local simp] TokenKind.startsStatement Keyword.startsStatement Mark.starters_cons

namespace Tree

mutual

theorem Written.starters_eq_zero {tree : Tree} {tokens : List Token} :
    tree.Written tokens → starters tokens = 0
  | .literal reads => starters_cons_of_false (Literal.startsStatement_eq_false reads)
  | .var name => by simp
  | .group opening written closing => by simp [written.starters_eq_zero]
  | .unary reads written =>
    (starters_cons_of_false (UnaryOperator.startsStatement_eq_false reads)).trans
      written.starters_eq_zero
  | .binary writtenLeft reads writtenRight => by
    rw [starters_append, starters_cons_of_false (BinaryOperator.startsStatement_eq_false reads),
      writtenLeft.starters_eq_zero, writtenRight.starters_eq_zero]
  | .logical writtenLeft sign writtenRight => by
    rw [starters_append, sign.starters_cons, writtenLeft.starters_eq_zero,
      writtenRight.starters_eq_zero, LogicalOperator.startsStatement_keyword]
    rfl
  | .assign target equals written => by simp [written.starters_eq_zero]
  | .call writtenCallee opening writtenArguments closing => by
    simp [writtenCallee.starters_eq_zero, writtenArguments.starters_eq_zero]

theorem WrittenArguments.starters_eq_zero {trees : List Tree} {tokens : List Token} :
    WrittenArguments trees tokens → starters tokens = 0
  | .none => rfl
  | .last written => written.starters_eq_zero
  | .more written comma writtenRest => by
    simp [written.starters_eq_zero, writtenRest.starters_eq_zero]

end

end Tree

variable {levels : Nat} {tokens : List Token}

theorem Expression.Spelled.starters_eq_zero {expression : Expression}
    (h : expression.Spelled levels tokens) : starters tokens = 0 := by
  obtain ⟨tree, hspelled, -⟩ := h
  exact hspelled.written.starters_eq_zero

theorem OptionSpelled.starters_eq_zero {value : Option Expression}
    (h : OptionSpelled levels value tokens) : starters tokens = 0 := by
  cases h with
  | none => rfl
  | some spelled => exact spelled.starters_eq_zero

theorem Separated.starters_eq_zero {pieces : List (List Token)} (h : Separated pieces tokens)
    (hpieces : ∀ piece ∈ pieces, Lox.starters piece = 0) : Lox.starters tokens = 0 := by
  induction h with
  | none => rfl
  | last piece => exact hpieces piece (by simp)
  | more piece comma _ ih =>
    simp [hpieces piece (by simp), ih fun other hother => hpieces other (List.mem_cons_of_mem _ hother)]

/-! ### Statements -/

namespace Statement

mutual

/-- The words that the writing of a statement has. -/
def starters : Statement → Nat
  | expression _ => 0
  | print _ | varDecl .. | returnWith .. => 1
  | funDecl _ _ body => allStarters body + 1
  | block body => allStarters body
  | ifThen _ success => success.starters + 1
  | ifElse _ success failure => success.starters + failure.starters + 1
  | whileLoop _ body => body.starters + 1

def allStarters : List Statement → Nat
  | [] => 0
  | statement :: rest => statement.starters + allStarters rest

end

theorem starters_loop (initial : Option Statement) (condition increment : Option Expression)
    (body : Statement) : (loop initial condition increment body).starters =
      initial.elim 0 starters + body.starters + 1 := by
  cases initial <;> cases increment <;> simp [loop, starters, allStarters, Nat.add_assoc]

theorem VarWritten.starters_eq {statement : Statement} (h : VarWritten levels statement tokens) :
    Lox.starters tokens = 0 ∧ statement.starters = 1 := by
  cases h with
  | bare name semicolon => simp [starters]
  | initialized name equals spelled semicolon => simp [spelled.starters_eq_zero, starters]

theorem InitializerWritten.starters_eq {initial : Option Statement}
    (h : InitializerWritten levels initial tokens) :
    Lox.starters tokens = initial.elim 0 starters := by
  cases h with
  | none semicolon => simp
  | var keyword written => simp [written.starters_eq]
  | expression spelled semicolon => simp [spelled.starters_eq_zero, starters]

mutual

theorem Written.starters_eq {inBody dangling : Bool} {levels : Nat} {statement : Statement}
    {tokens : List Token} : Written inBody levels dangling statement tokens →
    Lox.starters tokens = statement.starters
  | .expression spelled semicolon => by simp [spelled.starters_eq_zero, starters]
  | .behind first written => (starters_cons first _).trans written.starters_eq

theorem WrittenBehind.starters_eq {inBody dangling : Bool} {levels line : Nat} {first : TokenKind}
    {statement : Statement} {tokens : List Token} :
    WrittenBehind inBody levels dangling first line statement tokens →
    (Lox.starters tokens + if first.startsStatement then 1 else 0) = statement.starters
  | .print spelled semicolon => by simp [spelled.starters_eq_zero, starters]
  | .returnWith spelled semicolon => by simp [spelled.starters_eq_zero, starters]
  | .block listed closing => by simp [listed.starters_eq, starters]
  | .ifThen opening spelled closing written => by
    simp [spelled.starters_eq_zero, written.starters_eq, starters]
  | .ifElse opening spelled closing writtenSuccess otherwise writtenFailure => by
    simp [spelled.starters_eq_zero, writtenSuccess.starters_eq, writtenFailure.starters_eq, starters]
  | .whileLoop opening spelled closing written => by
    simp [spelled.starters_eq_zero, written.starters_eq, starters]
  | .forLoop opening writtenInitial spelledCondition semicolon spelledIncrement closing written => by
    simp [writtenInitial.starters_eq, spelledCondition.starters_eq_zero,
      spelledIncrement.starters_eq_zero, written.starters_eq, starters_loop]

theorem AllListed.starters_eq {inBody : Bool} {levels : Nat} {body : List Statement}
    {tokens : List Token} : AllListed inBody levels body tokens →
    Lox.starters tokens = allStarters body
  | .nil => rfl
  | .cons listed listedRest => by simp [listed.starters_eq, listedRest.starters_eq, allStarters]

theorem Listed.starters_eq {inBody dangling : Bool} {levels : Nat} {statement : Statement}
    {tokens : List Token} : Listed inBody levels dangling statement tokens →
    Lox.starters tokens = statement.starters
  | .var keyword written => by simp [written.starters_eq]
  | .function keyword written => by
    simp [written.starters_eq]
  | .statement written => written.starters_eq

theorem FunctionWritten.starters_eq {levels : Nat} {statement : Statement} {tokens : List Token} :
    FunctionWritten levels statement tokens → Lox.starters tokens + 1 = statement.starters
  | .mk name opening separated few closing opened listed closed => by
    have hparameters := separated.starters_eq_zero (by simp)
    simp [hparameters, listed.starters_eq, starters]

end

end Statement

end Lox
