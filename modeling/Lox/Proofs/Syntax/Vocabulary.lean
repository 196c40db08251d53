import Lox.Proofs.Syntax.Derivation

/-!
# The tokens that derivations are made of

Which tokens may stand in an expression: none of them is a semicolon or opens a statement with a
word, so recovery skips all of them. And the end of the tokens stands in no derivation at all.
-/

namespace Lox

/-! ### Expressions -/

/-- The tokens that an expression is made of. -/
def TokenKind.inExpression (kind : TokenKind) : Bool :=
  kind.opensExpression || (Connective.ofToken? kind).isSome || kind = .equal ||
    kind = .rightParen || kind = .comma

/-- Recovery skips all tokens of expressions. -/
theorem TokenKind.skipped_of_inExpression {kind : TokenKind} (h : kind.inExpression = true) :
    kind ≠ .semicolon ∧ kind.startsStatement = false := by
  cases kind with
  | keyword word => cases word <;> first | exact ⟨nofun, rfl⟩ | cases h
  | semicolon => cases h
  | _ => exact ⟨nofun, rfl⟩

theorem Mark.inExpression {kind : TokenKind} (mark : Mark kind) (h : kind.inExpression = true) :
    mark.token.kind.inExpression = true := by
  rw [mark.isKind]
  exact h

theorem Literal.inExpression {token : Token} {value : Literal} (h : ofToken? token = some value) :
    token.kind.inExpression = true := by
  unfold ofToken? at h
  split at h <;> simp_all [TokenKind.inExpression, TokenKind.opensExpression]

theorem UnaryOperator.inExpression {kind : TokenKind} {operator : UnaryOperator}
    (h : ofToken? kind = some operator) : kind.inExpression = true := by
  unfold ofToken? at h
  split at h <;> first | rfl | cases h

theorem BinaryOperator.inExpression {kind : TokenKind} {operator : BinaryOperator}
    (h : ofToken? kind = some operator) : kind.inExpression = true := by
  unfold ofToken? at h
  split at h <;> first | rfl | cases h

theorem LogicalOperator.inExpression (operator : LogicalOperator) :
    (TokenKind.keyword operator.keyword).inExpression = true := by
  cases operator <;> rfl

namespace Tree

mutual

theorem Written.inExpression {tree : Tree} {tokens : List Token} :
    tree.Written tokens → ∀ token ∈ tokens, token.kind.inExpression = true
  | .literal reads => by simpa using Literal.inExpression reads
  | .var name => by simpa using name.inExpression rfl
  | .group opening written closing => by
    have hinner := written.inExpression
    have hopening := opening.inExpression rfl
    have hclosing := closing.inExpression rfl
    simp_all [or_imp]
  | .unary reads written => by
    have hinner := written.inExpression
    have hsign := UnaryOperator.inExpression reads
    simp_all
  | .binary writtenLeft reads writtenRight => by
    have hleft := writtenLeft.inExpression
    have hsign := BinaryOperator.inExpression reads
    have hright := writtenRight.inExpression
    simp_all [or_imp]
  | .logical writtenLeft sign writtenRight => by
    have hleft := writtenLeft.inExpression
    have hsign := sign.inExpression (LogicalOperator.inExpression _)
    have hright := writtenRight.inExpression
    simp_all [or_imp]
  | .assign target equals written => by
    have hinner := written.inExpression
    have htarget := target.inExpression rfl
    have hequals := equals.inExpression rfl
    simp_all
  | .call writtenCallee opening writtenArguments closing => by
    have hcallee := writtenCallee.inExpression
    have hopening := opening.inExpression rfl
    have harguments := writtenArguments.inExpression
    have hclosing := closing.inExpression rfl
    simp_all [or_imp]

theorem WrittenArguments.inExpression {trees : List Tree} {tokens : List Token} :
    WrittenArguments trees tokens → ∀ token ∈ tokens, token.kind.inExpression = true
  | .none => by simp
  | .last written => written.inExpression
  | .more written comma writtenRest => by
    have hargument := written.inExpression
    have hcomma := comma.inExpression rfl
    have hrest := writtenRest.inExpression
    simp_all [or_imp]

end

end Tree

theorem TokenKind.ne_eof_of_inExpression {kind : TokenKind} (h : kind.inExpression = true) :
    kind ≠ .eof := by
  rintro rfl
  cases h

variable {levels : Nat} {tokens : List Token}

theorem Expression.Spelled.kind_ne_eof {expression : Expression}
    (h : expression.Spelled levels tokens) : ∀ token ∈ tokens, token.kind ≠ .eof := by
  obtain ⟨tree, hspelled, -⟩ := h
  exact fun token htoken => TokenKind.ne_eof_of_inExpression
    (hspelled.written.inExpression token htoken)

theorem OptionSpelled.kind_ne_eof {value : Option Expression}
    (h : OptionSpelled levels value tokens) : ∀ token ∈ tokens, token.kind ≠ .eof := by
  cases h with
  | none => simp
  | some spelled => exact spelled.kind_ne_eof

theorem Separated.kind_ne_eof {pieces : List (List Token)} (h : Separated pieces tokens)
    (hpieces : ∀ piece ∈ pieces, ∀ token ∈ piece, token.kind ≠ .eof) :
    ∀ token ∈ tokens, token.kind ≠ .eof := by
  induction h with
  | none => simp
  | last piece => exact hpieces piece (by simp)
  | more piece comma _ ih =>
    have hfirst := hpieces piece (by simp)
    have hrest := ih fun other hother => hpieces other (List.mem_cons_of_mem _ hother)
    simp_all [or_imp, comma.isKind]

/-! ### Statements -/

namespace Statement

theorem VarWritten.kind_ne_eof {statement : Statement} (h : VarWritten levels statement tokens) :
    ∀ token ∈ tokens, token.kind ≠ .eof := by
  cases h with
  | bare name semicolon => simp [name.isKind, semicolon.isKind]
  | initialized name equals spelled semicolon =>
    have hvalue := spelled.kind_ne_eof
    simp_all [or_imp, name.isKind, equals.isKind, semicolon.isKind]

theorem InitializerWritten.kind_ne_eof {initial : Option Statement}
    (h : InitializerWritten levels initial tokens) : ∀ token ∈ tokens, token.kind ≠ .eof := by
  cases h with
  | none semicolon => simp [semicolon.isKind]
  | var keyword written => simpa [keyword.isKind] using written.kind_ne_eof
  | expression spelled semicolon =>
    have hvalue := spelled.kind_ne_eof
    simp_all [or_imp, semicolon.isKind]

theorem WrittenBehind.first_ne_eof {inBody dangling : Bool} {line : Nat} {first : TokenKind}
    {statement : Statement}
    (h : WrittenBehind inBody levels dangling first line statement tokens) : first ≠ .eof := by
  rintro rfl
  cases h

mutual

theorem Written.kind_ne_eof {inBody dangling : Bool} {levels : Nat} {statement : Statement}
    {tokens : List Token} : Written inBody levels dangling statement tokens →
    ∀ token ∈ tokens, token.kind ≠ .eof
  | .expression spelled semicolon => by
    have hvalue := spelled.kind_ne_eof
    simp_all [or_imp, semicolon.isKind]
  | .behind first written => by
    have hfirst := written.first_ne_eof
    have hrest := written.kind_ne_eof
    simp_all

theorem WrittenBehind.kind_ne_eof {inBody dangling : Bool} {levels line : Nat} {first : TokenKind}
    {statement : Statement} {tokens : List Token} :
    WrittenBehind inBody levels dangling first line statement tokens →
    ∀ token ∈ tokens, token.kind ≠ .eof
  | .print spelled semicolon | .returnWith spelled semicolon => by
    have hvalue := spelled.kind_ne_eof
    simp_all [or_imp, semicolon.isKind]
  | .block listed closing => by
    have hlisted := listed.kind_ne_eof
    simp_all [or_imp, closing.isKind]
  | .ifThen opening spelled closing written | .whileLoop opening spelled closing written => by
    have hcondition := spelled.kind_ne_eof
    have hbody := written.kind_ne_eof
    simp_all [or_imp, opening.isKind, closing.isKind]
  | .ifElse opening spelled closing writtenSuccess otherwise writtenFailure => by
    have hcondition := spelled.kind_ne_eof
    have hsuccess := writtenSuccess.kind_ne_eof
    have hfailure := writtenFailure.kind_ne_eof
    simp_all [or_imp, opening.isKind, closing.isKind, otherwise.isKind]
  | .forLoop opening writtenInitial spelledCondition semicolon spelledIncrement closing written => by
    have hinitial := writtenInitial.kind_ne_eof
    have hcondition := spelledCondition.kind_ne_eof
    have hincrement := spelledIncrement.kind_ne_eof
    have hbody := written.kind_ne_eof
    simp_all [or_imp, opening.isKind, closing.isKind, semicolon.isKind]

theorem FunctionWritten.kind_ne_eof {levels : Nat} {statement : Statement} {tokens : List Token} :
    FunctionWritten levels statement tokens → ∀ token ∈ tokens, token.kind ≠ .eof
  | .mk name opening separated few closing opened listed closed => by
    have hparameters := separated.kind_ne_eof (by simp [Mark.isKind])
    have hlisted := listed.kind_ne_eof
    simp_all [or_imp, name.isKind, opening.isKind, closing.isKind, opened.isKind, closed.isKind]

theorem Listed.kind_ne_eof {inBody dangling : Bool} {levels : Nat} {statement : Statement}
    {tokens : List Token} : Listed inBody levels dangling statement tokens →
    ∀ token ∈ tokens, token.kind ≠ .eof
  | .var keyword written => by simpa [keyword.isKind] using written.kind_ne_eof
  | .function keyword written => by
    have hrest := written.kind_ne_eof
    simp_all [keyword.isKind]
  | .statement written => written.kind_ne_eof

theorem AllListed.kind_ne_eof {inBody : Bool} {levels : Nat} {body : List Statement}
    {tokens : List Token} : AllListed inBody levels body tokens →
    ∀ token ∈ tokens, token.kind ≠ .eof
  | .nil => by simp
  | .cons listed listedRest => by
    have hfirst := listed.kind_ne_eof
    have hrest := listedRest.kind_ne_eof
    simp_all [or_imp]

end

end Statement

end Lox
