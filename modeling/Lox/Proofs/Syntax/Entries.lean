import Lox.Proofs.Syntax.Derivation

/-!
# Derivations that are taken apart

A derivation in the grammar of statements still is one where more levels are free, or inside of a
function. And it can be taken apart by the first token, which tells what a statement is behind it,
or by the statement, which tells what the tokens have to be.
-/

namespace Lox

variable {levels more : Nat} {tokens : List Token}

/-! ### Levels to spare -/

theorem Tree.Spelled.mono {tree : Tree} (h : tree.Spelled levels tokens) (hle : levels ≤ more) :
    tree.Spelled more tokens :=
  { h with depth_lt := Nat.lt_of_lt_of_le h.depth_lt hle }

theorem Expression.Spelled.mono {expression : Expression} (h : expression.Spelled levels tokens)
    (hle : levels ≤ more) : expression.Spelled more tokens := by
  obtain ⟨tree, hspelled, hexpression⟩ := h
  exact ⟨tree, hspelled.mono hle, hexpression⟩

theorem OptionSpelled.mono {value : Option Expression} (h : OptionSpelled levels value tokens)
    (hle : levels ≤ more) : OptionSpelled more value tokens := by
  cases h with
  | none => exact .none
  | some spelled => exact .some (spelled.mono hle)

namespace Statement

theorem VarWritten.mono {statement : Statement} (h : VarWritten levels statement tokens)
    (hle : levels ≤ more) : VarWritten more statement tokens := by
  cases h with
  | bare name semicolon => exact .bare name semicolon
  | initialized name equals spelled semicolon =>
    exact .initialized name equals (spelled.mono hle) semicolon

theorem InitializerWritten.mono {initial : Option Statement}
    (h : InitializerWritten levels initial tokens) (hle : levels ≤ more) :
    InitializerWritten more initial tokens := by
  cases h with
  | none semicolon => exact .none semicolon
  | var keyword written => exact .var keyword (written.mono hle)
  | expression spelled semicolon => exact .expression (spelled.mono hle) semicolon

mutual

theorem Written.mono {inBody other dangling : Bool} {levels more : Nat} {statement : Statement}
    {tokens : List Token} (hbody : inBody = true → other = true) :
    Written inBody levels dangling statement tokens → levels ≤ more →
      Written other more dangling statement tokens
  | .expression spelled semicolon, hle => by
    obtain ⟨fewer, rfl⟩ : ∃ fewer, more = fewer + 1 := ⟨more - 1, by omega⟩
    exact .expression (spelled.mono (by omega)) semicolon
  | .behind first written, hle => by
    obtain ⟨fewer, rfl⟩ : ∃ fewer, more = fewer + 1 := ⟨more - 1, by omega⟩
    exact .behind first (written.mono hbody (by omega))

theorem WrittenBehind.mono {inBody other dangling : Bool} {levels more line : Nat}
    {first : TokenKind} {statement : Statement} {tokens : List Token}
    (hbody : inBody = true → other = true) :
    WrittenBehind inBody levels dangling first line statement tokens → levels ≤ more →
      WrittenBehind other more dangling first line statement tokens
  | .print spelled semicolon, hle => .print (spelled.mono hle) semicolon
  | .returnWith spelled semicolon, hle => by
    obtain rfl : other = true := hbody rfl
    exact .returnWith (spelled.mono hle) semicolon
  | .block listed closing, hle => .block (listed.mono hbody hle) closing
  | .ifThen opening spelled closing written, hle =>
    .ifThen opening (spelled.mono hle) closing (written.mono hbody hle)
  | .ifElse opening spelled closing writtenSuccess otherwise writtenFailure, hle =>
    .ifElse opening (spelled.mono hle) closing (writtenSuccess.mono hbody hle) otherwise
      (writtenFailure.mono hbody hle)
  | .whileLoop opening spelled closing written, hle =>
    .whileLoop opening (spelled.mono hle) closing (written.mono hbody hle)
  | .forLoop opening writtenInitial spelledCondition semicolon spelledIncrement closing written,
      hle =>
    .forLoop opening (writtenInitial.mono hle) (spelledCondition.mono hle) semicolon
      (spelledIncrement.mono hle) closing (written.mono hbody hle)

theorem FunctionWritten.mono {levels more : Nat} {statement : Statement} {tokens : List Token} :
    FunctionWritten levels statement tokens → levels ≤ more → FunctionWritten more statement tokens
  | .mk name opening separated few closing opened listed closed, hle => by
    obtain ⟨fewer, rfl⟩ : ∃ fewer, more = fewer + 1 := ⟨more - 1, by omega⟩
    exact .mk name opening separated few closing opened (listed.mono id (by omega)) closed

theorem Listed.mono {inBody other dangling : Bool} {levels more : Nat} {statement : Statement}
    {tokens : List Token} (hbody : inBody = true → other = true) :
    Listed inBody levels dangling statement tokens → levels ≤ more →
      Listed other more dangling statement tokens
  | .var keyword written, hle => .var keyword (written.mono hle)
  | .function keyword written, hle => .function keyword (written.mono hle)
  | .statement written, hle => .statement (written.mono hbody hle)

theorem AllListed.mono {inBody other : Bool} {levels more : Nat} {body : List Statement}
    {tokens : List Token} (hbody : inBody = true → other = true) :
    AllListed inBody levels body tokens → levels ≤ more → AllListed other more body tokens
  | .nil, _ => .nil
  | .cons listed listedRest, hle => .cons (listed.mono hbody hle) (listedRest.mono hbody hle)

end

/-! ### Derivations by the first token -/

variable {inBody dangling : Bool} {statement : Statement}

/-- A statement that does not begin as an expression is told by its first token. -/
theorem Written.behind_of_opensStatement {first : Token}
    (h : Written inBody levels dangling statement (first :: tokens))
    (hopens : first.kind.opensStatement = true) : ∃ fewer, levels = fewer + 1 ∧
      WrittenBehind inBody fewer dangling first.kind first.line statement tokens := by
  generalize hwhole : first :: tokens = whole at h
  cases h with
  | expression spelled semicolon =>
    obtain ⟨token, rest, rfl, hexpression⟩ := spelled.exists_first
    obtain ⟨rfl, -⟩ := List.cons.inj hwhole
    rw [TokenKind.opensStatement_of_opensExpression hexpression] at hopens
    cases hopens
  | @behind _ _ fewer _ _ token written =>
    obtain ⟨rfl, rfl⟩ := List.cons.inj hwhole
    exact ⟨fewer, rfl, written⟩

/-- An entry that does not begin with the word of a declaration is a statement. -/
theorem Listed.written_of_opens {first : Token}
    (h : Listed inBody levels dangling statement (first :: tokens))
    (hopens : (first.kind.opensExpression || first.kind.opensStatement) = true) :
    Written inBody levels dangling statement (first :: tokens) := by
  generalize hwhole : first :: tokens = whole at h
  cases h with
  | var keyword | function keyword =>
    obtain ⟨rfl, -⟩ := List.cons.inj hwhole
    rw [keyword.isKind] at hopens
    cases hopens
  | statement written => exact hwhole ▸ written

/-- An entry that begins as an expression has one level less for it, and a semicolon behind it. -/
theorem Listed.expression_of_opensExpression {first : Token}
    (h : Listed inBody levels dangling statement (first :: tokens))
    (hopens : first.kind.opensExpression = true) :
    ∃ (fewer : Nat) (value : Expression) (spelling : List Token) (semicolon : Mark .semicolon),
      levels = fewer + 1 ∧ statement = .expression value ∧ value.Spelled fewer spelling ∧
        first :: tokens = spelling ++ [semicolon.token] := by
  have hwritten := h.written_of_opens (by simp [hopens])
  generalize hwhole : first :: tokens = whole at hwritten
  cases hwritten with
  | @expression _ fewer value spelling spelled semicolon =>
    exact ⟨fewer, value, spelling, semicolon, rfl, rfl, spelled, rfl⟩
  | behind token written =>
    obtain ⟨rfl, -⟩ := List.cons.inj hwhole
    have hstatement := written.opensStatement
    rw [TokenKind.opensStatement_of_opensExpression hopens] at hstatement
    cases hstatement

/-- An entry that begins with `var` is what follows that word. -/
theorem Listed.varWritten_of_keyword {first : Token}
    (h : Listed inBody levels dangling statement (first :: tokens))
    (hkind : first.kind = .keyword .varWord) : VarWritten levels statement tokens := by
  generalize hwhole : first :: tokens = whole at h
  cases h with
  | var keyword written =>
    obtain ⟨-, rfl⟩ := List.cons.inj hwhole
    exact written
  | function keyword written =>
    obtain ⟨rfl, -⟩ := List.cons.inj hwhole
    rw [keyword.isKind] at hkind
    cases hkind
  | statement written =>
    obtain ⟨token, rest, rfl, hopens⟩ := written.exists_first
    obtain ⟨rfl, -⟩ := List.cons.inj hwhole
    rw [hkind] at hopens
    cases hopens

/-! ### Derivations by the statement -/

/-- No `for` loop comes out as an expression. -/
theorem loop_ne_expression (initial : Option Statement) (condition increment : Option Expression)
    (body : Statement) (value : Expression) :
    loop initial condition increment body ≠ .expression value := by
  cases initial <;> simp [loop]

/-- An entry that is an expression has one level less for it, and a semicolon behind it. -/
theorem Listed.exists_of_expression {value : Expression}
    (h : Listed inBody levels dangling (.expression value) tokens) :
    ∃ (fewer : Nat) (spelling : List Token) (semicolon : Mark .semicolon), levels = fewer + 1 ∧
      value.Spelled fewer spelling ∧ tokens = spelling ++ [semicolon.token] := by
  generalize hstatement : Statement.expression value = statement at h
  cases h with
  | var keyword written => cases written <;> cases hstatement
  | function keyword written => cases written; cases hstatement
  | statement written =>
    cases written with
    | @expression _ fewer _ spelling spelled semicolon =>
      cases hstatement
      exact ⟨fewer, spelling, semicolon, rfl, spelled, rfl⟩
    | behind first written =>
      generalize first.kind = kind at written
      cases written with
      | forLoop => exact absurd hstatement.symm (loop_ne_expression _ _ _ _ _)
      | _ => cases hstatement

end Statement

end Lox
