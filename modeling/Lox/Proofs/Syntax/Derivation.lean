import Lox.Proofs.Syntax.Spelling
import Lox.Syntax.Statement

/-!
# How programs are written

The grammar of statements, as relations between statements and the tokens that spell them. Nothing
here knows the parser.

A block and a program list declarations, which may be statements; branches and loop bodies are
statements only. An `if` without `else` is `dangling`: an `else` behind it would be its own, so
nothing that ends in one stands in front of an `else`. The relations count the levels that are free:
a statement and a function declaration take one each, and so does every expression. A `return`
stands only where a function body is open.
-/

namespace Lox

/-- The tokens are an expression that is kept as this table. -/
def Expression.Spelled (levels : Nat) (expression : Expression) (tokens : List Token) : Prop :=
  ∃ tree : Tree, tree.Spelled levels tokens ∧ expression = tree.expression

/-- The tokens are an expression, or there are none. -/
inductive OptionSpelled (levels : Nat) : Option Expression → List Token → Prop where
  | none : OptionSpelled levels none []
  | some {value : Expression} {tokens : List Token} (spelled : value.Spelled levels tokens) :
    OptionSpelled levels (some value) tokens

namespace Statement

/-- The tokens are what follows `var`. -/
inductive VarWritten (levels : Nat) : Statement → List Token → Prop where
  | bare (name : Mark .identifier) (semicolon : Mark .semicolon) :
    VarWritten levels (.varDecl (.ofToken name.token) none) [name.token, semicolon.token]
  | initialized {value : Expression} {tokens : List Token} (name : Mark .identifier)
      (equals : Mark .equal) (spelled : value.Spelled levels tokens)
      (semicolon : Mark .semicolon) :
    VarWritten levels (.varDecl (.ofToken name.token) (some value))
      (name.token :: equals.token :: (tokens ++ [semicolon.token]))

/-- The tokens are the first clause of a `for` loop with its semicolon. -/
inductive InitializerWritten (levels : Nat) : Option Statement → List Token → Prop where
  | none (semicolon : Mark .semicolon) : InitializerWritten levels none [semicolon.token]
  | var {statement : Statement} {tokens : List Token} (keyword : Mark (.keyword .varWord))
      (written : VarWritten levels statement tokens) :
    InitializerWritten levels (some statement) (keyword.token :: tokens)
  | expression {value : Expression} {tokens : List Token} (spelled : value.Spelled levels tokens)
      (semicolon : Mark .semicolon) :
    InitializerWritten levels (some (.expression value)) (tokens ++ [semicolon.token])

/-- What a `for` loop stands for: its increment runs behind its body, a missing condition holds,
and its initializer is seen by the loop alone. -/
def loop (initial : Option Statement) (condition increment : Option Expression)
    (body : Statement) : Statement :=
  let repeated := increment.elim body fun step => .block [body, .expression step]
  let whole := whileLoop (condition.getD (.ofLiteral (.bool true))) repeated
  initial.elim whole fun first => .block [first, whole]

mutual

/-- The tokens are a statement, where so many levels are free. -/
inductive Written : (inBody : Bool) → (levels : Nat) → (dangling : Bool) → Statement →
    List Token → Prop where
  | expression {inBody : Bool} {levels : Nat} {value : Expression} {tokens : List Token}
      (spelled : value.Spelled levels tokens) (semicolon : Mark .semicolon) :
    Written inBody (levels + 1) false (.expression value) (tokens ++ [semicolon.token])
  | behind {inBody dangling : Bool} {levels : Nat} {statement : Statement} {tokens : List Token}
      (first : Token)
      (written : WrittenBehind inBody levels dangling first.kind first.line statement tokens) :
    Written inBody (levels + 1) dangling statement (first :: tokens)

/-- The tokens are what follows the first token of a statement, which is of this kind and on this
line. -/
inductive WrittenBehind : (inBody : Bool) → (levels : Nat) → (dangling : Bool) →
    (first : TokenKind) → (line : Nat) → Statement → List Token → Prop where
  | print {inBody : Bool} {levels line : Nat} {value : Expression} {tokens : List Token}
      (spelled : value.Spelled levels tokens) (semicolon : Mark .semicolon) :
    WrittenBehind inBody levels false (.keyword .printWord) line (.print value)
      (tokens ++ [semicolon.token])
  | returnWith {levels line : Nat} {value : Option Expression} {tokens : List Token}
      (spelled : OptionSpelled levels value tokens) (semicolon : Mark .semicolon) :
    WrittenBehind true levels false (.keyword .returnWord) line (.returnWith value line)
      (tokens ++ [semicolon.token])
  | block {inBody : Bool} {levels line : Nat} {body : List Statement} {tokens : List Token}
      (listed : AllListed inBody levels body tokens) (closing : Mark .rightBrace) :
    WrittenBehind inBody levels false .leftBrace line (.block body) (tokens ++ [closing.token])
  | ifThen {inBody dangling : Bool} {levels line : Nat} {condition : Expression}
      {success : Statement} {test tokens : List Token} (opening : Mark .leftParen)
      (spelled : condition.Spelled levels test) (closing : Mark .rightParen)
      (written : Written inBody levels dangling success tokens) :
    WrittenBehind inBody levels true (.keyword .ifWord) line (.ifThen condition success)
      (opening.token :: (test ++ closing.token :: tokens))
  | ifElse {inBody dangling : Bool} {levels line : Nat} {condition : Expression}
      {success failure : Statement} {test first second : List Token} (opening : Mark .leftParen)
      (spelled : condition.Spelled levels test) (closing : Mark .rightParen)
      (writtenSuccess : Written inBody levels false success first)
      (otherwise : Mark (.keyword .elseWord))
      (writtenFailure : Written inBody levels dangling failure second) :
    WrittenBehind inBody levels dangling (.keyword .ifWord) line
      (.ifElse condition success failure)
      (opening.token :: (test ++ closing.token :: (first ++ otherwise.token :: second)))
  | whileLoop {inBody dangling : Bool} {levels line : Nat} {condition : Expression}
      {body : Statement} {test tokens : List Token} (opening : Mark .leftParen)
      (spelled : condition.Spelled levels test) (closing : Mark .rightParen)
      (written : Written inBody levels dangling body tokens) :
    WrittenBehind inBody levels dangling (.keyword .whileWord) line (.whileLoop condition body)
      (opening.token :: (test ++ closing.token :: tokens))
  | forLoop {inBody dangling : Bool} {levels line : Nat} {initial : Option Statement}
      {condition increment : Option Expression} {body : Statement}
      {first second third tokens : List Token} (opening : Mark .leftParen)
      (writtenInitial : InitializerWritten levels initial first)
      (spelledCondition : OptionSpelled levels condition second) (semicolon : Mark .semicolon)
      (spelledIncrement : OptionSpelled levels increment third) (closing : Mark .rightParen)
      (written : Written inBody levels dangling body tokens) :
    WrittenBehind inBody levels dangling (.keyword .forWord) line
      (loop initial condition increment body)
      (opening.token ::
        (first ++ (second ++ semicolon.token :: (third ++ closing.token :: tokens))))

/-- The tokens are what follows `fun`, where so many levels are free. -/
inductive FunctionWritten : (levels : Nat) → Statement → List Token → Prop where
  | mk {levels : Nat} {parameters : List (Mark .identifier)} {inside tokens : List Token}
      {body : List Statement} (name : Mark .identifier) (opening : Mark .leftParen)
      (separated : Separated (parameters.map ([·.token])) inside)
      (few : parameters.length ≤ maxArity) (closing : Mark .rightParen)
      (opened : Mark .leftBrace) (listed : AllListed true levels body tokens)
      (closed : Mark .rightBrace) :
    FunctionWritten (levels + 1)
      (.funDecl (.ofToken name.token) (parameters.map (.ofToken ·.token)) body)
      (name.token :: opening.token ::
        (inside ++ closing.token :: opened.token :: (tokens ++ [closed.token])))

/-- The tokens are an entry of a block or a program, where so many levels are free. -/
inductive Listed : (inBody : Bool) → (levels : Nat) → (dangling : Bool) → Statement →
    List Token → Prop where
  | var {inBody : Bool} {levels : Nat} {statement : Statement} {tokens : List Token}
      (keyword : Mark (.keyword .varWord)) (written : VarWritten levels statement tokens) :
    Listed inBody levels false statement (keyword.token :: tokens)
  | function {inBody : Bool} {levels : Nat} {statement : Statement} {tokens : List Token}
      (keyword : Mark (.keyword .funWord)) (written : FunctionWritten levels statement tokens) :
    Listed inBody levels false statement (keyword.token :: tokens)
  | statement {inBody dangling : Bool} {levels : Nat} {statement : Statement}
      {tokens : List Token} (written : Written inBody levels dangling statement tokens) :
    Listed inBody levels dangling statement tokens

/-- The tokens are the entries of a block or a program one behind the other. -/
inductive AllListed : (inBody : Bool) → (levels : Nat) → List Statement → List Token → Prop where
  | nil {inBody : Bool} {levels : Nat} : AllListed inBody levels [] []
  | cons {inBody dangling : Bool} {levels : Nat} {statement : Statement} {rest : List Statement}
      {tokens others : List Token} (listed : Listed inBody levels dangling statement tokens)
      (listedRest : AllListed inBody levels rest others) :
    AllListed inBody levels (statement :: rest) (tokens ++ others)

end

end Statement

/-! ### First tokens -/

/-- The tokens that a statement other than an expression begins with. -/
def TokenKind.opensStatement : TokenKind → Bool
  | .keyword .forWord | .keyword .ifWord | .keyword .printWord | .keyword .returnWord
  | .keyword .whileWord | .leftBrace => true
  | _ => false

theorem TokenKind.opensStatement_of_opensExpression {kind : TokenKind}
    (h : kind.opensExpression = true) : kind.opensStatement = false := by
  unfold TokenKind.opensExpression at h
  split at h <;> first | rfl | cases h

/-- The tokens that an entry of a block or a program begins with. -/
def TokenKind.opensEntry (kind : TokenKind) : Bool :=
  kind.opensExpression || kind.opensStatement ||
    kind = .keyword .varWord || kind = .keyword .funWord

theorem TokenKind.ne_of_opensEntry {kind other : TokenKind} (h : kind.opensEntry = true)
    (hother : other.opensEntry = false) : kind ≠ other := by
  rintro rfl
  rw [h] at hother
  cases hother

theorem Expression.Spelled.exists_first {levels : Nat} {expression : Expression}
    {tokens : List Token} (h : expression.Spelled levels tokens) :
    ∃ token rest, tokens = token :: rest ∧ token.kind.opensExpression = true := by
  obtain ⟨tree, hspelled, -⟩ := h
  obtain ⟨phrase, -, -, rfl, -⟩ := Tree.spelled_iff.1 hspelled
  obtain ⟨rest, hrest⟩ := phrase.tokens_eq_first_cons
  exact ⟨phrase.first, rest, hrest, phrase.opensExpression_first⟩

theorem Expression.Spelled.headD_ne {levels : Nat} {expression : Expression} {tokens : List Token}
    (h : expression.Spelled levels tokens) {kind : TokenKind} (hkind : kind.opensExpression = false)
    (others : List Token) (ahead : Token) : ((tokens ++ others).headD ahead).kind ≠ kind := by
  obtain ⟨token, rest, rfl, hopens⟩ := h.exists_first
  rintro rfl
  rw [List.cons_append, List.headD_cons, hopens] at hkind
  cases hkind

namespace Statement

variable {inBody dangling : Bool} {levels : Nat} {statement : Statement} {tokens : List Token}

theorem WrittenBehind.opensStatement {first : TokenKind} {line : Nat}
    (h : WrittenBehind inBody levels dangling first line statement tokens) :
    first.opensStatement = true := by
  cases h <;> rfl

theorem Written.exists_first (h : Written inBody levels dangling statement tokens) :
    ∃ token rest, tokens = token :: rest ∧
      (token.kind.opensExpression || token.kind.opensStatement) = true := by
  cases h with
  | expression spelled semicolon =>
    obtain ⟨token, rest, rfl, hopens⟩ := spelled.exists_first
    exact ⟨token, rest ++ [semicolon.token], rfl, by simp [hopens]⟩
  | behind first written => exact ⟨first, _, rfl, by simp [written.opensStatement]⟩

theorem Listed.exists_first (h : Listed inBody levels dangling statement tokens) :
    ∃ token rest, tokens = token :: rest ∧ token.kind.opensEntry = true := by
  cases h with
  | var keyword | function keyword =>
    exact ⟨keyword.token, _, rfl, by simp [keyword.isKind, TokenKind.opensEntry]⟩
  | statement written =>
    obtain ⟨token, rest, rfl, hopens⟩ := written.exists_first
    exact ⟨token, rest, rfl, by simp [TokenKind.opensEntry, hopens]⟩

theorem AllListed.headD_ne {body : List Statement} (h : AllListed inBody levels body tokens)
    {kind : TokenKind} (hkind : kind.opensEntry = false) {others : List Token} {ahead : Token}
    (hothers : (others.headD ahead).kind ≠ kind) : ((tokens ++ others).headD ahead).kind ≠ kind := by
  cases h with
  | nil => exact hothers
  | cons listed _ =>
    obtain ⟨token, rest, rfl, hopens⟩ := listed.exists_first
    exact TokenKind.ne_of_opensEntry hopens hkind

end Statement

end Lox
