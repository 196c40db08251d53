import Lox.Proofs.Syntax.Ladder

/-!
# Phrases

A phrase is an expression as it stands in the tokens, each token in its place. Beside what a tree
can be it may have an `=` behind something that is no variable, and calls with more arguments than
are allowed: both are read on, and both leave an error behind. From a phrase follow its tokens, its
tree, the nodes and the errors that it leaves behind.

A `Legal` phrase has every token where the grammar wants it. The legal phrases without errors are
the trees in writing, which is what `Tree.Written` says of tokens.
-/

namespace Lox

/-- The operators that stand between two operands. -/
inductive Connective where
  | binary (operator : BinaryOperator)
  | logical (operator : LogicalOperator)

namespace Connective

def ofToken? : TokenKind → Option Connective
  | .keyword .orWord => some (.logical .or)
  | .keyword .andWord => some (.logical .and)
  | kind => (BinaryOperator.ofToken? kind).map .binary

def place : Connective → Nat
  | binary operator => operator.precedence.place
  | logical operator => operator.place

def node (left right line : Nat) : Connective → Node
  | binary operator => .binary operator left right line
  | logical operator => .logical operator left right

def tree (left right : Tree) (line : Nat) : Connective → Tree
  | binary operator => .binary operator left right line
  | logical operator => .logical operator left right

theorem place_le (connective : Connective) : connective.place ≤ 6 := by
  cases connective with
  | binary operator => cases operator <;> decide
  | logical operator => cases operator <;> decide

theorem place_pos (connective : Connective) : 0 < connective.place := by
  cases connective with
  | binary operator => cases operator <;> decide
  | logical operator => cases operator <;> decide

end Connective

/-- Pieces with a comma between any two. -/
inductive Separated : List (List Token) → List Token → Prop where
  | none : Separated [] []
  | last (piece : List Token) : Separated [piece] piece
  | more {next inside : List Token} {rest : List (List Token)} (piece : List Token)
      (comma : Mark .comma) (separated : Separated (next :: rest) inside) :
    Separated (piece :: next :: rest) (piece ++ comma.token :: inside)

theorem Separated.eq_nil {inside : List Token} (h : Separated [] inside) : inside = [] := by
  cases h
  rfl

theorem Separated.eq_piece {piece inside : List Token} (h : Separated [piece] inside) :
    inside = piece := by
  cases h
  rfl

theorem Separated.exists_comma {piece next inside : List Token} {rest : List (List Token)}
    (h : Separated (piece :: next :: rest) inside) : ∃ (comma : Mark .comma) (others : List Token),
      Separated (next :: rest) others ∧ inside = piece ++ comma.token :: others := by
  cases h with
  | more _ comma hothers => exact ⟨comma, _, hothers, rfl⟩

theorem Separated.exists_append {piece inside : List Token} {rest : List (List Token)}
    (h : Separated (piece :: rest) inside) : ∃ others, inside = piece ++ others := by
  cases h with
  | last => exact ⟨[], (List.append_nil _).symm⟩
  | more => exact ⟨_, rfl⟩

inductive Phrase where
  | literal (token : Token) (value : Literal) (reads : Literal.ofToken? token = some value)
  | var (name : Mark .identifier)
  | group (opening : Mark .leftParen) (inner : Phrase) (closing : Mark .rightParen)
  | unary (sign : Token) (operator : UnaryOperator)
      (reads : UnaryOperator.ofToken? sign.kind = some operator) (operand : Phrase)
  | infixed (left : Phrase) (sign : Token) (connective : Connective)
      (reads : Connective.ofToken? sign.kind = some connective) (right : Phrase)
  | assign (target : Mark .identifier) (equals : Mark .equal) (value : Phrase)
  /-- An `=` behind something that is no variable, and the value that is read and dropped. -/
  | stray (target : Phrase) (equals : Mark .equal) (value : Phrase)
  /-- The tokens between the parentheses are the arguments with commas between them. -/
  | call (callee : Phrase) (opening : Mark .leftParen) (arguments : List Phrase)
      (inside : List Token) (closing : Mark .rightParen)

namespace Phrase

def tokens : Phrase → List Token
  | literal token _ _ => [token]
  | var name => [name.token]
  | group opening inner closing => opening.token :: inner.tokens ++ [closing.token]
  | unary sign _ _ operand => sign :: operand.tokens
  | infixed left sign _ _ right => left.tokens ++ sign :: right.tokens
  | assign target equals value => target.token :: equals.token :: value.tokens
  | stray target equals value => target.tokens ++ equals.token :: value.tokens
  | call callee opening _ inside closing =>
    callee.tokens ++ opening.token :: inside ++ [closing.token]

/-- The token that a phrase begins with. -/
def first : Phrase → Token
  | literal token _ _ => token
  | var name => name.token
  | group opening _ _ => opening.token
  | unary sign _ _ _ => sign
  | infixed left _ _ _ _ => left.first
  | assign target _ _ => target.token
  | stray target _ _ => target.first
  | call callee _ _ _ _ => callee.first

mutual

/-- The tree that a phrase stands for. A stray value has no part in it. -/
def tree : Phrase → Tree
  | literal _ value _ => .literal value
  | var name => .var (.ofToken name.token)
  | group _ inner _ => .group inner.tree
  | unary sign operator _ operand => .unary operator operand.tree sign.line
  | infixed left sign connective _ right => connective.tree left.tree right.tree sign.line
  | assign target _ value => .assign (.ofToken target.token) value.tree
  | stray target _ _ => target.tree
  | call callee _ arguments _ closing => .call callee.tree (trees arguments) closing.token.line

def trees : List Phrase → List Tree
  | [] => []
  | phrase :: rest => phrase.tree :: trees rest

end

def place : Phrase → Nat
  | assign .. | stray .. => 0
  | infixed _ _ connective _ _ => connective.place
  | unary .. => 7
  | call .. => 8
  | literal .. | var _ | group .. => 9

def isVar : Phrase → Bool
  | var _ => true
  | _ => false

def pieces (phrases : List Phrase) : List (List Token) := phrases.map tokens

mutual

/-- Every part holds together tightly enough for its place, and every comma is in its place. -/
def Ordered : Phrase → Prop
  | literal .. | var _ => True
  | group _ inner _ => inner.Ordered
  | unary _ _ _ operand => 7 ≤ operand.place ∧ operand.Ordered
  | infixed left _ connective _ right =>
    connective.place ≤ left.place ∧ connective.place < right.place ∧ left.Ordered ∧ right.Ordered
  | assign _ _ value => value.Ordered
  | stray target _ value =>
    0 < target.place ∧ target.isVar = false ∧ target.Ordered ∧ value.Ordered
  | call callee _ arguments inside _ =>
    8 ≤ callee.place ∧ callee.Ordered ∧ Separated (pieces arguments) inside ∧ AllOrdered arguments

def AllOrdered : List Phrase → Prop
  | [] => True
  | phrase :: rest => phrase.Ordered ∧ AllOrdered rest

end

mutual

/-- The levels that are open at the deepest point, the one of the whole phrase aside. -/
def depth : Phrase → Nat
  | literal .. | var _ => 0
  | group _ inner _ => inner.depth + 1
  | unary _ _ _ operand => operand.depth + 1
  | infixed left _ _ _ right => max left.depth right.depth
  | assign _ _ value => value.depth + 1
  | stray target _ value => max target.depth (value.depth + 1)
  | call callee _ arguments _ _ => max callee.depth (argumentDepth arguments)

def argumentDepth : List Phrase → Nat
  | [] => 0
  | argument :: rest => max (argument.depth + 1) (argumentDepth rest)

end

/-- The error for an argument behind so many others, if it is one too many. -/
def excess (earlier : Nat) (argument : Phrase) : List SyntaxError :=
  if maxArity ≤ earlier then [⟨.tooManyArguments, argument.first⟩] else []

mutual

/-- The errors that are left behind, in the order of reading. -/
def errors : Phrase → List SyntaxError
  | literal .. | var _ => []
  | group _ inner _ => inner.errors
  | unary _ _ _ operand => operand.errors
  | infixed left _ _ _ right => left.errors ++ right.errors
  | assign _ _ value => value.errors
  | stray target equals value =>
    target.errors ++ value.errors ++ [⟨.notAssignable, equals.token⟩]
  | call callee _ arguments _ _ => callee.errors ++ argumentErrors 0 arguments

/-- The errors of arguments behind so many others. -/
def argumentErrors (earlier : Nat) : List Phrase → List SyntaxError
  | [] => []
  | argument :: rest =>
    excess earlier argument ++ argument.errors ++ argumentErrors (earlier + 1) rest

end

mutual

/-- The table with the nodes of a phrase behind those that are there, and the root of the phrase.
The nodes of a stray value are kept, though nothing refers to them. -/
def lay (nodes : Array Node) : Phrase → Expression
  | literal _ value _ => .push nodes (.literal value)
  | var name => .push nodes (.var (.ofToken name.token))
  | group _ inner _ =>
    let ⟨nodes, index⟩ := inner.lay nodes
    .push nodes (.group index)
  | unary sign operator _ operand =>
    let ⟨nodes, index⟩ := operand.lay nodes
    .push nodes (.unary operator index sign.line)
  | infixed left sign connective _ right =>
    let ⟨nodes, first⟩ := left.lay nodes
    let ⟨nodes, second⟩ := right.lay nodes
    .push nodes (connective.node first second sign.line)
  | assign target _ value =>
    let ⟨nodes, index⟩ := value.lay (nodes.push (.var (.ofToken target.token)))
    .push nodes (.assign (.ofToken target.token) index)
  | stray target _ value =>
    let ⟨nodes, index⟩ := target.lay nodes
    ⟨(value.lay nodes).nodes, index⟩
  | call callee _ arguments _ closing =>
    let ⟨nodes, index⟩ := callee.lay nodes
    let ⟨nodes, indices⟩ := layAll nodes arguments
    .push nodes (.call index indices closing.token.line)

/-- The table with the nodes of several phrases, and their roots. -/
def layAll (nodes : Array Node) : List Phrase → Array Node × List Nat
  | [] => (nodes, [])
  | phrase :: rest =>
    let ⟨nodes, index⟩ := phrase.lay nodes
    let ⟨nodes, indices⟩ := layAll nodes rest
    (nodes, index :: indices)

end

def expression (phrase : Phrase) : Expression := phrase.lay #[]

/-- A phrase that may stand where a place on the ladder is asked for and so many levels are free. -/
structure Legal (place levels : Nat) (phrase : Phrase) : Prop where
  ordered : phrase.Ordered
  place_le : place ≤ phrase.place
  depth_lt : phrase.depth < levels

/-- Several phrases that may be arguments where so many levels are free. -/
structure AllLegal (levels : Nat) (phrases : List Phrase) : Prop where
  ordered : AllOrdered phrases
  depth_le : argumentDepth phrases ≤ levels

theorem Legal.loosen {place looser levels : Nat} {phrase : Phrase} (h : phrase.Legal place levels)
    (hle : looser ≤ place) : phrase.Legal looser levels :=
  { h with place_le := Nat.le_trans hle h.place_le }

theorem AllLegal.cons {levels : Nat} {phrase : Phrase} {rest : List Phrase}
    (h : phrase.Legal 0 levels) (hrest : AllLegal levels rest) : AllLegal levels (phrase :: rest) where
  ordered := ⟨h.ordered, hrest.ordered⟩
  depth_le := Nat.max_le.2 ⟨h.depth_lt, hrest.depth_le⟩

theorem AllLegal.head {levels : Nat} {phrase : Phrase} {rest : List Phrase}
    (h : AllLegal levels (phrase :: rest)) : phrase.Legal 0 levels :=
  ⟨h.ordered.1, Nat.zero_le _, (Nat.max_le.1 h.depth_le).1⟩

theorem AllLegal.tail {levels : Nat} {phrase : Phrase} {rest : List Phrase}
    (h : AllLegal levels (phrase :: rest)) : AllLegal levels rest :=
  ⟨h.ordered.2, (Nat.max_le.1 h.depth_le).2⟩

theorem AllLegal.nil (levels : Nat) : AllLegal levels [] := ⟨trivial, Nat.zero_le _⟩

theorem tokens_eq_first_cons : (phrase : Phrase) → ∃ tail, phrase.tokens = phrase.first :: tail
  | literal token _ _ => ⟨[], rfl⟩
  | var name => ⟨[], rfl⟩
  | group opening inner closing => ⟨inner.tokens ++ [closing.token], rfl⟩
  | unary _ _ _ operand => ⟨operand.tokens, rfl⟩
  | assign _ equals value => ⟨equals.token :: value.tokens, rfl⟩
  | infixed left sign _ _ right =>
    have ⟨tail, h⟩ := tokens_eq_first_cons left
    ⟨tail ++ sign :: right.tokens, by rw [tokens, h]; rfl⟩
  | stray target equals value =>
    have ⟨tail, h⟩ := tokens_eq_first_cons target
    ⟨tail ++ equals.token :: value.tokens, by rw [tokens, h]; rfl⟩
  | call callee opening _ inside closing =>
    have ⟨tail, h⟩ := tokens_eq_first_cons callee
    ⟨tail ++ opening.token :: inside ++ [closing.token], by rw [tokens, h]; rfl⟩

end Phrase

/-! ### First tokens -/

/-- The tokens that an expression may begin with. -/
def TokenKind.opensExpression : TokenKind → Bool
  | .keyword .falseWord | .keyword .trueWord | .keyword .nilWord => true
  | .number | .string | .identifier | .leftParen | .bang | .minus => true
  | _ => false

namespace Phrase

theorem opensExpression_first : (phrase : Phrase) → phrase.first.kind.opensExpression = true
  | literal token value reads => by
    unfold Literal.ofToken? at reads
    split at reads <;> simp_all [first, TokenKind.opensExpression]
  | var name => by simp [first, name.isKind, TokenKind.opensExpression]
  | group opening _ _ => by simp [first, opening.isKind, TokenKind.opensExpression]
  | unary sign operator reads _ => by
    unfold UnaryOperator.ofToken? at reads
    split at reads <;> simp_all [first, TokenKind.opensExpression]
  | assign target _ _ => by simp [first, target.isKind, TokenKind.opensExpression]
  | infixed left _ _ _ _ => opensExpression_first left
  | stray target _ _ => opensExpression_first target
  | call callee _ _ _ _ => opensExpression_first callee

/-- What is no operation of an operator does not begin with one either. -/
theorem ofToken?_first : (phrase : Phrase) → phrase.Ordered → 8 ≤ phrase.place →
    UnaryOperator.ofToken? phrase.first.kind = none
  | literal token value reads, _, _ => by
    unfold Literal.ofToken? at reads
    split at reads <;> simp_all [first, UnaryOperator.ofToken?]
  | var name, _, _ => by simp [first, name.isKind, UnaryOperator.ofToken?]
  | group opening _ _, _, _ => by simp [first, opening.isKind, UnaryOperator.ofToken?]
  | call callee _ _ _ _, ⟨hplace, hcallee, _, _⟩, _ => ofToken?_first callee hcallee hplace
  | unary .., _, hplace | assign .., _, hplace | stray .., _, hplace =>
    absurd hplace (by simp [place])
  | infixed _ _ connective _ _, _, hplace =>
    absurd (Nat.le_trans hplace connective.place_le) (by decide)

end Phrase

end Lox
