import Lox.Grammar.Error
import Lox.Syntax.Statement

/-!
# Programs with other lines

Tokens know their places, and of these the lines reach the nodes and the statements. Here the lines
in each of them are changed by a function. `Relabelling` says that tokens differ in their places
only, and that their lines differ by such a function.
-/

namespace Lox

variable (line : Nat → Nat)

def Identifier.mapLines (identifier : Identifier) : Identifier :=
  { identifier with line := line identifier.line }

def Node.mapLines : Node → Node
  | .literal value => .literal value
  | .var name => .var (name.mapLines line)
  | .group inner => .group inner
  | .unary operator operand place => .unary operator operand (line place)
  | .binary operator left right place => .binary operator left right (line place)
  | .logical operator left right => .logical operator left right
  | .assign name value => .assign (name.mapLines line) value
  | .call callee arguments place => .call callee arguments (line place)

def Expression.mapLines (expression : Expression) : Expression :=
  ⟨expression.nodes.map (·.mapLines line), expression.root⟩

namespace Statement

mutual

def mapLines : Statement → Statement
  | varDecl name initial => varDecl (name.mapLines line) (initial.map (·.mapLines line))
  | funDecl name parameters body =>
    funDecl (name.mapLines line) (parameters.map (·.mapLines line)) (mapAllLines body)
  | expression value => expression (value.mapLines line)
  | print value => print (value.mapLines line)
  | block body => block (mapAllLines body)
  | ifThen condition success => ifThen (condition.mapLines line) success.mapLines
  | ifElse condition success failure =>
    ifElse (condition.mapLines line) success.mapLines failure.mapLines
  | whileLoop condition body => whileLoop (condition.mapLines line) body.mapLines
  | returnWith value place => returnWith (value.map (·.mapLines line)) (line place)

def mapAllLines : List Statement → List Statement
  | [] => []
  | statement :: rest => statement.mapLines :: mapAllLines rest

end

theorem mapAllLines_eq_map (statements : List Statement) :
    mapAllLines line statements = statements.map (mapLines line) := by
  induction statements with
  | nil => rfl
  | cons statement rest ih => rw [mapAllLines, ih, List.map_cons]

end Statement

/-! ### Lines that stay -/

theorem Identifier.mapLines_id (identifier : Identifier) : identifier.mapLines id = identifier := rfl

theorem Node.mapLines_id (node : Node) : node.mapLines id = node := by
  cases node <;> rfl

theorem Expression.mapLines_id (expression : Expression) : expression.mapLines id = expression := by
  have hnodes : expression.nodes.map (·.mapLines id) = expression.nodes := by
    simp [Node.mapLines_id]
  rw [mapLines, hnodes]

namespace Statement

mutual

theorem mapLines_id : (statement : Statement) → statement.mapLines id = statement
  | varDecl name initial => by
    simp [mapLines, Identifier.mapLines_id, Expression.mapLines_id]
  | funDecl name parameters body => by
    simp [mapLines, Identifier.mapLines_id, mapAllLines_id body]
  | expression value | print value => by simp [mapLines, Expression.mapLines_id]
  | block body => by simp [mapLines, mapAllLines_id body]
  | ifThen condition success => by simp [mapLines, Expression.mapLines_id, mapLines_id success]
  | ifElse condition success failure => by
    simp [mapLines, Expression.mapLines_id, mapLines_id success, mapLines_id failure]
  | whileLoop condition body => by simp [mapLines, Expression.mapLines_id, mapLines_id body]
  | returnWith value place => by simp [mapLines, Expression.mapLines_id]

theorem mapAllLines_id : (statements : List Statement) → mapAllLines id statements = statements
  | [] => rfl
  | statement :: rest => by rw [mapAllLines, mapLines_id statement, mapAllLines_id rest]

end

end Statement

/-- Tokens in other places, on lines that are given by their lines before. -/
structure Relabelling where
  token : Token → Token
  line : Nat → Nat
  kind_token (original : Token) : (token original).kind = original.kind
  lexeme_token (original : Token) : (token original).lexeme = original.lexeme
  value_token (original : Token) : (token original).value = original.value
  line_token (original : Token) : (token original).line = line original.line

namespace Relabelling

attribute [simp] kind_token lexeme_token value_token line_token

/-- Every token stays where it is. -/
def unchanged : Relabelling where
  token := id
  line := id
  kind_token _ := rfl
  lexeme_token _ := rfl
  value_token _ := rfl
  line_token _ := rfl

variable (relabelling : Relabelling)

@[simp] theorem isEnd_token (original : Token) :
    (relabelling.token original).isEnd = original.isEnd := by
  simp [Token.isEnd]

@[simp] theorem ofToken_token (original : Token) :
    Identifier.ofToken (relabelling.token original) =
      (Identifier.ofToken original).mapLines relabelling.line := by
  simp [Identifier.ofToken, Identifier.mapLines]

end Relabelling

/-- The error at the token in its other place. -/
def SyntaxError.relabel (relabelling : Relabelling) (error : SyntaxError) : SyntaxError :=
  { error with token := relabelling.token error.token }

theorem SyntaxError.relabel_unchanged (error : SyntaxError) :
    error.relabel .unchanged = error := rfl

end Lox
