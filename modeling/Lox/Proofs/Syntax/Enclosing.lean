import Lox.Syntax.Statement

/-!
# What encloses a statement

Blocks and function bodies are what names are bound for, and what stands in a program stands within
some of them. `Occurs` says where: a place in a program is given by the blocks and bodies around it,
innermost first, and by what stands there. Branches, loop bodies and expressions stand within the
same ones as the statement that they are part of.
-/

namespace Lox

/-- A block or the body of a function, with the parameters of the function. -/
structure Frame where
  parameters : List Identifier := []
  entries : List Statement

/-- What is run in a scope: a statement, or a node of an expression. -/
inductive Subject where
  | statement (statement : Statement)
  | node (nodes : Array Node) (index : Nat)

namespace Statement

/-- The name that the statement binds where it stands. -/
def declared? : Statement → Option String
  | varDecl name _ | funDecl name _ _ => some name.name
  | _ => none

/-- The names that are declared directly in a list of entries. -/
def declaredNames (entries : List Statement) : List String :=
  entries.filterMap declared?

/-- The statements that stand in the place of a part of the statement. -/
def branches : Statement → List Statement
  | ifThen _ success => [success]
  | ifElse _ success failure => [success, failure]
  | whileLoop _ body => [body]
  | _ => []

/-- The expressions of the statement itself. -/
def ownExpressions : Statement → List Expression
  | varDecl _ initial => initial.toList
  | expression value | print value => [value]
  | ifThen condition _ | ifElse condition _ _ | whileLoop condition _ => [condition]
  | returnWith value _ => value.toList
  | funDecl .. | block _ => []

theorem declared?_eq_none {statement : Statement} (h : statement.isDeclaration = false) :
    statement.declared? = none := by
  cases statement with
  | varDecl | funDecl => cases h
  | _ => rfl

theorem mem_declaredNames {entries : List Statement} {statement : Statement} {name : String}
    (hmem : statement ∈ entries) (hname : statement.declared? = some name) :
    name ∈ declaredNames entries :=
  List.mem_filterMap.2 ⟨statement, hmem, hname⟩

end Statement

/-- The names that are bound for the frame: its parameters, and what is declared directly in it. -/
def Frame.names (frame : Frame) : List String :=
  frame.parameters.map Identifier.name ++ Statement.declaredNames frame.entries

/-- Somewhere in the program, within these frames, stands the subject. -/
inductive Occurs (program : List Statement) : List Frame → Subject → Prop where
  | entry {statement : Statement} (mem : statement ∈ program) :
    Occurs program [] (.statement statement)
  | inBlock {around : List Frame} {body : List Statement} {statement : Statement}
      (outside : Occurs program around (.statement (.block body))) (mem : statement ∈ body) :
    Occurs program ({ entries := body } :: around) (.statement statement)
  | inFunction {around : List Frame} {name : Identifier} {parameters : List Identifier}
      {body : List Statement} {statement : Statement}
      (outside : Occurs program around (.statement (.funDecl name parameters body)))
      (mem : statement ∈ body) :
    Occurs program (⟨parameters, body⟩ :: around) (.statement statement)
  | branch {around : List Frame} {statement inner : Statement}
      (outside : Occurs program around (.statement statement)) (mem : inner ∈ statement.branches) :
    Occurs program around (.statement inner)
  | expression {around : List Frame} {statement : Statement} {expression : Expression}
      (outside : Occurs program around (.statement statement))
      (mem : expression ∈ statement.ownExpressions) :
    Occurs program around (.node expression.nodes expression.root)
  | operand {around : List Frame} {nodes : Array Node} {index operand : Nat} {node : Node}
      (outside : Occurs program around (.node nodes index)) (found : nodes[index]? = some node)
      (mem : operand ∈ node.operands) : Occurs program around (.node nodes operand)

/-! ### Where declarations stand -/

/-- No branch and no loop body in the statement is a declaration. -/
inductive Statement.Orderly : Statement → Prop where
  | varDecl {name : Identifier} {initial : Option Expression} : Orderly (.varDecl name initial)
  | funDecl {name : Identifier} {parameters : List Identifier} {body : List Statement}
      (orderly : ∀ statement ∈ body, Orderly statement) : Orderly (.funDecl name parameters body)
  | expression {value : Expression} : Orderly (.expression value)
  | print {value : Expression} : Orderly (.print value)
  | block {body : List Statement} (orderly : ∀ statement ∈ body, Orderly statement) :
    Orderly (.block body)
  | ifThen {condition : Expression} {success : Statement} (plain : success.isDeclaration = false)
      (orderly : Orderly success) : Orderly (.ifThen condition success)
  | ifElse {condition : Expression} {success failure : Statement}
      (plainSuccess : success.isDeclaration = false) (orderlySuccess : Orderly success)
      (plainFailure : failure.isDeclaration = false) (orderlyFailure : Orderly failure) :
    Orderly (.ifElse condition success failure)
  | whileLoop {condition : Expression} {body : Statement} (plain : body.isDeclaration = false)
      (orderly : Orderly body) : Orderly (.whileLoop condition body)
  | returnWith {value : Option Expression} {line : Nat} : Orderly (.returnWith value line)

theorem Statement.Orderly.of_mem_branches {statement inner : Statement} (h : statement.Orderly)
    (hmem : inner ∈ statement.branches) : inner.isDeclaration = false ∧ inner.Orderly := by
  cases h with
  | ifThen plain orderly | whileLoop plain orderly =>
    obtain rfl := List.mem_singleton.1 hmem
    exact ⟨plain, orderly⟩
  | ifElse plainSuccess orderlySuccess plainFailure orderlyFailure =>
    rcases List.mem_cons.1 hmem with rfl | hmem
    · exact ⟨plainSuccess, orderlySuccess⟩
    · obtain rfl := List.mem_singleton.1 hmem
      exact ⟨plainFailure, orderlyFailure⟩
  | _ => cases hmem

theorem Occurs.orderly {program : List Statement} {around : List Frame} {subject : Subject}
    (h : Occurs program around subject) (hprogram : ∀ statement ∈ program, statement.Orderly) :
    ∀ {statement : Statement}, subject = .statement statement → statement.Orderly := by
  induction h with
  | entry mem =>
    rintro statement ⟨⟩
    exact hprogram _ mem
  | inBlock _ mem ih =>
    rintro statement ⟨⟩
    cases ih rfl with
    | block orderly => exact orderly _ mem
  | inFunction _ mem ih =>
    rintro statement ⟨⟩
    cases ih rfl with
    | funDecl orderly => exact orderly _ mem
  | branch _ mem ih =>
    rintro statement ⟨⟩
    exact ((ih rfl).of_mem_branches mem).2
  | expression => rintro statement ⟨⟩
  | operand => rintro statement ⟨⟩

end Lox
