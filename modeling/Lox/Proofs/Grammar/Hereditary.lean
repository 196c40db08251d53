import Lox.Proofs.Grammar.Run

/-!
# Properties of all rules

Every rule of the grammar is put together from a few steps and a few combinators. A property that
the steps have and the combinators hand on is a property of every rule, whatever is written in the
rule itself: `Hereditary.declaration` says so once for all of them.

The rules for expressions also add nodes, and one of them, `primary`, may miss the value of a
literal, which is why it counts as a combinator here. What is said of the table of nodes may hold of
whole expressions only, and then it is shown for these in another way.
-/

namespace Lox

/-- Whether the error abandons the declaration at hand. The others are recorded and parsing goes
on. -/
def SyntaxError.Cause.abandons : SyntaxError.Cause → Bool
  | unexpected .. | notExpression | tooDeep => true
  | notAssignable | tooManyParameters | tooManyArguments | returnOutsideFunction => false

namespace Grammar

variable {α β : Type}

/-- The property holds of the steps that all rules take, and of what is put together from rules that
have it. -/
structure Hereditary (good : ∀ {α : Type}, Rule α → Prop) : Prop where
  pure : ∀ {α : Type} (value : α), good (pure value : Rule α)
  get : good (get : Rule State)
  advance : good advance
  reject : ∀ {α : Type} {cause : SyntaxError.Cause}, cause.abandons = true →
    good (reject cause : Rule α)
  report : ∀ (cause : SyntaxError.Cause) (token : Token), good (report cause token)
  bind : ∀ {α β : Type} {rule : Rule α} {next : α → Rule β}, good rule →
    (∀ value, good (next value)) → good (rule >>= next)
  nested : ∀ {α : Type} {rule : Rule α}, good rule → good (nested rule)
  inFunction : ∀ {α : Type} {rule : Rule α}, good rule → good (inFunction rule)
  recovering : ∀ {α : Type} {rule : Rule α}, good rule → good (recovering rule)

/-- The property also holds of what only the rules for expressions are made of. -/
structure HereditaryToNodes (good : ∀ {α : Type}, Rule α → Prop) : Prop
    extends Hereditary good where
  addNode : ∀ node : Node, good (addNode node)
  primary : ∀ {inner : Rule Nat}, good inner → good (primary inner)
  building : ∀ {rule : Rule Nat}, good rule → good (building rule)

theorem map_eq_bind (f : α → β) (rule : Rule α) :
    f <$> rule = rule >>= fun value => pure (f value) := by
  funext state
  rw [map_apply, bind_apply]
  rfl

namespace Hereditary

variable {good : ∀ {α : Type}, Rule α → Prop} (h : Hereditary good)
include h

/-! ### Steps -/

omit h in
theorem ite {condition : Prop} [Decidable condition] {first second : Rule α} (hfirst : good first)
    (hsecond : good second) : good (if condition then first else second) := by
  split
  · exact hfirst
  · exact hsecond

theorem map {rule : Rule α} (hrule : good rule) (f : α → β) : good (f <$> rule) :=
  map_eq_bind f rule ▸ h.bind hrule fun _ => h.pure _

theorem peek : good peek :=
  h.bind h.get fun _ => h.pure _

theorem check (kind : TokenKind) : good (check kind) :=
  h.bind h.peek fun _ => h.pure _

theorem eat? (kind : TokenKind) : good (eat? kind) :=
  h.bind (h.check kind) fun _ => ite (h.bind h.advance fun _ => h.pure _) (h.pure _)

theorem expect (kind : TokenKind) (message : String) : good (expect kind message) := by
  refine h.bind (h.eat? kind) fun found => ?_
  cases found with
  | none => exact h.reject rfl
  | some token => exact h.pure token

/-- A token that has to follow does not matter to the property. -/
theorem afterExpect {kind : TokenKind} {message : String} {next : Token → Rule β}
    (hnext : ∀ token, good (next token)) : good (Grammar.expect kind message >>= next) :=
  h.bind (h.expect kind message) hnext

section
variable {item : Rule α} (hitem : good item) (excess : SyntaxError.Cause)
include hitem

theorem counted (earlier : Nat) : good (counted item excess earlier) :=
  ite (h.bind h.peek fun _ => h.bind (h.report _ _) fun _ => hitem) hitem

theorem items (budget : List Token) (earlier : Array α) :
    good (items item excess budget earlier) := by
  induction budget generalizing earlier with
  | nil => exact h.bind (h.counted hitem excess _) fun _ => h.pure _
  | cons spare budget ih =>
    refine h.bind (h.counted hitem excess _) fun value => h.bind (h.eat? _) fun comma => ?_
    cases comma with
    | none => exact h.pure _
    | some _ => exact ih _

theorem commaSeparated : good (commaSeparated item excess) :=
  h.bind (h.check _) fun _ => ite (h.pure _) (h.bind h.get fun _ => h.items hitem excess _ _)

end

/-! ### Statements -/

section
variable {expression : Rule Expression} (hexpression : good expression)
include hexpression

theorem varDeclaration : good (varDeclaration expression) := by
  refine h.afterExpect fun _ => h.bind (h.eat? _) fun equals => ?_
  cases equals with
  | none => exact h.bind (h.pure _) fun _ => h.afterExpect fun _ => h.pure _
  | some _ => exact h.bind (h.map hexpression _) fun _ => h.afterExpect fun _ => h.pure _

theorem expressionStatement : good (expressionStatement expression) :=
  h.bind hexpression fun _ => h.afterExpect fun _ => h.pure _

theorem printStatement : good (printStatement expression) :=
  h.bind hexpression fun _ => h.afterExpect fun _ => h.pure _

/-- What follows `return`, behind the check where it stands. -/
theorem returned (keyword : Token) : good (do
    let value ← if ← Grammar.check .semicolon then Pure.pure none else some <$> expression
    let _ ← Grammar.expect .semicolon "Expect ';' after return value."
    return Statement.returnWith value keyword.line) := by
  refine h.bind (h.check _) fun bare => ?_
  cases bare with
  | true => exact h.bind (h.pure _) fun _ => h.afterExpect fun _ => h.pure _
  | false => exact h.bind (h.map hexpression _) fun _ => h.afterExpect fun _ => h.pure _

theorem returnStatement (keyword : Token) : good (returnStatement expression keyword) :=
  h.bind h.get fun _ => ite (h.bind (h.report _ _) fun _ => h.returned hexpression keyword)
    (h.returned hexpression keyword)

theorem initializer : good (initializer expression) :=
  h.bind (h.eat? _) fun _ => ite (h.pure _) (h.bind (h.eat? _) fun _ =>
    ite (h.bind (h.varDeclaration hexpression) fun _ => h.pure _)
      (h.bind (h.expressionStatement hexpression) fun _ => h.pure _))

theorem clause (closing : TokenKind) : good (clause expression closing) :=
  h.bind (h.check _) fun _ => ite (h.pure _) (h.bind hexpression fun _ => h.pure _)

variable {statement : Rule Statement} (hstatement : good statement)
include hstatement

theorem ifStatement : good (ifStatement expression statement) := by
  refine h.afterExpect fun _ => h.bind hexpression fun _ => h.afterExpect fun _ =>
    h.bind hstatement fun _ => h.bind (h.eat? _) fun otherwise => ?_
  cases otherwise with
  | none => exact h.pure _
  | some _ => exact h.bind hstatement fun _ => h.pure _

theorem whileStatement : good (whileStatement expression statement) :=
  h.afterExpect fun _ => h.bind hexpression fun _ => h.afterExpect fun _ =>
    h.bind hstatement fun _ => h.pure _

theorem forStatement : good (forStatement expression statement) :=
  h.afterExpect fun _ => h.bind (h.initializer hexpression) fun _ =>
    h.bind (h.clause hexpression _) fun _ => h.afterExpect fun _ =>
      h.bind (h.clause hexpression _) fun _ => h.afterExpect fun _ =>
        h.bind hstatement fun _ => h.pure _

end

/-! ### Declarations -/

theorem block {declaration : Rule (Option Statement)} (hdeclaration : good declaration) :
    good (block declaration) := by
  have hentries (budget : List Token) (earlier : Array Statement) :
      good (entries declaration budget earlier) := by
    induction budget generalizing earlier with
    | nil => exact h.pure _
    | cons spare budget ih =>
      refine h.bind (h.check _) fun _ => h.bind h.peek fun _ => ite (h.pure _) ?_
      refine h.bind hdeclaration fun found => ?_
      cases found with
      | none => exact ih _
      | some _ => exact ih _
  exact h.bind h.get fun _ => h.bind (hentries _ _) fun _ => h.afterExpect fun _ => h.pure _

theorem functionRule {declaration : Rule (Option Statement)} (hdeclaration : good declaration) :
    good (functionRule declaration) := by
  have hparameter : good parameter := h.afterExpect fun _ => h.pure _
  exact h.afterExpect fun _ => h.afterExpect fun _ =>
    h.bind (h.commaSeparated hparameter _) fun _ => h.afterExpect fun _ => h.afterExpect fun _ =>
      h.bind (h.inFunction (h.block hdeclaration)) fun _ => h.pure _

section
variable {parts : Parts} (hexpression : good parts.expression) (hstatement : good parts.statement)
  (hfunction : good parts.function)
include hexpression hstatement hfunction

/-- What a declaration recovers from has the property as well. -/
theorem exists_recovering_eq : ∃ rule : Rule Statement,
    Grammar.declarationRule parts = Grammar.recovering rule ∧ good rule :=
  ⟨_, rfl, h.bind (h.eat? _) fun _ => ite (h.varDeclaration hexpression)
    (h.bind (h.eat? _) fun _ => ite hfunction hstatement)⟩

theorem declarationRule : good (declarationRule parts) := by
  obtain ⟨rule, heq, hrule⟩ := h.exists_recovering_eq hexpression hstatement hfunction
  exact heq ▸ h.recovering hrule

theorem statementRule : good (statementRule parts) := by
  refine h.bind h.peek fun token => ?_
  split
  · exact h.bind h.advance fun _ => h.forStatement hexpression hstatement
  · exact h.bind h.advance fun _ => h.ifStatement hexpression hstatement
  · exact h.bind h.advance fun _ => h.printStatement hexpression
  · exact h.bind h.advance fun keyword => h.returnStatement hexpression keyword
  · exact h.bind h.advance fun _ => h.whileStatement hexpression hstatement
  · exact h.bind h.advance fun _ =>
      h.bind (h.block (h.declarationRule hexpression hstatement hfunction)) fun _ => h.pure _
  · exact h.expressionStatement hexpression

end

variable (hexpression : ∀ levels, good (expression levels))
include hexpression

theorem statement_and_function (levels : Nat) :
    good (statement levels) ∧ good (function levels) := by
  induction levels with
  | zero => exact ⟨h.reject rfl, h.reject rfl⟩
  | succ levels ih =>
    exact ⟨h.nested (h.statementRule (hexpression levels) ih.1 ih.2),
      h.nested (h.functionRule (h.declarationRule (hexpression levels) ih.1 ih.2))⟩

theorem exists_declaration_eq (levels : Nat) :
    ∃ rule : Rule Statement, Grammar.declaration levels = Grammar.recovering rule ∧ good rule :=
  have hlevels := h.statement_and_function hexpression levels
  h.exists_recovering_eq (hexpression levels) hlevels.1 hlevels.2

theorem declaration (levels : Nat) : good (declaration levels) := by
  obtain ⟨rule, heq, hrule⟩ := h.exists_declaration_eq hexpression levels
  exact heq ▸ h.recovering hrule

theorem declarations (budget : List Token) (earlier : Array (Option Statement)) :
    good (declarations budget earlier) := by
  induction budget generalizing earlier with
  | nil => exact h.pure _
  | cons spare budget ih =>
    exact h.bind h.peek fun _ => ite (h.pure _) (h.bind (h.declaration hexpression _) fun _ => ih _)

end Hereditary

namespace HereditaryToNodes

variable {good : ∀ {α : Type}, Rule α → Prop} (h : HereditaryToNodes good)
include h

/-! ### Expressions -/

theorem call {argument : Rule Nat} (hargument : good argument) : good (call argument) := by
  have hcalls (budget : List Token) (callee : Nat) : good (calls argument budget callee) := by
    induction budget generalizing callee with
    | nil => exact h.pure callee
    | cons spare budget ih =>
      refine h.bind (h.eat? _) fun opening => ?_
      cases opening with
      | none => exact h.pure callee
      | some _ =>
        exact h.bind (h.commaSeparated hargument _) fun _ => h.afterExpect fun _ =>
          h.bind (h.addNode _) fun _ => ih _
  exact h.bind (h.primary hargument) fun callee => h.bind h.get fun _ => hcalls _ callee

theorem unaryRule {argument operand : Rule Nat}
    (hargument : good argument) (hoperand : good operand) :
    good (unaryRule argument operand) := by
  refine h.bind h.peek fun token => ?_
  cases UnaryOperator.ofToken? token.kind with
  | none => exact h.call hargument
  | some _ => exact h.bind h.advance fun _ => h.bind hoperand fun _ => h.addNode _

theorem chain (operator? : TokenKind → Option α) (join : α → (left right line : Nat) → Node)
    {operand : Rule Nat} (hoperand : good operand) : good (chain operator? join operand) := by
  have hlinks (budget : List Token) (left : Nat) :
      good (links operator? join operand budget left) := by
    induction budget generalizing left with
    | nil => exact h.pure left
    | cons spare budget ih =>
      refine h.bind h.peek fun token => ?_
      cases operator? token.kind with
      | none => exact h.pure left
      | some _ =>
        exact h.bind h.advance fun _ => h.bind hoperand fun _ => h.bind (h.addNode _) fun _ => ih _
  exact h.bind hoperand fun left => h.bind h.get fun _ => hlinks _ left

theorem operation {unary : Rule Nat} (hunary : good unary) : good (operation unary) :=
  h.chain _ _ (h.chain _ _ (h.chain _ _ (h.chain _ _ (h.chain _ _ (h.chain _ _ hunary)))))

theorem assignmentRule {unary value : Rule Nat} (hunary : good unary) (hvalue : good value) :
    good (assignmentRule unary value) := by
  refine h.bind (h.operation hunary) fun target => h.bind (h.eat? _) fun equals => ?_
  cases equals with
  | none => exact h.pure target
  | some _ =>
    refine h.bind hvalue fun _ => h.bind h.get fun _ => ?_
    split
    · exact h.addNode _
    · exact h.bind (h.report _ _) fun _ => h.pure target

theorem assignment_and_unary (levels : Nat) : good (assignment levels) ∧ good (unary levels) := by
  induction levels with
  | zero => exact ⟨h.reject rfl, h.reject rfl⟩
  | succ levels ih =>
    have hrule := h.unaryRule ih.1 ih.2
    exact ⟨h.nested (h.assignmentRule hrule ih.1), h.nested hrule⟩

theorem expression (levels : Nat) : good (expression levels) :=
  h.building (h.assignment_and_unary levels).1

end HereditaryToNodes

end Grammar

end Lox
