import Lox.Grammar.Program
import Lox.Proofs.Mirror
import Lox.Proofs.Syntax.Lines

/-!
# What rules do not look at

A rule tells tokens apart by their kinds and takes over lexemes, values and lines; it never asks where
a token stands, on which line, or what was recorded before it. So a run on tokens in other places,
behind errors that were already there, is the run on the tokens themselves seen through `placed`:
each rule mirrors itself.
-/

namespace Lox.Grammar

variable {α β : Type}

/-- States and failures with the tokens in other places and errors in front of those recorded. -/
def placed (relabelling : Relabelling) (recorded : Array SyntaxError) :
    View State State Failure Failure where
  state state :=
    { state with
      rest := state.rest.map relabelling.token
      ending := relabelling.token state.ending
      errors := recorded ++ state.errors.map (·.relabel relabelling)
      nodes := state.nodes.map (·.mapLines relabelling.line) }
  failure
    | .rejected error => .rejected (error.relabel relabelling)
    | .missingValue token => .missingValue (relabelling.token token)

/-- On tokens in other places the image runs as the rule does on the tokens themselves. -/
abbrev Replaces (relabelling : Relabelling) (recorded : Array SyntaxError) (f : α → β)
    (rule : Rule α) (image : Rule β) : Prop :=
  Mirrors (placed relabelling recorded) f rule image

variable {relabelling : Relabelling} {recorded : Array SyntaxError}

/-! ### Steps -/

theorem ahead_placed (state : State) :
    ((placed relabelling recorded).state state).ahead = relabelling.token state.ahead := by
  cases h : state.rest <;> simp [placed, State.ahead, h]

theorem replaces_peek : Replaces relabelling recorded relabelling.token peek peek := fun before =>
  congrArg (EStateM.Result.ok · _) (ahead_placed before)

theorem replaces_check (kind : TokenKind) :
    Replaces relabelling recorded id (check kind) (check kind) :=
  replaces_peek.bind fun token => mirrors_pure (by simp)

theorem replaces_advance : Replaces relabelling recorded relabelling.token advance advance :=
  replaces_peek.bind fun _ =>
    (mirrors_modify fun state => by simp [placed]).bind fun _ => mirrors_pure rfl

theorem replaces_eat? (kind : TokenKind) :
    Replaces relabelling recorded (Option.map relabelling.token) (eat? kind) (eat? kind) :=
  (replaces_check kind).bind fun _ => .ite (replaces_advance.bind fun _ => mirrors_pure rfl)
    (mirrors_pure rfl)

theorem replaces_reject (cause : SyntaxError.Cause) {f : α → β} :
    Replaces relabelling recorded f (reject cause) (reject cause) :=
  replaces_peek.bind fun _ => mirrors_throw rfl

theorem replaces_expect (kind : TokenKind) (message : String) :
    Replaces relabelling recorded relabelling.token (expect kind message) (expect kind message) := by
  refine (replaces_eat? kind).bind fun found => ?_
  cases found with
  | none => exact replaces_reject _
  | some token => exact mirrors_pure rfl

theorem replaces_report (cause : SyntaxError.Cause) (token : Token) :
    Replaces relabelling recorded id (report cause token)
      (report cause (relabelling.token token)) :=
  mirrors_modify fun state => by simp [placed, SyntaxError.relabel]

theorem replaces_addNode (node : Node) :
    Replaces relabelling recorded id (addNode node) (addNode (node.mapLines relabelling.line)) :=
  mirrors_get fun state => (mirrors_modify fun state => by simp [placed]).bind fun _ =>
    mirrors_pure (by simp [placed])

/-! ### Combinators -/

theorem resumption_map (last : Token) (tokens : List Token) :
    resumption (relabelling.token last) (tokens.map relabelling.token) =
      (resumption last tokens).map relabelling.token := by
  induction tokens generalizing last with
  | nil => rfl
  | cons token rest ih =>
    rw [List.map_cons, resumption, resumption, relabelling.kind_token, relabelling.kind_token]
    split
    · rfl
    · exact ih token

theorem synchronize_map (tokens : List Token) :
    synchronize (tokens.map relabelling.token) = (synchronize tokens).map relabelling.token := by
  cases tokens with
  | nil => rfl
  | cons skipped rest => exact resumption_map skipped rest

section
variable {f : α → β} {rule : Rule α} {image : Rule β}
  (h : Replaces relabelling recorded f rule image)
include h

theorem replaces_nested : Replaces relabelling recorded f (nested rule) (nested image) := by
  intro before
  let placedBefore := (placed relabelling recorded).state before
  by_cases hfull : maxNesting ≤ before.nesting
  · have hreject : Replaces relabelling recorded f (reject .tooDeep) (reject .tooDeep) :=
      replaces_reject .tooDeep
    simpa [nested, placed, hfull] using hreject before
  · have hinner : image { placedBefore with nesting := placedBefore.nesting + 1 } = _ :=
      h { before with nesting := before.nesting + 1 }
    have hroom : ¬ maxNesting ≤ placedBefore.nesting := hfull
    rw [nested, nested, if_neg hfull, if_neg hroom, hinner]
    cases rule { before with nesting := before.nesting + 1 } <;> rfl

theorem replaces_inFunction :
    Replaces relabelling recorded f (inFunction rule) (inFunction image) := by
  intro before
  let placedBefore := (placed relabelling recorded).state before
  have hinner : image { placedBefore with functionDepth := placedBefore.functionDepth + 1 } = _ :=
    h { before with functionDepth := before.functionDepth + 1 }
  rw [inFunction, inFunction, hinner]
  cases rule { before with functionDepth := before.functionDepth + 1 } <;> rfl

theorem replaces_counted (excess : SyntaxError.Cause) (earlier : Nat) :
    Replaces relabelling recorded f (counted rule excess earlier) (counted image excess earlier) :=
  .ite (replaces_peek.bind fun _ => (replaces_report _ _).bind fun _ => h) h

theorem replaces_items (excess : SyntaxError.Cause) (budget : List Token) :
    ∀ earlier : Array α, Replaces relabelling recorded (List.map f)
      (items rule excess budget earlier)
      (items image excess (budget.map relabelling.token) (earlier.map f)) := by
  induction budget with
  | nil =>
    intro earlier
    rw [List.map_nil, items, items, Array.size_map]
    exact (replaces_counted h excess earlier.size).bind fun _ => mirrors_pure (by simp)
  | cons _ budget ih =>
    intro earlier
    rw [List.map_cons, items, items, Array.size_map]
    refine (replaces_counted h excess earlier.size).bind fun value =>
      (replaces_eat? .comma).bind fun comma => ?_
    rw [← Array.map_push]
    cases comma with
    | none => exact mirrors_pure (by simp)
    | some _ => exact ih (earlier.push value)

theorem replaces_commaSeparated (excess : SyntaxError.Cause) :
    Replaces relabelling recorded (List.map f) (commaSeparated rule excess)
      (commaSeparated image excess) :=
  (replaces_check .rightParen).bind fun _ => .ite (mirrors_pure rfl) <|
    mirrors_get fun state => by
      have hitems := replaces_items h excess state.rest #[]
      rw [Array.map_empty] at hitems
      exact hitems

theorem replaces_recovering :
    Replaces relabelling recorded (Option.map f) (recovering rule) (recovering image) := by
  intro before
  rw [recovering, recovering, h before]
  cases rule before with
  | ok value after => rfl
  | error failure after =>
    cases failure with
    | rejected error =>
      simp [View.result, placed, synchronize_map]
    | missingValue token => rfl

end

theorem replaces_building {rule image : Rule Nat} (h : Replaces relabelling recorded id rule image) :
    Replaces relabelling recorded (Expression.mapLines relabelling.line) (building rule)
      (building image) := by
  intro before
  let placedBefore := (placed relabelling recorded).state before
  have hempty : { placedBefore with nodes := #[] } =
      (placed relabelling recorded).state { before with nodes := #[] } := by
    simp [placedBefore, placed]
  rw [building, building, hempty, h]
  cases rule { before with nodes := #[] } <;> rfl

/-! ### Expressions -/

theorem replaces_leaf (node : Node) :
    Replaces relabelling recorded id (leaf node) (leaf (node.mapLines relabelling.line)) :=
  replaces_advance.bind fun _ => replaces_addNode node

section
variable {inner innerImage : Rule Nat} (h : Replaces relabelling recorded id inner innerImage)
include h

theorem replaces_primary : Replaces relabelling recorded id (primary inner) (primary innerImage) := by
  refine replaces_peek.bind fun token => ?_
  rw [relabelling.kind_token, relabelling.value_token, relabelling.ofToken_token]
  split
  · exact replaces_leaf _
  · exact replaces_leaf _
  · exact replaces_leaf _
  · cases token.value with
    | some value => exact replaces_leaf _
    | none => exact mirrors_throw rfl
  · cases token.value with
    | some value => exact replaces_leaf _
    | none => exact mirrors_throw rfl
  · exact replaces_leaf _
  · exact replaces_advance.bind fun _ => h.bind fun index => (replaces_expect _ _).bind fun _ =>
      replaces_addNode (.group index)
  · exact replaces_reject _

theorem replaces_calls (budget : List Token) : ∀ callee : Nat,
    Replaces relabelling recorded id (calls inner budget callee)
      (calls innerImage (budget.map relabelling.token) callee) := by
  induction budget with
  | nil => exact fun callee => mirrors_pure rfl
  | cons _ budget ih =>
    intro callee
    refine (replaces_eat? .leftParen).bind fun opening => ?_
    cases opening with
    | none => exact mirrors_pure rfl
    | some _ =>
      refine (replaces_commaSeparated h _).bind fun arguments =>
        (replaces_expect _ _).bind fun paren => ?_
      rw [List.map_id, relabelling.line_token]
      exact (replaces_addNode (.call callee arguments paren.line)).bind fun index => ih index

theorem replaces_call : Replaces relabelling recorded id (call inner) (call innerImage) :=
  (replaces_primary h).bind fun callee => mirrors_get fun state => replaces_calls h state.rest callee

theorem replaces_unaryRule {operand operandImage : Rule Nat}
    (hoperand : Replaces relabelling recorded id operand operandImage) :
    Replaces relabelling recorded id (unaryRule inner operand)
      (unaryRule innerImage operandImage) := by
  refine replaces_peek.bind fun token => ?_
  rw [relabelling.kind_token, relabelling.line_token]
  cases UnaryOperator.ofToken? token.kind with
  | none => exact replaces_call h
  | some operator =>
    exact replaces_advance.bind fun _ => hoperand.bind fun index =>
      replaces_addNode (.unary operator index token.line)

theorem replaces_links {operator? : TokenKind → Option α}
    {join : α → (left right line : Nat) → Node}
    (hjoin : ∀ operator left right line, (join operator left right line).mapLines relabelling.line =
      join operator left right (relabelling.line line)) (budget : List Token) : ∀ left : Nat,
    Replaces relabelling recorded id (links operator? join inner budget left)
      (links operator? join innerImage (budget.map relabelling.token) left) := by
  induction budget with
  | nil => exact fun left => mirrors_pure rfl
  | cons _ budget ih =>
    intro left
    refine replaces_peek.bind fun token => ?_
    rw [relabelling.kind_token, relabelling.line_token]
    cases operator? token.kind with
    | none => exact mirrors_pure rfl
    | some operator =>
      refine replaces_advance.bind fun _ => h.bind fun right => ?_
      rw [id_eq, ← hjoin]
      exact (replaces_addNode _).bind fun index => ih index

theorem replaces_chain {operator? : TokenKind → Option α}
    {join : α → (left right line : Nat) → Node}
    (hjoin : ∀ operator left right line, (join operator left right line).mapLines relabelling.line =
      join operator left right (relabelling.line line)) :
    Replaces relabelling recorded id (chain operator? join inner) (chain operator? join innerImage) :=
  h.bind fun left => mirrors_get fun state => replaces_links h hjoin state.rest left

theorem replaces_operation :
    Replaces relabelling recorded id (operation inner) (operation innerImage) := by
  have hbinary {level : Precedence} {rule image : Rule Nat}
      (h : Replaces relabelling recorded id rule image) :
      Replaces relabelling recorded id (binary level rule) (binary level image) :=
    replaces_chain h fun _ _ _ _ => rfl
  have hlogical {operator : LogicalOperator} {rule image : Rule Nat}
      (h : Replaces relabelling recorded id rule image) :
      Replaces relabelling recorded id (logical operator rule) (logical operator image) :=
    replaces_chain h fun _ _ _ _ => rfl
  exact hlogical (hlogical (hbinary (hbinary (hbinary (hbinary h)))))

theorem replaces_assignmentRule {value valueImage : Rule Nat}
    (hvalue : Replaces relabelling recorded id value valueImage) :
    Replaces relabelling recorded id (assignmentRule inner value)
      (assignmentRule innerImage valueImage) := by
  refine (replaces_operation h).bind fun target => (replaces_eat? .equal).bind fun equals => ?_
  cases equals with
  | none => exact mirrors_pure rfl
  | some equals =>
    refine hvalue.bind fun index => mirrors_get fun state => ?_
    have hnode : ((placed relabelling recorded).state state).nodes[target]? =
        (state.nodes[target]?).map (·.mapLines relabelling.line) := Array.getElem?_map
    rw [id_eq, hnode]
    cases state.nodes[target]? with
    | none => exact (replaces_report _ _).bind fun _ => mirrors_pure rfl
    | some node =>
      cases node with
      | var name => exact replaces_addNode (.assign name index)
      | _ => exact (replaces_report _ _).bind fun _ => mirrors_pure rfl

end

theorem replaces_levels (levels : Nat) :
    Replaces relabelling recorded id (assignment levels) (assignment levels) ∧
      Replaces relabelling recorded id (unary levels) (unary levels) := by
  induction levels with
  | zero => exact ⟨replaces_reject _, replaces_reject _⟩
  | succ levels ih =>
    have hunary := replaces_unaryRule ih.1 ih.2
    exact ⟨replaces_nested (replaces_assignmentRule hunary ih.1), replaces_nested hunary⟩

theorem replaces_expression (levels : Nat) :
    Replaces relabelling recorded (Expression.mapLines relabelling.line) (expression levels)
      (expression levels) :=
  replaces_building (replaces_levels levels).1

/-! ### Statements -/

section
variable {expression : Rule Expression} {statement : Rule Statement}
  {expressionImage : Rule Expression} {statementImage : Rule Statement}
  (h : Replaces relabelling recorded (Expression.mapLines relabelling.line) expression
    expressionImage)

section
include h

theorem replaces_varDeclaration :
    Replaces relabelling recorded (Statement.mapLines relabelling.line) (varDeclaration expression)
      (varDeclaration expressionImage) := by
  refine (replaces_expect _ _).bind fun name => (replaces_eat? .equal).bind fun equals => ?_
  have hrest (initial : Option Expression) :
      Replaces relabelling recorded (Statement.mapLines relabelling.line)
        (do
          let _ ← expect .semicolon "Expect ';' after variable declaration."
          return .varDecl (.ofToken name) initial)
        (do
          let _ ← expect .semicolon "Expect ';' after variable declaration."
          return .varDecl (.ofToken (relabelling.token name))
            (initial.map (Expression.mapLines relabelling.line))) :=
    (replaces_expect _ _).bind fun _ =>
      mirrors_pure (by rw [relabelling.ofToken_token, Statement.mapLines])
  cases equals with
  | none => exact hrest none
  | some _ => exact h.some.bind hrest

theorem replaces_expressionStatement :
    Replaces relabelling recorded (Statement.mapLines relabelling.line)
      (expressionStatement expression) (expressionStatement expressionImage) :=
  h.bind fun _ => (replaces_expect _ _).bind fun _ => mirrors_pure (by rw [Statement.mapLines])

theorem replaces_printStatement :
    Replaces relabelling recorded (Statement.mapLines relabelling.line)
      (printStatement expression) (printStatement expressionImage) :=
  h.bind fun _ => (replaces_expect _ _).bind fun _ => mirrors_pure (by rw [Statement.mapLines])

theorem replaces_returnStatement (keyword : Token) :
    Replaces relabelling recorded (Statement.mapLines relabelling.line)
      (returnStatement expression keyword)
      (returnStatement expressionImage (relabelling.token keyword)) := by
  have hrest (value : Option Expression) :
      Replaces relabelling recorded (Statement.mapLines relabelling.line)
        (do
          let _ ← expect .semicolon "Expect ';' after return value."
          return .returnWith value keyword.line)
        (do
          let _ ← expect .semicolon "Expect ';' after return value."
          return .returnWith (value.map (Expression.mapLines relabelling.line))
            (relabelling.token keyword).line) :=
    (replaces_expect _ _).bind fun _ =>
      mirrors_pure (by rw [relabelling.line_token, Statement.mapLines])
  refine mirrors_get fun state => .ite ((replaces_report _ _).bind fun _ => ?_) ?_ <;>
    exact (replaces_check _).bind fun closed => .ite (hrest none) (h.some.bind hrest)

theorem replaces_initializer :
    Replaces relabelling recorded (Option.map (Statement.mapLines relabelling.line))
      (initializer expression) (initializer expressionImage) := by
  refine (replaces_eat? _).bind fun semicolon => ?_
  rw [Option.isSome_map]
  refine .ite (mirrors_pure rfl) ((replaces_eat? _).bind fun word => ?_)
  rw [Option.isSome_map]
  exact .ite ((replaces_varDeclaration h).bind fun _ => mirrors_pure rfl)
    ((replaces_expressionStatement h).bind fun _ => mirrors_pure rfl)

theorem replaces_clause (closing : TokenKind) :
    Replaces relabelling recorded (Option.map (Expression.mapLines relabelling.line))
      (clause expression closing) (clause expressionImage closing) :=
  (replaces_check _).bind fun _ => .ite (mirrors_pure rfl) (h.bind fun _ => mirrors_pure rfl)

end

theorem mapLines_forLoop (line : Nat → Nat) (initial : Option Statement)
    (condition increment : Option Expression) (body : Statement) :
    (forLoop initial condition increment body).mapLines line =
      forLoop (initial.map (·.mapLines line)) (condition.map (·.mapLines line))
        (increment.map (·.mapLines line)) (body.mapLines line) := by
  have hholds : (Expression.ofLiteral (.bool true)).mapLines line = .ofLiteral (.bool true) := by
    simp [Expression.ofLiteral, Expression.mapLines, Node.mapLines]
  cases initial <;> cases condition <;> cases increment <;>
    simp [forLoop, Statement.mapLines, Statement.mapAllLines, hholds]

variable (hstatement : Replaces relabelling recorded (Statement.mapLines relabelling.line) statement
    statementImage)

section
include h hstatement

theorem replaces_ifStatement :
    Replaces relabelling recorded (Statement.mapLines relabelling.line)
      (ifStatement expression statement) (ifStatement expressionImage statementImage) := by
  refine (replaces_expect _ _).bind fun _ => h.bind fun condition =>
    (replaces_expect _ _).bind fun _ => hstatement.bind fun success =>
      (replaces_eat? _).bind fun otherwise => ?_
  cases otherwise with
  | none => exact mirrors_pure (by rw [Statement.mapLines])
  | some _ => exact hstatement.bind fun failure => mirrors_pure (by rw [Statement.mapLines])

theorem replaces_whileStatement :
    Replaces relabelling recorded (Statement.mapLines relabelling.line)
      (whileStatement expression statement) (whileStatement expressionImage statementImage) :=
  (replaces_expect _ _).bind fun _ => h.bind fun _ => (replaces_expect _ _).bind fun _ =>
    hstatement.bind fun _ => mirrors_pure (by rw [Statement.mapLines])

theorem replaces_forStatement :
    Replaces relabelling recorded (Statement.mapLines relabelling.line)
      (forStatement expression statement) (forStatement expressionImage statementImage) :=
  (replaces_expect _ _).bind fun _ => (replaces_initializer h).bind fun _ =>
    (replaces_clause h _).bind fun _ => (replaces_expect _ _).bind fun _ =>
      (replaces_clause h _).bind fun _ => (replaces_expect _ _).bind fun _ =>
        hstatement.bind fun _ => mirrors_pure (mapLines_forLoop ..).symm

end

end

section
variable {declaration declarationImage : Rule (Option Statement)}
  (h : Replaces relabelling recorded (Option.map (Statement.mapLines relabelling.line)) declaration
    declarationImage)
include h

theorem replaces_entries (budget : List Token) : ∀ earlier : Array Statement,
    Replaces relabelling recorded (Statement.mapAllLines relabelling.line)
      (entries declaration budget earlier)
      (entries declarationImage (budget.map relabelling.token)
        (earlier.map (·.mapLines relabelling.line))) := by
  have hdone (earlier : Array Statement) :
      (earlier.map (·.mapLines relabelling.line)).toList =
        Statement.mapAllLines relabelling.line earlier.toList := by
    rw [Statement.mapAllLines_eq_map, Array.toList_map]
  induction budget with
  | nil => exact fun earlier => mirrors_pure (hdone earlier)
  | cons _ budget ih =>
    intro earlier
    refine (replaces_check _).bind fun brace => replaces_peek.bind fun token => ?_
    rw [relabelling.isEnd_token]
    refine .ite (mirrors_pure (hdone earlier)) (h.bind fun found => ?_)
    cases found with
    | none => exact ih earlier
    | some statement =>
      have hmore := ih (earlier.push statement)
      rw [Array.map_push] at hmore
      exact hmore

theorem replaces_block :
    Replaces relabelling recorded (Statement.mapAllLines relabelling.line) (block declaration)
      (block declarationImage) := by
  refine mirrors_get fun state => ?_
  have hentries := replaces_entries h state.rest #[]
  rw [Array.map_empty] at hentries
  exact hentries.bind fun _ => (replaces_expect _ _).bind fun _ => mirrors_pure rfl

theorem replaces_functionRule :
    Replaces relabelling recorded (Statement.mapLines relabelling.line) (functionRule declaration)
      (functionRule declarationImage) := by
  have hparameter : Replaces relabelling recorded (Identifier.mapLines relabelling.line) parameter
      parameter := (replaces_expect _ _).bind fun _ => mirrors_pure (relabelling.ofToken_token _)
  refine (replaces_expect _ _).bind fun name => (replaces_expect _ _).bind fun _ =>
    (replaces_commaSeparated hparameter _).bind fun _ => (replaces_expect _ _).bind fun _ =>
      (replaces_expect _ _).bind fun _ => (replaces_inFunction (replaces_block h)).bind fun _ =>
        mirrors_pure ?_
  rw [relabelling.ofToken_token, Statement.mapLines]

end

/-- What the rules that declarations are put together from mirror. -/
structure PartsReplace (relabelling : Relabelling) (recorded : Array SyntaxError) (parts : Parts) :
    Prop where
  expression : Replaces relabelling recorded (Expression.mapLines relabelling.line) parts.expression
    parts.expression
  statement : Replaces relabelling recorded (Statement.mapLines relabelling.line) parts.statement
    parts.statement
  function : Replaces relabelling recorded (Statement.mapLines relabelling.line) parts.function
    parts.function

section
variable {parts : Parts} (h : PartsReplace relabelling recorded parts)
include h

theorem replaces_declarationRule :
    Replaces relabelling recorded (Option.map (Statement.mapLines relabelling.line))
      (declarationRule parts) (declarationRule parts) := by
  refine replaces_recovering ((replaces_eat? _).bind fun word => ?_)
  rw [Option.isSome_map]
  refine .ite (replaces_varDeclaration h.expression) ((replaces_eat? _).bind fun word => ?_)
  rw [Option.isSome_map]
  exact .ite h.function h.statement

theorem replaces_statementRule :
    Replaces relabelling recorded (Statement.mapLines relabelling.line) (statementRule parts)
      (statementRule parts) := by
  refine replaces_peek.bind fun token => ?_
  rw [relabelling.kind_token]
  split
  · exact replaces_advance.bind fun _ => replaces_forStatement h.expression h.statement
  · exact replaces_advance.bind fun _ => replaces_ifStatement h.expression h.statement
  · exact replaces_advance.bind fun _ => replaces_printStatement h.expression
  · exact replaces_advance.bind fun keyword => replaces_returnStatement h.expression keyword
  · exact replaces_advance.bind fun _ => replaces_whileStatement h.expression h.statement
  · exact replaces_advance.bind fun _ => (replaces_block (replaces_declarationRule h)).bind fun _ =>
      mirrors_pure (by rw [Statement.mapLines])
  · exact replaces_expressionStatement h.expression

end

theorem partsReplace_levels (levels : Nat) : PartsReplace relabelling recorded
    ⟨expression levels, statement levels, function levels⟩ := by
  induction levels with
  | zero => exact ⟨replaces_expression 0, replaces_reject _, replaces_reject _⟩
  | succ levels ih =>
    exact ⟨replaces_expression (levels + 1), replaces_nested (replaces_statementRule ih),
      replaces_nested (replaces_functionRule (replaces_declarationRule ih))⟩

/-! ### Programs -/

theorem replaces_declaration (levels : Nat) :
    Replaces relabelling recorded (Option.map (Statement.mapLines relabelling.line))
      (declaration levels) (declaration levels) :=
  replaces_declarationRule (partsReplace_levels levels)

theorem replaces_declarations (budget : List Token) : ∀ earlier : Array (Option Statement),
    Replaces relabelling recorded (List.map (Option.map (Statement.mapLines relabelling.line)))
      (declarations budget earlier)
      (declarations (budget.map relabelling.token)
        (earlier.map (Option.map (Statement.mapLines relabelling.line)))) := by
  induction budget with
  | nil => exact fun earlier => mirrors_pure Array.toList_map
  | cons _ budget ih =>
    intro earlier
    refine replaces_peek.bind fun token => ?_
    rw [relabelling.isEnd_token]
    refine .ite (mirrors_pure Array.toList_map) ((replaces_declaration _).bind fun found => ?_)
    rw [← Array.map_push]
    exact ih (earlier.push found)

end Lox.Grammar
