import Lox.Proofs.Grammar.Hereditary
import Lox.Proofs.Grammar.Statements

/-!
# What rules yield

What holds of every expression that the grammar reads, and is passed on from the parts of a statement
to the statement, holds of the statements that are kept, whatever errors were recorded on the way and
however much was abandoned. `Conveyed` says when something that is known of the values of rules is
handed on by what rules are put together from, and then it is handed on by the rules for statements.
`Yields` is the case in which nothing but the values matters.
-/

namespace Lox

namespace Statement

mutual

/-- The expressions inside of a statement. -/
def expressions : Statement → List Expression
  | varDecl _ initial => initial.toList
  | funDecl _ _ body => allExpressions body
  | expression value | print value => [value]
  | block body => allExpressions body
  | ifThen condition success => condition :: success.expressions
  | ifElse condition success failure => condition :: (success.expressions ++ failure.expressions)
  | whileLoop condition body => condition :: body.expressions
  | returnWith value _ => value.toList

def allExpressions : List Statement → List Expression
  | [] => []
  | statement :: rest => statement.expressions ++ allExpressions rest

end

/-- All expressions inside of the statement are good. -/
def Keeps (good : Expression → Prop) (statement : Statement) : Prop :=
  ∀ expression ∈ statement.expressions, good expression

/-- All expressions inside of the statements are good. -/
def AllKeep (good : Expression → Prop) (statements : List Statement) : Prop :=
  ∀ statement ∈ statements, statement.Keeps good

theorem allExpressions_eq_flatMap (statements : List Statement) :
    allExpressions statements = statements.flatMap expressions := by
  induction statements with
  | nil => rfl
  | cons statement rest ih => rw [allExpressions, ih, List.flatMap_cons]

variable {good : Expression → Prop}

theorem AllKeep.good_of_mem {statements : List Statement} (h : AllKeep good statements) :
    ∀ expression ∈ allExpressions statements, good expression := by
  rw [allExpressions_eq_flatMap]
  intro expression hmem
  obtain ⟨statement, hstatement, hexpression⟩ := List.mem_flatMap.1 hmem
  exact h statement hstatement expression hexpression

/-- What is passed on from the parts of statements to the statements, whatever a function and a
`return` are made of. Declarations are no branches and no loop bodies, so more may hold of statements
that are `plain` than of entries. -/
structure Composed (good : Expression → Prop) (plain entry : Statement → Prop) : Prop where
  varDecl {name : Identifier} {initial : Option Expression} :
    (∀ value ∈ initial, good value) → entry (.varDecl name initial)
  expression {value : Expression} : good value → plain (.expression value)
  print {value : Expression} : good value → plain (.print value)
  block {body : List Statement} : (∀ statement ∈ body, entry statement) → plain (.block body)
  ifThen {condition : Expression} {success : Statement} :
    good condition → plain success → plain (.ifThen condition success)
  ifElse {condition : Expression} {success failure : Statement} :
    good condition → plain success → plain failure → plain (.ifElse condition success failure)
  whileLoop {condition : Expression} {body : Statement} :
    good condition → plain body → plain (.whileLoop condition body)
  entry {statement : Statement} : plain statement → entry statement

/-- What is passed on from the parts of all statements to the statements. -/
structure Closed (good : Expression → Prop) (plain listed : Statement → Prop) : Prop
    extends Composed good plain listed where
  funDecl {name : Identifier} {parameters : List Identifier} {body : List Statement} :
    (∀ statement ∈ body, listed statement) → listed (.funDecl name parameters body)
  returnWith {value : Option Expression} {line : Nat} :
    (∀ result ∈ value, good result) → plain (.returnWith value line)

theorem closed_keeps (good : Expression → Prop) : Closed good (Keeps good) (Keeps good) where
  varDecl h := fun value hvalue => h value (Option.mem_toList.1 hvalue)
  funDecl h := AllKeep.good_of_mem h
  expression h := List.forall_mem_singleton.2 h
  print h := List.forall_mem_singleton.2 h
  returnWith h := fun value hvalue => h value (Option.mem_toList.1 hvalue)
  block h := AllKeep.good_of_mem h
  ifThen hcondition hsuccess := List.forall_mem_cons.2 ⟨hcondition, hsuccess⟩
  ifElse hcondition hsuccess hfailure :=
    List.forall_mem_cons.2 ⟨hcondition, List.forall_mem_append.2 ⟨hsuccess, hfailure⟩⟩
  whileLoop hcondition hbody := List.forall_mem_cons.2 ⟨hcondition, hbody⟩
  entry := id

end Statement

/-- The expressions inside of the declarations of a program. -/
def Program.expressions (program : Program) : List Expression :=
  program.statements.flatMap Statement.expressions

/-- The statement that a `for` loop stands for, with the condition that it has if none is written. -/
theorem Statement.Composed.forLoop {good : Expression → Prop} {plain entry : Statement → Prop}
    (composed : Composed good plain entry) (hholds : good (.ofLiteral (.bool true))) {initial : Option Statement}
    {condition increment : Option Expression} {body : Statement}
    (hinitial : ∀ first ∈ initial, entry first) (hcondition : ∀ value ∈ condition, good value)
    (hincrement : ∀ value ∈ increment, good value) (hbody : plain body) :
    plain (Grammar.forLoop initial condition increment body) := by
  have htest : good (condition.getD (.ofLiteral (.bool true))) := by
    cases condition with
    | none => exact hholds
    | some value => exact hcondition value rfl
  have hpair {first second : Statement} (hfirst : entry first) (hsecond : entry second) :
      plain (.block [first, second]) :=
    composed.block (List.forall_mem_cons.2 ⟨hfirst, List.forall_mem_singleton.2 hsecond⟩)
  have hloop {repeated : Statement} (h : plain repeated) :
      plain (.whileLoop (condition.getD (.ofLiteral (.bool true))) repeated) :=
    composed.whileLoop htest h
  have hrepeated {step : Expression} (hstep : good step) :
      plain (.block [body, .expression step]) :=
    hpair (composed.entry hbody) (composed.entry (composed.expression hstep))
  cases initial with
  | none =>
    cases increment with
    | none => exact hloop hbody
    | some step => exact hloop (hrepeated (hincrement step rfl))
  | some first =>
    have hfirst := hinitial first rfl
    cases increment with
    | none => exact hpair hfirst (composed.entry (hloop hbody))
    | some step => exact hpair hfirst (composed.entry (hloop (hrepeated (hincrement step rfl))))

namespace Grammar

variable {α β : Type}

/-! ### What is handed on -/

/-- What is known of the values of rules is known of those of the steps, and it is handed on to what
is put together from rules. What is known of one value may be used for the next one. -/
structure Conveyed (yields : ∀ {α : Type}, Rule α → (α → Prop) → Prop) : Prop where
  pure : ∀ {α : Type} {value : α} {good : α → Prop}, good value → yields (pure value : Rule α) good
  reject : ∀ {α : Type} {good : α → Prop} (cause : SyntaxError.Cause),
    yields (reject cause : Rule α) good
  steady : ∀ {α : Type} {rule : Rule α}, Steady rule → yields rule fun _ => True
  mono : ∀ {α : Type} {rule : Rule α} {good finer : α → Prop}, yields rule good →
    (∀ value, good value → finer value) → yields rule finer
  bind : ∀ {α β : Type} {rule : Rule α} {next : α → Rule β} {good : α → Prop} {fine : β → Prop},
    yields rule good → (∀ value, yields (next value) fun result => good value → fine result) →
      yields (rule >>= next) fine
  nested : ∀ {α : Type} {rule : Rule α} {good : α → Prop}, yields rule good →
    yields (nested rule) good
  /-- Where a rule was abandoned nothing is kept of it. -/
  recovering : ∀ {α : Type} {rule : Rule α} {good : α → Prop}, yields rule good →
    yields (recovering rule) fun found => ∀ value ∈ found, good value

namespace Conveyed

variable {yields : ∀ {α : Type}, Rule α → (α → Prop) → Prop} (h : Conveyed yields)
include h

/-- What a steady rule yields does not matter to what comes behind it. -/
theorem before {rule : Rule α} {next : α → Rule β} {fine : β → Prop} (first : Steady rule)
    (second : ∀ value, yields (next value) fine) : yields (rule >>= next) fine :=
  h.bind (h.steady first) fun value => h.mono (second value) fun _ hresult _ => hresult

omit h in
theorem ite {condition : Prop} [Decidable condition] {first second : Rule α} {good : α → Prop}
    (hfirst : yields first good) (hsecond : yields second good) :
    yields (if condition then first else second) good := by
  split
  · exact hfirst
  · exact hsecond

theorem some {rule : Rule α} {good : α → Prop} (hrule : yields rule good) :
    yields (some <$> rule) fun found => ∀ value ∈ found, good value := by
  rw [map_eq_bind]
  apply h.bind hrule
  intro value
  apply h.pure
  intro hgood found hfound
  exact Option.some.inj hfound ▸ hgood

/-! ### Statements -/

section
variable {good : Expression → Prop} {plain entry : Statement → Prop}
  (composed : Statement.Composed good plain entry)

section
variable {expression : Rule Expression} (hexpression : yields expression good)
include composed hexpression

theorem varDeclaration : yields (varDeclaration expression) entry := by
  apply h.before (steady_expect _ _)
  intro name
  apply h.before (steady_eat? _)
  intro equals
  have hrest (initial : Option Expression) : yields (do
        let _ ← expect .semicolon "Expect ';' after variable declaration."
        return .varDecl (.ofToken name) initial)
      fun result => (∀ value ∈ initial, good value) → entry result :=
    h.before (steady_expect _ _) fun _ => h.pure composed.varDecl
  cases equals with
  | none => exact h.mono (hrest none) fun _ hresult => hresult (by simp)
  | some _ => exact h.bind (h.some hexpression) hrest

theorem expressionStatement : yields (expressionStatement expression) plain :=
  h.bind hexpression fun _ => h.before (steady_expect _ _) fun _ => h.pure composed.expression

theorem printStatement : yields (printStatement expression) plain :=
  h.bind hexpression fun _ => h.before (steady_expect _ _) fun _ => h.pure composed.print

theorem initializer :
    yields (initializer expression) fun initial => ∀ first ∈ initial, entry first := by
  apply h.before (steady_eat? _)
  intro semicolon
  apply ite (h.pure (by simp))
  apply h.before (steady_eat? _)
  intro word
  apply ite
  · exact h.some (h.varDeclaration composed hexpression)
  · exact h.some (h.mono (h.expressionStatement composed hexpression) fun _ => composed.entry)

omit composed in
theorem clause (closing : TokenKind) :
    yields (clause expression closing) fun found => ∀ value ∈ found, good value :=
  h.before (steady_check _) fun _ => ite (h.pure (by simp)) (h.some hexpression)

variable {statement : Rule Statement} (hstatement : yields statement plain)
include hstatement

theorem ifStatement : yields (ifStatement expression statement) plain := by
  apply h.before (steady_expect _ _)
  intro _
  apply h.bind hexpression
  intro condition
  apply h.before (steady_expect _ _)
  intro _
  apply h.bind hstatement
  intro success
  apply h.before (steady_eat? _)
  intro otherwise
  cases otherwise with
  | none => exact h.pure fun hsuccess hcondition => composed.ifThen hcondition hsuccess
  | some _ =>
    exact h.bind hstatement fun failure => h.pure fun hfailure hsuccess hcondition =>
      composed.ifElse hcondition hsuccess hfailure

theorem whileStatement : yields (whileStatement expression statement) plain := by
  apply h.before (steady_expect _ _)
  intro _
  apply h.bind hexpression
  intro condition
  apply h.before (steady_expect _ _)
  intro _
  exact h.bind hstatement fun body => h.pure fun hbody hcondition =>
    composed.whileLoop hcondition hbody

theorem forStatement (hholds : good (.ofLiteral (.bool true))) :
    yields (forStatement expression statement) plain := by
  apply h.before (steady_expect _ _)
  intro _
  apply h.bind (h.initializer composed hexpression)
  intro initial
  apply h.bind (h.clause hexpression _)
  intro condition
  apply h.before (steady_expect _ _)
  intro _
  apply h.bind (h.clause hexpression _)
  intro increment
  apply h.before (steady_expect _ _)
  intro _
  exact h.bind hstatement fun body => h.pure fun hbody hincrement hcondition hinitial =>
    composed.forLoop hholds hinitial hcondition hincrement hbody

end

theorem entries {declaration : Rule (Option Statement)}
    (hdeclaration : yields declaration fun found => ∀ statement ∈ found, entry statement)
    (budget : List Token) (earlier : Array Statement) :
    yields (entries declaration budget earlier) fun body =>
      (∀ statement ∈ earlier.toList, entry statement) → ∀ statement ∈ body, entry statement := by
  induction budget generalizing earlier with
  | nil => exact h.pure id
  | cons _ budget ih =>
    apply h.before (steady_check _)
    intro _
    apply h.before steady_peek
    intro _
    apply ite (h.pure id)
    apply h.bind hdeclaration
    intro found
    cases found with
    | none => exact h.mono (ih earlier) fun _ hbody _ => hbody
    | some statement =>
      apply h.mono (ih (earlier.push statement))
      intro body hbody hfound hearlier
      apply hbody
      rw [Array.toList_push]
      exact List.forall_mem_append.2
        ⟨hearlier, List.forall_mem_singleton.2 (hfound statement rfl)⟩

theorem block {declaration : Rule (Option Statement)}
    (hdeclaration : yields declaration fun found => ∀ statement ∈ found, entry statement) :
    yields (block declaration) fun body => ∀ statement ∈ body, entry statement := by
  apply h.before steady_get
  intro state
  apply h.bind (h.entries hdeclaration state.rest #[])
  intro body
  exact h.before (steady_expect _ _) fun _ => h.pure fun hbody => hbody (by simp)

end

end Conveyed

/-- What is known of the values of the rules that declarations are put together from. -/
structure PartsYield (yields : ∀ {α : Type}, Rule α → (α → Prop) → Prop)
    (good : Expression → Prop) (plain entry : Statement → Prop) (parts : Parts) : Prop where
  expression : yields parts.expression good
  statement : yields parts.statement plain
  function : yields parts.function entry

/-- It is handed on by the rules for all statements. The rules for functions and for `return` are
apart, since they look at more than at the values of their parts. -/
structure ConveyedByAll (yields : ∀ {α : Type}, Rule α → (α → Prop) → Prop)
    (good : Expression → Prop) (plain entry : Statement → Prop) : Prop
    extends Conveyed yields where
  composed : Statement.Composed good plain entry
  holds : good (.ofLiteral (.bool true))
  functionRule : ∀ {declaration : Rule (Option Statement)},
    yields declaration (fun found => ∀ statement ∈ found, entry statement) →
      yields (functionRule declaration) entry
  returnStatement : ∀ {expression : Rule Expression}, yields expression good →
    ∀ keyword : Token, yields (returnStatement expression keyword) plain

namespace ConveyedByAll

variable {yields : ∀ {α : Type}, Rule α → (α → Prop) → Prop} {good : Expression → Prop}
  {plain entry : Statement → Prop} (h : ConveyedByAll yields good plain entry)
include h

section
variable {parts : Parts} (hparts : PartsYield yields good plain entry parts)
include hparts

theorem declarationRule :
    yields (declarationRule parts) fun found => ∀ statement ∈ found, entry statement := by
  apply h.recovering
  apply h.before (steady_eat? _)
  intro word
  apply Conveyed.ite
  · exact h.varDeclaration h.composed hparts.expression
  · exact h.before (steady_eat? _) fun _ => Conveyed.ite hparts.function
      (h.mono hparts.statement fun _ => h.composed.entry)

theorem statementRule : yields (statementRule parts) plain := by
  apply h.before steady_peek
  intro token
  split
  · exact h.before steady_advance fun _ =>
      h.forStatement h.composed hparts.expression hparts.statement h.holds
  · exact h.before steady_advance fun _ =>
      h.ifStatement h.composed hparts.expression hparts.statement
  · exact h.before steady_advance fun _ => h.printStatement h.composed hparts.expression
  · exact h.before steady_advance fun keyword => h.returnStatement hparts.expression keyword
  · exact h.before steady_advance fun _ =>
      h.whileStatement h.composed hparts.expression hparts.statement
  · exact h.before steady_advance fun _ =>
      h.bind (h.block (h.declarationRule hparts)) fun _ => h.pure h.composed.block
  · exact h.expressionStatement h.composed hparts.expression

end

/-! ### Programs -/

theorem levels {levels : Nat} (hexpression : ∀ fewer ≤ levels, yields (expression fewer) good) :
    PartsYield yields good plain entry
      ⟨expression levels, statement levels, function levels⟩ := by
  induction levels with
  | zero => exact ⟨hexpression 0 (Nat.le_refl _), h.reject _, h.reject _⟩
  | succ levels ih =>
    have hparts := ih fun fewer hle => hexpression fewer (Nat.le_succ_of_le hle)
    exact ⟨hexpression (levels + 1) (Nat.le_refl _), h.nested (h.statementRule hparts),
      h.nested (h.functionRule (h.declarationRule hparts))⟩

theorem declarations (hexpression : ∀ levels ≤ maxNesting, yields (expression levels) good)
    (budget : List Token) (earlier : Array (Option Statement)) :
    yields (declarations budget earlier) fun values =>
      (∀ found ∈ earlier.toList, ∀ statement ∈ found, entry statement) →
        ∀ found ∈ values, ∀ statement ∈ found, entry statement := by
  induction budget generalizing earlier with
  | nil => exact h.pure id
  | cons _ budget ih =>
    apply h.before steady_peek
    intro _
    apply Conveyed.ite (h.pure id)
    apply h.bind (h.declarationRule (h.levels hexpression))
    intro found
    apply h.mono (ih (earlier.push found))
    intro values hvalues hfound hearlier
    apply hvalues
    rw [Array.toList_push]
    exact List.forall_mem_append.2 ⟨hearlier, List.forall_mem_singleton.2 hfound⟩

end ConveyedByAll

/-! ### What rules yield -/

/-- What is left are tokens of the list, and an end comes last. -/
structure State.LeftOf (tokens : List Token) (state : State) : Prop where
  ending_kind : state.ending.kind = .eof
  subset : state.rest ⊆ tokens

/-- Where tokens of the list are left, every run of the rule leaves such again, and every value that
the rule yields is good. -/
def Yields (tokens : List Token) (rule : Rule α) (good : α → Prop) : Prop :=
  ∀ before : State, before.LeftOf tokens →
    match rule before with
    | .ok value after => good value ∧ after.LeftOf tokens
    | .error _ after => after.LeftOf tokens

section
variable {tokens : List Token} {good : α → Prop} {fine : β → Prop}

theorem State.Continues.leftOf {before after : State} (h : before.Continues after)
    (hbefore : before.LeftOf tokens) : after.LeftOf tokens :=
  ⟨h.ending ▸ hbefore.ending_kind, List.Subset.trans h.rest.subset hbefore.subset⟩

theorem Yields.of_ok {rule : Rule α} (h : Yields tokens rule good) {before after : State} {value : α}
    (hrun : rule before = .ok value after) (hleft : before.LeftOf tokens) :
    good value ∧ after.LeftOf tokens := by
  have hall := h before hleft
  rwa [hrun] at hall

theorem Yields.of_error {rule : Rule α} (h : Yields tokens rule good) {before after : State}
    {failure : Failure} (hrun : rule before = .error failure after)
    (hleft : before.LeftOf tokens) : after.LeftOf tokens := by
  have hall := h before hleft
  rwa [hrun] at hall

/-- Whatever a steady rule yields, it only goes forward in the tokens. -/
theorem Steady.yields {rule : Rule α} (h : Steady rule)
    (hgood : ∀ {before after : State} {value : α}, rule before = .ok value after →
      before.LeftOf tokens → good value) : Yields tokens rule good := by
  intro before hleft
  have hcontinues := (h before).leftOf hleft
  rw [endState] at hcontinues
  cases hrun : rule before with
  | ok value after =>
    rw [hrun] at hcontinues
    exact ⟨hgood hrun hleft, hcontinues⟩
  | error failure after =>
    rw [hrun] at hcontinues
    exact hcontinues

theorem yields_pure {value : α} (h : good value) : Yields tokens (pure value) good :=
  fun _ hleft => ⟨h, hleft⟩

theorem yields_reject (cause : SyntaxError.Cause) : Yields tokens (reject cause) good :=
  fun _ hleft => hleft

theorem Yields.bind {rule : Rule α} {next : α → Rule β} (first : Yields tokens rule good)
    (second : ∀ value, good value → Yields tokens (next value) fine) :
    Yields tokens (rule >>= next) fine := by
  intro before hleft
  rw [bind_apply]
  cases hrun : rule before with
  | ok value after =>
    obtain ⟨hvalue, hafter⟩ := first.of_ok hrun hleft
    exact second value hvalue after hafter
  | error failure after => exact first.of_error hrun hleft

/-- What a steady rule yields does not matter to what comes behind it. -/
theorem Steady.before {rule : Rule α} {next : α → Rule β} (first : Steady rule)
    (second : ∀ value, Yields tokens (next value) fine) : Yields tokens (rule >>= next) fine :=
  have hfirst : Yields tokens rule fun _ => True := first.yields fun _ _ => trivial
  hfirst.bind fun value _ => second value

theorem Yields.mono {finer : α → Prop} {rule : Rule α} (h : Yields tokens rule good)
    (hle : ∀ value, good value → finer value) : Yields tokens rule finer := by
  intro before hleft
  have hall := h before hleft
  cases hrun : rule before with
  | ok value after =>
    rw [hrun] at hall
    exact ⟨hle value hall.1, hall.2⟩
  | error failure after =>
    rw [hrun] at hall
    exact hall

theorem Yields.nested {rule : Rule α} (h : Yields tokens rule good) :
    Yields tokens (nested rule) good := by
  intro before hleft
  have inner := h { before with nesting := before.nesting + 1 } ⟨hleft.ending_kind, hleft.subset⟩
  rw [Grammar.nested]
  by_cases hfull : maxNesting ≤ before.nesting
  · simpa [hfull, reject_apply] using hleft
  · rw [if_neg hfull]
    cases hrun : rule { before with nesting := before.nesting + 1 } with
    | ok value after =>
      rw [hrun] at inner
      exact ⟨inner.1, inner.2.ending_kind, inner.2.subset⟩
    | error failure after =>
      rw [hrun] at inner
      exact ⟨inner.ending_kind, inner.subset⟩

theorem Yields.inFunction {rule : Rule α} (h : Yields tokens rule good) :
    Yields tokens (inFunction rule) good := by
  intro before hleft
  have inner := h { before with functionDepth := before.functionDepth + 1 }
    ⟨hleft.ending_kind, hleft.subset⟩
  rw [Grammar.inFunction]
  cases hrun : rule { before with functionDepth := before.functionDepth + 1 } with
  | ok value after =>
    rw [hrun] at inner
    exact ⟨inner.1, inner.2.ending_kind, inner.2.subset⟩
  | error failure after =>
    rw [hrun] at inner
    exact ⟨inner.ending_kind, inner.subset⟩

/-- Where a rule was abandoned nothing is kept of it. -/
theorem Yields.recovering {rule : Rule α} (h : Yields tokens rule good) :
    Yields tokens (recovering rule) fun found => ∀ value ∈ found, good value := by
  intro before hleft
  have inner := h before hleft
  rw [Grammar.recovering]
  cases hrun : rule before with
  | ok value after =>
    rw [hrun] at inner
    exact ⟨fun _ hfound => Option.some.inj hfound ▸ inner.1, inner.2⟩
  | error failure after =>
    rw [hrun] at inner
    cases failure with
    | rejected error =>
      exact ⟨fun _ hfound => absurd hfound (by simp), inner.ending_kind,
        List.Subset.trans (synchronize_suffix after.rest).subset inner.subset⟩
    | missingValue token => exact inner

end

theorem conveyed_yields (tokens : List Token) : Conveyed (Yields tokens) where
  pure := yields_pure
  reject := yields_reject
  steady hrule := hrule.yields fun _ _ => trivial
  mono := .mono
  bind first second := first.bind fun value hvalue =>
    (second value).mono fun _ hresult => hresult hvalue
  nested := .nested
  recovering := .recovering

/-- What is handed on, and also by rules that are run as the body of a function, is handed on by the
rules for all statements. -/
theorem conveyedByAll_of_closed {yields : ∀ {α : Type}, Rule α → (α → Prop) → Prop} (h : Conveyed yields)
    (hinFunction : ∀ {α : Type} {rule : Rule α} {good : α → Prop}, yields rule good →
      yields (inFunction rule) good) {good : Expression → Prop} {plain entry : Statement → Prop}
    (closed : Statement.Closed good plain entry) (hholds : good (.ofLiteral (.bool true))) :
    ConveyedByAll yields good plain entry where
  toConveyed := h
  composed := closed.toComposed
  holds := hholds
  functionRule hdeclaration :=
    h.before (steady_expect _ _) fun _ => h.before (steady_expect _ _) fun _ =>
      h.before (steady_parameter.commaSeparated _) fun _ => h.before (steady_expect _ _) fun _ =>
        h.before (steady_expect _ _) fun _ =>
          h.bind (hinFunction (h.block hdeclaration)) fun _ => h.pure closed.funDecl
  returnStatement {expression} hexpression keyword := by
    have hrest (value : Option Expression) : yields (do
          let _ ← expect .semicolon "Expect ';' after return value."
          return .returnWith value keyword.line)
        fun result => (∀ found ∈ value, good found) → plain result :=
      h.before (steady_expect _ _) fun _ => h.pure closed.returnWith
    have hvalue : yields (do
        let value ← if ← check .semicolon then pure none else some <$> expression
        let _ ← expect .semicolon "Expect ';' after return value."
        return .returnWith value keyword.line) plain := by
      apply h.before (steady_check _)
      intro bare
      cases bare with
      | true => exact h.mono (hrest none) fun _ hresult => hresult (by simp)
      | false => exact h.bind (h.some hexpression) hrest
    apply h.before steady_get
    intro state
    by_cases hdepth : state.functionDepth = 0
    · simp only [hdepth, if_true]
      exact h.before (steady_report _ _) fun _ => hvalue
    · simp only [hdepth, if_false]
      exact hvalue

theorem conveyedByAll_yields {good : Expression → Prop} {plain entry : Statement → Prop}
    (closed : Statement.Closed good plain entry) (hholds : good (.ofLiteral (.bool true)))
    (tokens : List Token) : ConveyedByAll (Yields tokens) good plain entry :=
  conveyedByAll_of_closed (conveyed_yields tokens) .inFunction closed hholds

end Grammar

end Lox
