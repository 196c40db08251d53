import Lox.Proofs.Grammar.Folding
import Lox.Proofs.Grammar.Lookahead
import Mathlib.Data.List.TakeWhile

/-!
# Programs one behind the other

A statement or a declaration knows where it ends: its last token is read as such, and the one behind
it is only looked at to see whether it is an `else`. So whatever stands behind a program that was
read without being abandoned anywhere, it is read as if it stood alone, and nothing of what was read
before changes.
-/

namespace Lox

namespace Grammar

variable {α β : Type}

namespace Exchange

/-- Either both of the tokens ahead are an `else`, the one with the exchange and the one without, or
none of them is. -/
def Joins (x : Exchange) (state : State) : Prop :=
  state.ahead.kind = .keyword .elseWord ↔ (x.state state).ahead.kind = .keyword .elseWord

/-- A nearsighted rule that reads a token at least, and yields its value without looking at the
token ahead at the end, unless that is an `else`. -/
structure Closing (x : Exchange) (rule : Rule α) : Prop extends x.Nearsighted rule where
  consumes : Consumes rule
  closes : ∀ {before after : State} {value : α}, before.ending.kind = .eof →
    rule before = .ok value after → x.Ahead after → x.Joins after →
    rule (x.state before) = .ok value (x.state after)

variable {x : Exchange} {before after : State}

theorem Nearsighted.eq_of_clear {rule : Rule α} (h : x.Nearsighted rule) {value : α}
    (hending : before.ending.kind = .eof) (hrun : rule before = .ok value after)
    (hclear : x.Clear after) : rule (x.state before) = .ok value (x.state after) := by
  have hagree := h.agree hending
  rw [Agree, endState, hrun] at hagree
  exact hagree hclear

/-- What is followed by something that closes does not stop in front of what is exchanged. -/
theorem Nearsighted.closing {rule : Rule α} {next : α → Rule β} (h : x.Nearsighted rule)
    (hnext : ∀ value, x.Closing (next value)) : x.Closing (rule >>= next) where
  toNearsighted := h.bind fun value => (hnext value).toNearsighted
  consumes := h.steady.consumes fun value => (hnext value).consumes
  closes {before after value} hending hrun hahead hjoins := by
    obtain ⟨middle, between, hfirst, hsecond⟩ := bind_eq_ok.1 hrun
    have hendingBetween := (h.steady.of_ok hfirst).ending ▸ hending
    have hless := (hnext middle).consumes hsecond hendingBetween
    have hclear : x.Clear between :=
      hahead.clear_of_lt ((hnext middle).steady.of_ok hsecond).rest hless
    rw [bind_of_ok (h.eq_of_clear hending hfirst hclear)]
    exact (hnext middle).closes hendingBetween hsecond hahead hjoins

section
variable {rule : Rule α} (h : x.Closing rule)
include h

/-- What is made of the value in the end makes no difference. -/
theorem Closing.yield (f : α → β) : x.Closing (rule >>= fun value => pure (f value)) where
  toNearsighted := h.bind fun _ => nearsighted_pure _
  consumes := h.consumes.bind fun _ => steady_pure _
  closes {before after value} hending hrun hahead hjoins := by
    obtain ⟨middle, between, hfirst, hsecond⟩ := bind_eq_ok.1 hrun
    cases hsecond
    rw [bind_of_ok (h.closes hending hfirst hahead hjoins)]
    rfl

theorem Closing.ite {condition : Prop} [Decidable condition] {other : Rule α}
    (hother : x.Closing other) : x.Closing (if condition then rule else other) := by
  split
  · exact h
  · exact hother

theorem Closing.nested : x.Closing (nested rule) where
  toNearsighted := h.toNearsighted.nested
  consumes := h.consumes.nested
  closes {before after value} hending hrun hahead hjoins := by
    obtain ⟨inner, hinner, rfl⟩ := nested_eq_ok hrun
    have hroom : ¬ maxNesting ≤ before.nesting := by
      intro hfull
      rw [Grammar.nested, if_pos hfull] at hrun
      cases hrun
    let entered : State := { before with nesting := before.nesting + 1 }
    have hentered : entered.ending.kind = .eof := hending
    have hmirror := h.closes hentered hinner hahead hjoins
    have hexchanged : (x.state before).nesting < maxNesting := Nat.lt_of_not_le hroom
    exact nested_of_ok hexchanged hmirror

theorem Closing.inFunction : x.Closing (inFunction rule) where
  toNearsighted := h.toNearsighted.inFunction
  consumes {before after value} hrun hending := by
    rw [Grammar.inFunction] at hrun
    split at hrun
    case h_1 inner hinner =>
      cases hrun
      have hless := h.consumes hinner hending
      exact hless
    case h_2 => cases hrun
  closes {before after value} hending hrun hahead hjoins := by
    rw [Grammar.inFunction] at hrun
    split at hrun
    case h_1 inner hinner =>
      cases hrun
      let entered : State := { before with functionDepth := before.functionDepth + 1 }
      have hentered : entered.ending.kind = .eof := hending
      have hmirror := h.closes hentered hinner hahead hjoins
      let exchanged := x.state before
      change rule { exchanged with functionDepth := exchanged.functionDepth + 1 } = _ at hmirror
      rw [Grammar.inFunction, hmirror]
      rfl
    case h_2 => cases hrun

end

theorem closing_reject (cause : SyntaxError.Cause) : x.Closing (reject cause : Rule α) where
  toNearsighted := nearsighted_reject cause
  consumes := consumes_reject cause
  closes _ hrun := by cases hrun

theorem closing_expect {kind : TokenKind} (hkind : kind ≠ .eof) (message : String) :
    x.Closing (expect kind message) where
  toNearsighted := nearsighted_expect kind message
  consumes := consumes_expect hkind message
  closes {before after token} hending hrun hahead _ := by
    have hcontinues := (steady_expect kind message).of_ok hrun
    have hclear : x.Clear before :=
      hahead.clear_of_lt hcontinues.rest (consumes_expect hkind message hrun hending)
    obtain ⟨hkind, rfl, rfl⟩ := expect_eq_ok_iff.1 hrun
    rw [expect_apply, hclear.ahead_state, if_pos hkind, hclear.tail_state]

/-- What is read off the state may be used if it is not exchanged. -/
theorem closing_get {next : State → Rule α} (h : ∀ state, x.Closing (next state))
    (hsame : ∀ state, next (x.state state) = next state) : x.Closing (get >>= next) where
  toNearsighted := nearsighted_get (fun state => (h state).toNearsighted) hsame
  consumes := steady_get.consumes fun state => (h state).consumes
  closes {before after value} hending hrun hahead hjoins := by
    rw [bind_of_ok (get_apply before)] at hrun
    rw [bind_of_ok (get_apply (x.state before)), hsame]
    exact (h before).closes hending hrun hahead hjoins

/-! ### Statements -/

section
variable {expression : Rule Expression} (h : x.Nearsighted expression)
include h

theorem closing_varDeclaration : x.Closing (varDeclaration expression) := by
  refine (nearsighted_expect _ _).closing fun name => (nearsighted_eat? _).closing fun equals => ?_
  cases equals with
  | none =>
    exact (nearsighted_pure none).closing fun _ => (closing_expect (by decide) _).yield _
  | some _ => exact (h.map some).closing fun _ => (closing_expect (by decide) _).yield _

theorem closing_expressionStatement : x.Closing (expressionStatement expression) :=
  h.closing fun _ => (closing_expect (by decide) _).yield _

theorem closing_printStatement : x.Closing (printStatement expression) :=
  h.closing fun _ => (closing_expect (by decide) _).yield _

/-- What follows `return`, behind the check where it stands. -/
theorem closing_returned (keyword : Token) : x.Closing (do
    let value ← if ← check .semicolon then pure none else some <$> expression
    let _ ← expect .semicolon "Expect ';' after return value."
    return Statement.returnWith value keyword.line) := by
  refine (nearsighted_check _).closing fun bare => ?_
  cases bare with
  | true => exact (nearsighted_pure none).closing fun _ => (closing_expect (by decide) _).yield _
  | false => exact (h.map some).closing fun _ => (closing_expect (by decide) _).yield _

theorem closing_returnStatement (keyword : Token) :
    x.Closing (returnStatement expression keyword) :=
  closing_get (fun _ => .ite ((nearsighted_report _ _).closing fun _ => closing_returned h keyword)
    (closing_returned h keyword)) fun _ => rfl

theorem nearsighted_initializer : x.Nearsighted (initializer expression) :=
  (nearsighted_eat? _).bind fun _ => .ite (nearsighted_pure _) <| (nearsighted_eat? _).bind fun _ =>
    .ite ((closing_varDeclaration h).toNearsighted.bind fun _ => nearsighted_pure _)
      ((closing_expressionStatement h).toNearsighted.bind fun _ => nearsighted_pure _)

theorem nearsighted_clause (closing : TokenKind) : x.Nearsighted (clause expression closing) :=
  (nearsighted_check _).bind fun _ =>
    .ite (nearsighted_pure _) (h.bind fun _ => nearsighted_pure _)

variable {statement : Rule Statement} (hstatement : x.Closing statement)
include hstatement

theorem closing_whileStatement : x.Closing (whileStatement expression statement) :=
  (nearsighted_expect _ _).closing fun _ => h.closing fun _ => (nearsighted_expect _ _).closing
    fun _ => hstatement.yield _

theorem closing_forStatement : x.Closing (forStatement expression statement) :=
  (nearsighted_expect _ _).closing fun _ => (nearsighted_initializer h).closing fun _ =>
    (nearsighted_clause h _).closing fun _ => (nearsighted_expect _ _).closing fun _ =>
      (nearsighted_clause h _).closing fun _ => (nearsighted_expect _ _).closing fun _ =>
        hstatement.yield _

omit h in
/-- Behind a branch, the next token is looked at, to see whether it is an `else`. -/
theorem closing_branches (condition : Expression) : x.Closing (do
    let success ← statement
    match ← eat? (.keyword .elseWord) with
    | some _ => return Statement.ifElse condition success (← statement)
    | none => return .ifThen condition success) where
  toNearsighted := by
    refine hstatement.bind fun success => (nearsighted_eat? _).bind fun otherwise => ?_
    cases otherwise with
    | none => exact nearsighted_pure _
    | some _ => exact hstatement.bind fun _ => nearsighted_pure _
  consumes := by
    refine hstatement.consumes.bind fun success => (steady_eat? _).bind fun otherwise => ?_
    cases otherwise with
    | none => exact steady_pure _
    | some _ => exact hstatement.steady.bind fun _ => steady_pure _
  closes {before after value} hending hrun hahead hjoins := by
    obtain ⟨success, between, hfirst, hrun⟩ := bind_eq_ok.1 hrun
    obtain ⟨otherwise, behind, helse, hrun⟩ := bind_eq_ok.1 hrun
    have hendingBetween := (hstatement.steady.of_ok hfirst).ending ▸ hending
    cases otherwise with
    | none =>
      cases hrun
      obtain ⟨_, _, hsome, -⟩ | ⟨-, hkind, rfl⟩ := eat?_eq_ok helse hendingBetween (by decide)
      · cases hsome
      rw [bind_of_ok (hstatement.closes hending hfirst hahead hjoins), bind_apply, eat?_apply,
        if_neg fun heq => hkind (hjoins.2 heq)]
      rfl
    | some token =>
      have hcontinues := (steady_eat? _).of_ok helse
      have hlast := hstatement.yield (Statement.ifElse condition success)
      have hendingBehind := hcontinues.ending ▸ hendingBetween
      have hbehind : x.Clear behind := hahead.clear_of_lt (hlast.steady.of_ok hrun).rest
        (hlast.consumes hrun hendingBehind)
      have hbetween : x.Clear between := hbehind.of_suffix hcontinues.rest
      rw [bind_of_ok (hstatement.eq_of_clear hending hfirst hbetween),
        bind_of_ok ((nearsighted_eat? _).eq_of_clear hendingBetween helse hbehind)]
      exact hlast.closes hendingBehind hrun hahead hjoins

theorem closing_ifStatement : x.Closing (ifStatement expression statement) :=
  (nearsighted_expect _ _).closing fun _ => h.closing fun condition =>
    (nearsighted_expect _ _).closing fun _ => closing_branches hstatement condition

end

/-! ### Declarations -/

/-- A declaration, unless the block or everything ends. -/
def entryStep (declaration : Rule (Option Statement)) (earlier : Array Statement) :
    Rule (Array Statement ⊕ List Statement) := do
  if (← check .rightBrace) || (← peek).isEnd then return .inr earlier.toList
  else match ← declaration with
    | some statement => return .inl (earlier.push statement)
    | none => return .inl earlier

section
variable {rule : Rule Statement} (h : x.Closing rule)
include h

theorem nearsighted_entryStep (earlier : Array Statement) :
    x.Nearsighted (entryStep (recovering rule) earlier) := by
  refine (nearsighted_check _).bind fun _ => nearsighted_peek.bind fun _ =>
    .ite (nearsighted_pure _) (h.toNearsighted.recovering.bind fun found => ?_)
  cases found <;> exact nearsighted_pure _

omit h in
theorem repeats_entries (hsteady : Steady rule) (hconsumes : Consumes rule) :
    Repeats (entryStep (recovering rule)) (entries (recovering rule)) where
  step_steady earlier := by
    refine (steady_check _).bind fun _ => steady_peek.bind fun _ =>
      .ite (steady_pure _) (hsteady.recovering.bind fun found => ?_)
    cases found <;> exact steady_pure _
  last_steady _ := steady_pure _
  round spare budget earlier := by
    rw [entries, entryStep, bind_assoc]
    refine bind_congr fun closed => ?_
    rw [bind_assoc]
    refine bind_congr fun token => ?_
    split
    · rfl
    · rw [bind_assoc]
      refine bind_congr fun found => ?_
      cases found <;> rfl
  reads {earlier more before after} hending hne hrun := by
    rw [entryStep, bind_of_ok (check_apply _ before), bind_of_ok (peek_apply before)] at hrun
    split at hrun
    · cases hrun
    · obtain ⟨found, between, hfound, hrun⟩ := bind_eq_ok.1 hrun
      have hless := hconsumes.recovering hsteady hfound hending hne
      cases found <;>
      · cases hrun
        exact hless

theorem closing_block : x.Closing (block (recovering rule)) := by
  have hentries := (repeats_entries h.steady h.consumes).nearsighted (nearsighted_entryStep h) #[]
  have hbrace : x.Closing (expect .rightBrace "Expect '\x7d' after block.") :=
    closing_expect (by decide) _
  have hclosing := hentries.closing fun statements => hbrace.yield fun _ => statements
  rwa [bind_assoc] at hclosing

theorem closing_functionRule : x.Closing (functionRule (recovering rule)) := by
  have hparameter : x.Nearsighted parameter :=
    (nearsighted_expect _ _).bind fun _ => nearsighted_pure _
  exact (nearsighted_expect _ _).closing fun _ => (nearsighted_expect _ _).closing fun _ =>
    (hparameter.commaSeparated _).closing fun _ => (nearsighted_expect _ _).closing fun _ =>
      (nearsighted_expect _ _).closing fun _ => (closing_block h).inFunction.yield _

end

section
variable {parts : Parts} (hexpression : x.Nearsighted parts.expression)
  (hstatement : x.Closing parts.statement) (hfunction : x.Closing parts.function)
include hexpression hstatement hfunction

/-- What a declaration recovers from is a rule that closes. -/
theorem exists_recovering_eq : ∃ rule : Rule Statement,
    declarationRule parts = recovering rule ∧ x.Closing rule :=
  ⟨_, rfl, (nearsighted_eat? _).closing fun _ => (closing_varDeclaration hexpression).ite
    ((nearsighted_eat? _).closing fun _ => hfunction.ite hstatement)⟩

theorem closing_statementRule : x.Closing (statementRule parts) := by
  refine nearsighted_peek.closing fun token => ?_
  split
  · exact nearsighted_advance.closing fun _ => closing_forStatement hexpression hstatement
  · exact nearsighted_advance.closing fun _ => closing_ifStatement hexpression hstatement
  · exact nearsighted_advance.closing fun _ => closing_printStatement hexpression
  · exact nearsighted_advance.closing fun keyword => closing_returnStatement hexpression keyword
  · exact nearsighted_advance.closing fun _ => closing_whileStatement hexpression hstatement
  · obtain ⟨rule, heq, hrule⟩ := exists_recovering_eq hexpression hstatement hfunction
    rw [heq]
    exact nearsighted_advance.closing fun _ => (closing_block hrule).yield _
  · exact closing_expressionStatement hexpression

end

theorem exists_recovering_levels {levels : Nat} (hstatement : x.Closing (statement levels))
    (hfunction : x.Closing (function levels)) : ∃ rule : Rule Statement,
      declarationRule ⟨expression levels, statement levels, function levels⟩ = recovering rule ∧
        x.Closing rule :=
  exists_recovering_eq (nearsighted_expression levels) hstatement hfunction

theorem closing_levels (levels : Nat) :
    x.Closing (statement levels) ∧ x.Closing (function levels) := by
  induction levels with
  | zero => exact ⟨closing_reject _, closing_reject _⟩
  | succ levels ih =>
    have hexpression : x.Nearsighted (expression levels) := nearsighted_expression levels
    obtain ⟨rule, heq, hrule⟩ := exists_recovering_levels ih.1 ih.2
    refine ⟨(closing_statementRule hexpression ih.1 ih.2).nested, ?_⟩
    rw [function, heq]
    exact (closing_functionRule hrule).nested

end Exchange

/-! ### Rejections -/

/-- Where the rule is rejected, it is for a cause that abandons the declaration at hand. -/
def Abandons (rule : Rule α) : Prop :=
  ∀ ⦃before after : State⦄ ⦃error : SyntaxError⦄,
    rule before = .error (.rejected error) after → error.cause.abandons = true

theorem Abandons.bind {rule : Rule α} {next : α → Rule β} (first : Abandons rule)
    (second : ∀ value, Abandons (next value)) : Abandons (rule >>= next) := by
  intro before after error hrun
  rw [bind_apply] at hrun
  cases hfirst : rule before with
  | ok value between =>
    rw [hfirst] at hrun
    exact second value hrun
  | error failure between =>
    rw [hfirst] at hrun
    cases hrun
    exact first hfirst

theorem Abandons.nested {rule : Rule α} (h : Abandons rule) : Abandons (nested rule) := by
  intro before after error hrun
  rw [Grammar.nested] at hrun
  split at hrun
  case isTrue =>
    cases hrun
    rfl
  case isFalse =>
    split at hrun
    case h_1 => cases hrun
    case h_2 failure inner hinner =>
      cases hrun
      exact h hinner

theorem Abandons.inFunction {rule : Rule α} (h : Abandons rule) : Abandons (inFunction rule) := by
  intro before after error hrun
  rw [Grammar.inFunction] at hrun
  split at hrun
  case h_1 => cases hrun
  case h_2 failure inner hinner =>
    cases hrun
    exact h hinner

theorem Abandons.building {rule : Rule Nat} (h : Abandons rule) : Abandons (building rule) := by
  intro before after error hrun
  rw [Grammar.building] at hrun
  split at hrun
  case h_1 => cases hrun
  case h_2 failure inner hinner =>
    cases hrun
    exact h hinner

theorem Abandons.primary {inner : Rule Nat} (h : Abandons inner) : Abandons (primary inner) := by
  have hpeek : Abandons peek := by
    intro before after error hrun
    cases hrun
  have hadvance : Abandons advance := by
    intro before after error hrun
    cases hrun
  have haddNode (node : Node) : Abandons (addNode node) := by
    intro before after error hrun
    cases hrun
  have hmissing (token : Token) : Abandons (throw (.missingValue token) : Rule Nat) := by
    intro before after error hrun
    cases hrun
  have hexpect : Abandons (expect .rightParen "Expect ')' after expression.") := by
    intro before after error hrun
    rw [expect_apply] at hrun
    split at hrun <;> cases hrun
    rfl
  have hleaf (node : Node) : Abandons (leaf node) := hadvance.bind fun _ => haddNode node
  refine hpeek.bind fun token => ?_
  split
  · exact hleaf _
  · exact hleaf _
  · exact hleaf _
  · cases token.value with
    | some value => exact hleaf _
    | none => exact hmissing token
  · cases token.value with
    | some value => exact hleaf _
    | none => exact hmissing token
  · exact hleaf _
  · exact hadvance.bind fun _ => h.bind fun _ => hexpect.bind fun _ => haddNode _
  · intro before after error hrun
    cases hrun
    rfl

theorem hereditary_abandons : HereditaryToNodes Abandons where
  pure _ _ _ _ hrun := by cases hrun
  get _ _ _ hrun := by cases hrun
  advance _ _ _ hrun := by cases hrun
  reject habandons _ _ _ hrun := by
    cases hrun
    exact habandons
  report _ _ _ _ _ hrun := by cases hrun
  addNode _ _ _ _ hrun := by cases hrun
  bind := .bind
  nested := .nested
  inFunction := .inFunction
  building := .building
  recovering _ _ _ _ hrun := absurd hrun recovering_ne_rejected
  primary := .primary

/-- What yields nothing has recorded why it was abandoned. -/
theorem Abandons.exists_of_recovering {rule : Rule α} (h : Abandons rule) {before after : State}
    (hrun : recovering rule before = .ok none after) :
    ∃ error ∈ after.errors.toList, error.cause.abandons = true := by
  rw [recovering] at hrun
  split at hrun
  case h_1 => cases hrun
  case h_2 error inner hinner =>
    cases hrun
    exact ⟨error, by simp, h hinner⟩
  case h_3 => cases hrun

theorem of_recovering {rule : Rule α} {before after : State} {value : α}
    (hrun : recovering rule before = .ok (some value) after) : rule before = .ok value after := by
  rw [recovering] at hrun
  split at hrun <;> cases hrun
  assumption

/-! ### Declarations in front of others -/

namespace Exchange

variable {x : Exchange} {before after : State}

/-- A declaration that is not abandoned is read alike with other tokens behind it. -/
theorem declaration_eq {levels : Nat} {found : Option Statement}
    (hending : before.ending.kind = .eof) (hrun : declaration levels before = .ok found after)
    (hsound : ∀ error ∈ after.errors.toList, error.cause.abandons = false)
    (hahead : x.Ahead after) (hjoins : x.Joins after) :
    declaration levels (x.state before) = .ok found (x.state after) := by
  obtain ⟨hstatement, hfunction⟩ : x.Closing (statement levels) ∧ x.Closing (function levels) :=
    closing_levels levels
  obtain ⟨rule, heq, hrule⟩ := exists_recovering_levels hstatement hfunction
  obtain ⟨other, hother, habandons⟩ :=
    hereditary_abandons.exists_declaration_eq hereditary_abandons.expression levels
  cases found with
  | none =>
    rw [hother] at hrun
    obtain ⟨error, hmem, habandons⟩ := habandons.exists_of_recovering hrun
    rw [hsound error hmem] at habandons
    cases habandons
  | some statement =>
    rw [declaration, heq] at hrun
    rw [declaration, heq, recovering, hrule.closes hending (of_recovering hrun) hahead hjoins]

variable (htail : x.tail = []) (hother : (x.other.headD x.ending).kind ≠ .keyword .elseWord)
include htail

theorem ahead_of_nil : x.Ahead before := ⟨before.rest, by rw [htail, List.append_nil]⟩

include hother

/-- In front of tokens that do not begin with an `else`, reading ends as it does at the end. -/
theorem joins_of_nil (hending : before.ending.kind = .eof) : x.Joins before := by
  cases hrest : before.rest with
  | nil =>
    have hahead : (x.state before).ahead = x.other.headD x.ending := by
      rw [State.ahead, rest_state [] (by rw [hrest, htail]; rfl)]
      rfl
    rw [Joins, hahead, State.ahead, hrest]
    exact iff_of_false (by simp [hending]) hother
  | cons token front =>
    have hclear : x.Clear before := ⟨token, front, by rw [hrest, htail, List.append_nil]⟩
    rw [Joins, hclear.ahead_state]

/-- The declarations in front of others are read, and then the others are. -/
theorem declarations_state {budget : List Token} : ∀ {more : List Token}
    {earlier : Array (Option Statement)} {before after : State} {values : List (Option Statement)},
    declarations budget earlier before = .ok values after → before.ending.kind = .eof →
    before.rest.length ≤ budget.length → (x.state before).rest.length ≤ more.length →
    (∀ token ∈ before.rest, token.kind ≠ .eof) →
    (∀ error ∈ after.errors.toList, error.cause.abandons = false) →
    after.rest = [] ∧ declarations more earlier (x.state before) =
      declarations x.other values.toArray (x.state after) := by
  have hlast {more : List Token} {earlier : Array (Option Statement)} {before : State}
      (hrest : before.rest = []) (hmore : (x.state before).rest.length ≤ more.length) :
      declarations more earlier (x.state before) =
        declarations x.other earlier.toList.toArray (x.state before) := by
    have hleft : (x.state before).rest = x.other :=
      rest_state [] (by rw [hrest, htail, List.append_nil])
    exact declarations_congr_budget x.ending_kind hmore (by rw [hleft])
  induction budget with
  | nil =>
    intro more earlier before after values hrun hending hbudget hmore _ _
    have hrest := List.length_eq_zero_iff.1 (Nat.le_zero.1 hbudget)
    cases hrun
    exact ⟨hrest, hlast hrest hmore⟩
  | cons spare budget ih =>
    intro more earlier before after values hrun hending hbudget hmore hopen hsound
    cases hrest : before.rest with
    | nil =>
      rw [declarations_of_end (by simp [State.ahead, hrest, hending])] at hrun
      cases hrun
      exact ⟨hrest, hlast hrest hmore⟩
    | cons token front =>
      have hclear : x.Clear before := ⟨token, front, by rw [hrest, htail, List.append_nil]⟩
      have hahead : before.ahead.kind ≠ .eof := by
        rw [State.ahead_of_rest hrest]
        exact hopen token (by simp [hrest])
      rw [declarations_of_other hahead] at hrun
      obtain ⟨found, between, hfound, hrun⟩ := bind_eq_ok.1 hrun
      have hcontinues := steady_declaration.of_ok hfound
      have hbehind := (steady_declarations budget (earlier.push found)).of_ok hrun
      have hendingBetween := hcontinues.ending ▸ hending
      have hread := declaration_eq hending hfound
        (fun error hmem => hsound error (hbehind.errors.subset hmem)) (ahead_of_nil htail)
        (joins_of_nil htail hother hendingBetween)
      have hless := length_lt_of_declaration hfound hending (by simp [hrest])
      have hlength := hclear.toAhead.length_state
      have haheadBetween : x.Ahead between := ahead_of_nil htail
      have hlengthBetween := haheadBetween.length_state
      rw [List.length_cons] at hbudget
      obtain ⟨another, more, rfl⟩ := List.exists_cons_of_length_pos (show 0 < more.length by omega)
      rw [List.length_cons] at hmore
      rw [declarations_of_other (hclear.ahead_state ▸ hahead), bind_of_ok hread]
      exact ih hrun hendingBetween (by omega) (by omega)
        (fun token hmem => hopen token (hcontinues.rest.subset hmem)) hsound

end Exchange

theorem State.kind_ne_eof_of_mem_rest {tokens : List Token} :
    ∀ token ∈ (State.ofTokens tokens).rest, token.kind ≠ .eof := by
  intro token hmem
  simpa [Token.isEnd] using List.mem_takeWhile_imp hmem

/-- In front of tokens without an end, these are left, and an end is made up. -/
theorem State.ofTokens_of_open {tokens : List Token} (hopen : ∀ token ∈ tokens, token.kind ≠ .eof) :
    State.ofTokens tokens = { rest := tokens, ending := endOf tokens } := by
  have hisEnd : ∀ token ∈ tokens, token.isEnd = false := by simpa [Token.isEnd] using hopen
  have hrest : tokens.takeWhile (!·.isEnd) = tokens := by simpa using hisEnd
  have hnone : tokens.find? Token.isEnd = none := by simpa using hisEnd
  rw [State.ofTokens, hrest, hnone, Option.getD_none]

theorem State.headD_ofTokens_ne {tokens : List Token} {kind : TokenKind}
    (h : ∀ first ∈ tokens.head?, first.kind ≠ kind) (hkind : kind ≠ .eof) :
    ((State.ofTokens tokens).rest.headD (State.ofTokens tokens).ending).kind ≠ kind := by
  have hending : (State.ofTokens tokens).ending.kind ≠ kind :=
    fun heq => hkind (heq.symm.trans (State.ending_kind_ofTokens tokens))
  cases tokens with
  | nil => exact hending
  | cons first tokens =>
    cases hend : first.isEnd with
    | true =>
      have hrest : (State.ofTokens (first :: tokens)).rest = [] := by
        simp [State.ofTokens, hend]
      rw [hrest]
      exact hending
    | false =>
      have hrest : (State.ofTokens (first :: tokens)).rest =
          first :: tokens.takeWhile (!·.isEnd) := by simp [State.ofTokens, hend]
      rw [hrest]
      exact h first rfl

/-- All levels and all bodies of functions are closed again behind a list of declarations. -/
theorem eq_of_declarations {tokens budget : List Token} {ending : Token}
    {values : List (Option Statement)} {after : State}
    (hrun : declarations budget #[] { rest := tokens, ending } = .ok values after) :
    after = { rest := after.rest, ending, errors := after.errors } := by
  obtain ⟨-, hending, hnesting, hfunctionDepth, -, -⟩ := (steady_declarations budget #[]).of_ok hrun
  have hnodes := hereditary_keepsNodes.declarations (fun _ => keepsNodes_building _) budget #[]
    { rest := tokens, ending }
  rw [endState, hrun] at hnodes
  cases after
  cases hending
  cases hnesting
  cases hfunctionDepth
  cases hnodes
  rfl

end Grammar

open Grammar

/-- Nothing behind the first end is looked at, and one that is missing may be put there. -/
theorem Program.ofTokens_rest_append_ending (tokens : List Token) :
    ofTokens ((State.ofTokens tokens).rest ++ [(State.ofTokens tokens).ending]) =
      ofTokens tokens := by
  have hending := State.ending_kind_ofTokens tokens
  have hle : (State.ofTokens tokens).rest.length ≤ tokens.length :=
    (List.takeWhile_prefix _).length_le
  have hbudget : Grammar.declarations ((State.ofTokens tokens).rest ++
      [(State.ofTokens tokens).ending]) #[]
        { rest := (State.ofTokens tokens).rest, ending := (State.ofTokens tokens).ending } =
      Grammar.declarations tokens #[] (.ofTokens tokens) :=
    declarations_congr_budget hending (by simp) hle
  rw [ofTokens, ofTokens, State.ofTokens_append hending State.kind_ne_eof_of_mem_rest, hbudget]

theorem Program.eq_of_ofTokens {tokens : List Token} {program : Program}
    (h : ofTokens tokens = .ok program) : ∃ after,
      Grammar.declarations tokens #[] (.ofTokens tokens) = .ok program.declarations after ∧
        program.errors = after.errors.toList := by
  unfold ofTokens at h
  split at h
  case h_1 values after heq =>
    cases h
    exact ⟨after, heq, rfl⟩
  case h_2 error after heq => exact absurd heq declarations_ne_rejected
  case h_3 => cases h

/-- Parsing distributes over concatenation. In front of any tokens that do not begin with an `else`,
tokens without an end that are read without being abandoned anywhere keep their declarations and
their errors, and what is behind them is read as if it stood alone, whatever is wrong with it. -/
theorem ofTokens_distributes {tokens others : List Token} {program : Program}
    (hopen : ∀ token ∈ tokens, token.kind ≠ .eof)
    (hread : Program.ofTokens tokens = .ok program)
    (hsound : ∀ error ∈ program.errors, error.cause.abandons = false)
    (helse : ∀ first ∈ others.head?, first.kind ≠ .keyword .elseWord) :
    Program.ofTokens (tokens ++ others) = (Program.ofTokens others).map fun behind =>
      ⟨program.declarations ++ behind.declarations, program.errors ++ behind.errors⟩ := by
  by_cases hne : others = []
  · subst hne
    rw [List.append_nil, hread]
    simp [Program.ofTokens, Grammar.declarations, pure_apply, State.ofTokens, Except.map]
  let x : Exchange := ⟨[], (State.ofTokens others).rest, (State.ofTokens others).ending,
    State.ending_kind_ofTokens others⟩
  have hother : (x.other.headD x.ending).kind ≠ .keyword .elseWord :=
    State.headD_ofTokens_ne helse (by decide)
  have hstart : (State.ofTokens tokens).rest = tokens :=
    List.takeWhile_eq_self_iff.2 fun token hmem => by simpa [Token.isEnd] using hopen token hmem
  have hending := State.ending_kind_ofTokens tokens
  obtain ⟨after, hrun, herrors⟩ := Program.eq_of_ofTokens hread
  have hbefore : (x.state (State.ofTokens tokens)).rest = tokens ++ x.other :=
    Exchange.rest_state tokens (by rw [hstart, List.append_nil])
  obtain ⟨hrest, hmirror⟩ := Exchange.declarations_state (x := x) rfl hother hrun hending
    (Nat.le_of_eq (congrArg _ hstart)) (Nat.le_of_eq (congrArg _ hbefore)) (hstart.symm ▸ hopen)
    (herrors ▸ hsound)
  have hafter : x.state after =
      { rest := x.other, ending := x.ending, errors := after.errors } := by
    rw [eq_of_declarations hrun, Exchange.state, hrest]
    rfl
  have hexchanged : x.state (State.ofTokens tokens) =
      { rest := tokens ++ x.other, ending := x.ending } := by
    rw [← hbefore]
    rfl
  rw [hafter, hexchanged] at hmirror
  have hbehind := ofTokens_of_declarations x.ending_kind
    (List.forall_mem_append.2 ⟨hopen, State.kind_ne_eof_of_mem_rest⟩) State.kind_ne_eof_of_mem_rest
    (Nat.le_refl _) hmirror
  rw [← Program.ofTokens_rest_append_ending (tokens ++ others),
    State.ofTokens_append_others hopen hne, hbehind, Program.ofTokens_rest_append_ending, herrors]

/-- The tokens of `return;`, which stands outside of a function. -/
private def returning : List Token :=
  [(Mark.plain (.keyword .returnWord) "return" 1).token, (Mark.plain .semicolon ";" 1).token]

/-- The tokens of `) ;`, which are no declaration. -/
private def stray : List Token :=
  [(Mark.plain .rightParen ")" 2).token, (Mark.plain .semicolon ";" 2).token]

/-- The error in front is kept as well as the one behind, where a declaration is missing. -/
theorem ofTokens_distributes_returning : ∃ recorded rejected : SyntaxError,
    Program.ofTokens returning = .ok ⟨[some (.returnWith none 1)], [recorded]⟩ ∧
      (∀ error ∈ [recorded], error.cause.abandons = false) ∧
      Program.ofTokens (returning ++ stray) =
        .ok ⟨[some (.returnWith none 1), none], [recorded, rejected]⟩ := by
  have hread : Program.ofTokens returning = .ok ⟨[some (.returnWith none 1)],
      [⟨.returnOutsideFunction, (Mark.plain (.keyword .returnWord) "return" 1).token⟩]⟩ := rfl
  have helse : ∀ first ∈ stray.head?, first.kind ≠ .keyword .elseWord := by decide
  have hwhole := ofTokens_distributes (by decide) hread (by decide) helse
  have hstray : Program.ofTokens stray = .ok ⟨[none],
      [⟨.notExpression, (Mark.plain .rightParen ")" 2).token⟩]⟩ := rfl
  rw [hstray] at hwhole
  exact ⟨_, _, hread, by decide, hwhole⟩

end Lox
