import Lox.Proofs.Grammar.Statements

/-!
# What the rules for declarations parse

Blocks list declarations, and declarations and statements contain each other. Both are read off from
what is parsed one level deeper, and the knot is tied on the number of free levels.
-/

namespace Lox.Grammar

variable {inBody : Bool} {nesting levels : Nat}

/-- An entry, in front of no `else` that would be its own. -/
def Shape.entry (inBody : Bool) (levels : Nat) : Shape Statement := fun statement tokens ahead =>
  ∃ dangling, Statement.Listed inBody levels dangling statement tokens ∧
    (dangling = true → ahead.kind ≠ .keyword .elseWord)

/-- An entry that was not abandoned. -/
def Shape.declaration (inBody : Bool) (levels : Nat) : Shape (Option Statement) :=
  fun found tokens ahead =>
    ∃ statement, found = some statement ∧ Shape.entry inBody levels statement tokens ahead

/-! ### Blocks -/

section
variable {declaration : Rule (Option Statement)}

theorem entries_of_end {budget : List Token} {earlier : Array Statement} {before : State}
    (h : before.ahead.kind = .rightBrace ∨ before.ahead.kind = .eof) :
    entries declaration budget earlier before = .ok earlier.toList before := by
  cases budget with
  | nil => rfl
  | cons _ budget =>
    have hdone : (before.ahead.kind == .rightBrace || before.ahead.isEnd) = true := by
      simpa [Token.isEnd] using h
    rw [entries, bind_of_ok (check_apply ..), bind_of_ok (peek_apply before), if_pos hdone,
      pure_apply]

theorem entries_of_other {budget : List Token} {spare : Token} {earlier : Array Statement}
    {before : State} (hbrace : before.ahead.kind ≠ .rightBrace) (hend : before.ahead.kind ≠ .eof) :
    entries declaration (spare :: budget) earlier before =
      (do
        match ← declaration with
        | some statement => entries declaration budget (earlier.push statement)
        | none => entries declaration budget earlier) before := by
  have hmore : ¬(before.ahead.kind == .rightBrace || before.ahead.isEnd) = true := by
    simp [Token.isEnd, hbrace, hend]
  rw [entries, bind_of_ok (check_apply ..), bind_of_ok (peek_apply before)]
  exact congrFun (if_neg hmore) before

theorem steady_entries (h : Steady declaration) (budget : List Token) (earlier : Array Statement) :
    Steady (entries declaration budget earlier) := by
  induction budget generalizing earlier with
  | nil => exact steady_pure _
  | cons _ budget ih =>
    refine (steady_check _).bind fun _ => steady_peek.bind fun _ => .ite (steady_pure _) ?_
    refine h.bind fun found => ?_
    cases found with
    | none => exact ih _
    | some statement => exact ih _

variable (h : Parses inBody nesting declaration (.declaration inBody levels))
include h

/-- Round by round, an entry in front of those of the rounds to come. -/
theorem entries_sound {budget : List Token} : ∀ {earlier : Array Statement} {before after : State}
    {values : List Statement}, entries declaration budget earlier before = .ok values after →
    before.Inside inBody nesting → after.errors = before.errors →
    ∃ (body : List Statement) (tokens tail : List Token), values = earlier.toList ++ body ∧
      Statement.AllListed inBody levels body tokens ∧ before.rest = tokens ++ tail ∧
      after = before.to tail := by
  induction budget with
  | nil =>
    intro earlier before after values hrun _ _
    cases hrun
    exact ⟨[], [], before.rest, by simp, .nil, rfl, rfl⟩
  | cons spare budget ih =>
    intro earlier before after values hrun hinside hclean
    by_cases hdone : before.ahead.kind = .rightBrace ∨ before.ahead.kind = .eof
    · rw [entries_of_end hdone] at hrun
      cases hrun
      exact ⟨[], [], before.rest, by simp, .nil, rfl, rfl⟩
    · obtain ⟨hbrace, hend⟩ := not_or.1 hdone
      rw [entries_of_other hbrace hend] at hrun
      obtain ⟨found, between, hfound, hmore⟩ := bind_eq_ok.1 hrun
      have hcontinues : between.Continues after := by
        cases found with
        | none => exact (steady_entries h.steady _ _).of_ok hmore
        | some _ => exact (steady_entries h.steady _ _).of_ok hmore
      obtain ⟨hbetween, hafter⟩ := (h.steady.of_ok hfound).errors_eq hcontinues hclean
      obtain ⟨tokens, tail, ⟨statement, rfl, dangling, hlisted, -⟩, hrest, rfl⟩ :=
        h.sound hfound hinside hbetween
      obtain ⟨body, others, last, rfl, hall, hothers, rfl⟩ := ih hmore (hinside.to tail) hafter
      obtain rfl : tail = others ++ last := hothers
      exact ⟨statement :: body, tokens ++ others, last, by simp, .cons hlisted hall,
        by rw [hrest, List.append_assoc], rfl⟩

theorem entries_complete (closing : Mark .rightBrace) {tail : List Token} :
    ∀ {body : List Statement} {tokens budget : List Token} {earlier : Array Statement}
      {before : State}, before.Inside inBody nesting →
    Statement.AllListed inBody levels body tokens →
    before.rest = tokens ++ closing.token :: tail → tokens.length ≤ budget.length →
    entries declaration budget earlier before =
      .ok (earlier.toList ++ body) (before.to (closing.token :: tail)) := by
  intro body
  induction body with
  | nil =>
    intro tokens budget earlier before _ hall hrest _
    cases hall
    rw [List.nil_append] at hrest
    rw [entries_of_end (.inl (by rw [State.ahead_of_rest hrest, closing.isKind])), ← hrest]
    simp
  | cons statement body ih =>
    intro tokens budget earlier before hinside hall hrest hbudget
    cases hall with
    | @cons _ dangling _ _ _ first others hlisted hothers =>
      obtain ⟨token, rest, hfirst, hopens⟩ := hlisted.exists_first
      cases budget with
      | nil => simp [hfirst] at hbudget
      | cons spare budget =>
        rw [List.append_assoc] at hrest
        have hahead : before.ahead = token := State.ahead_of_rest (by rw [hrest, hfirst]; rfl)
        have hread := h.complete hinside hrest ⟨statement, rfl, dangling, hlisted, fun _ =>
          hothers.headD_ne rfl (by simp [closing.isKind])⟩
        rw [entries_of_other (hahead ▸ TokenKind.ne_of_opensEntry hopens rfl)
          (hahead ▸ TokenKind.ne_of_opensEntry hopens rfl), bind_of_ok hread]
        have hlength : others.length ≤ budget.length := by
          simp [hfirst] at hbudget
          omega
        refine (ih (hinside.to _) hothers rfl hlength).trans ?_
        simp

theorem parses_block : Parses inBody nesting (block declaration) fun body tokens _ =>
    ∃ (inside : List Token) (closing : Mark .rightBrace),
      Statement.AllListed inBody levels body inside ∧ tokens = inside ++ [closing.token] where
  steady := steady_get.bind fun _ => (steady_entries h.steady _ _).bind fun _ =>
    (steady_expect _ _).bind fun _ => steady_pure _
  sound {before after value} hrun hinside hclean := by
    rw [block, bind_of_ok (get_apply before)] at hrun
    obtain ⟨values, between, hentries, hrun⟩ := bind_eq_ok.1 hrun
    obtain ⟨closing, last, hclosing, hdone⟩ := bind_eq_ok.1 hrun
    cases hdone
    obtain ⟨hbetween, -⟩ := ((steady_entries h.steady _ _).of_ok hentries).errors_eq
      ((steady_expect _ _).of_ok hclosing) hclean
    obtain ⟨body, tokens, tail, rfl, hall, hrest, rfl⟩ := entries_sound h hentries hinside hbetween
    obtain ⟨others, htail, hkind, rfl⟩ := expect_eq_ok hclosing hinside.ending_kind (by decide)
    obtain rfl : tail = closing :: others := htail
    exact ⟨tokens ++ [closing], others, ⟨tokens, ⟨closing, hkind⟩, by simpa using hall, rfl⟩,
      by rw [hrest, List.append_assoc]; rfl, rfl⟩
  complete {before body _ tail} hinside hrest hshape := by
    obtain ⟨inside, closing, hall, rfl⟩ := hshape
    rw [List.append_assoc, List.singleton_append] at hrest
    have hentries : entries declaration before.rest #[] before = _ :=
      entries_complete h closing hinside hall hrest (by simp [hrest])
    rw [block, bind_of_ok (get_apply before), bind_of_ok hentries,
      bind_of_ok (expect_of_rest rfl closing.isKind)]
    simp [pure_apply]

end

/-- What follows `fun`, given that the entries of its body are parsed. -/
theorem parses_functionRule {declaration : Rule (Option Statement)}
    (h : Parses true nesting declaration (.declaration true levels)) :
    Parses inBody nesting (functionRule declaration) fun statement tokens _ =>
      Statement.FunctionWritten (levels + 1) statement tokens := by
  have hrule : Parses inBody nesting (functionRule declaration) _ :=
    .afterExpect (by decide) fun name => .afterExpect (by decide) fun _ =>
      parses_parameters.bind fun _ => .afterExpect (by decide) fun _ =>
        .afterExpect (by decide) fun _ => (parses_block h).inFunction.bind fun _ => parses_pure _
  refine hrule.congr fun statement tokens ahead => ⟨?_, ?_⟩
  · rintro ⟨name, _, rfl, opening, _, rfl, _, inside, _, rfl, ⟨marks, rfl, hseparated, hfew, -⟩,
      closing, _, rfl, opened, _, rfl, body, _, _, rfl, ⟨tokens, closed, hall, rfl⟩, rfl, rfl⟩
    rw [List.append_nil]
    exact .mk name opening hseparated hfew closing opened hall closed
  · rintro ⟨name, opening, hseparated, hfew, closing, opened, hall, closed⟩
    refine ⟨name, _, rfl, opening, _, rfl, _, _, _, rfl, ⟨_, rfl, hseparated, hfew, ?_⟩, closing, _,
      rfl, opened, _, rfl, _, _, [], (List.append_nil _).symm, ⟨_, closed, hall, rfl⟩, rfl, rfl⟩
    split
    · exact closing.isKind
    · simp [closing.isKind]

/-! ### Statements by their first token -/

/-- The rule for what follows the first token of a statement. -/
def ruleBehind? (parts : Parts) (first : Token) : Option (Rule Statement) :=
  match first.kind with
  | .keyword .forWord => some (forStatement parts.expression parts.statement)
  | .keyword .ifWord => some (ifStatement parts.expression parts.statement)
  | .keyword .printWord => some (printStatement parts.expression)
  | .keyword .returnWord => some (returnStatement parts.expression first)
  | .keyword .whileWord => some (whileStatement parts.expression parts.statement)
  | .leftBrace => some do return .block (← block (declarationRule parts))
  | _ => none

variable {parts : Parts}

theorem ruleBehind?_eq_none_iff {first : Token} :
    ruleBehind? parts first = none ↔ first.kind.opensStatement = false := by
  unfold ruleBehind? TokenKind.opensStatement
  split <;> simp_all

theorem statementRule_of_none {state : State} (h : ruleBehind? parts state.ahead = none) :
    statementRule parts state = expressionStatement parts.expression state := by
  rw [statementRule, bind_of_ok (peek_apply state)]
  unfold ruleBehind? at h
  split at h <;> simp_all

theorem statementRule_of_some {state : State} {first : Token} {tail : List Token}
    {rule : Rule Statement} (hrest : state.rest = first :: tail)
    (h : ruleBehind? parts first = some rule) : statementRule parts state = rule (state.to tail) := by
  have hadvance : advance state = .ok first (state.to tail) := by
    rw [advance_apply, State.ahead_of_rest hrest, hrest, List.tail_cons]
  rw [statementRule, bind_of_ok (peek_apply state), State.ahead_of_rest hrest]
  unfold ruleBehind? at h
  split at h <;> cases h
  all_goals
    rename_i hkind
    simp only [hkind]
    rw [bind_of_ok hadvance]

/-- What the parts of a declaration have to parse. -/
structure PartsParse (inBody : Bool) (nesting levels : Nat) (parts : Parts) : Prop where
  expression : Parses inBody nesting parts.expression (.expression levels)
  statement : Parses inBody nesting parts.statement (.statement inBody levels)
  function : Parses inBody nesting parts.function fun statement tokens _ =>
    Statement.FunctionWritten levels statement tokens

theorem parses_declarationRule (h : PartsParse inBody nesting levels parts) :
    Parses inBody nesting (declarationRule parts) (.declaration inBody levels) := by
  have hrule : Parses inBody nesting
      (do
        if (← eat? (.keyword .varWord)).isSome then varDeclaration parts.expression
        else if (← eat? (.keyword .funWord)).isSome then parts.function
        else parts.statement) _ :=
    .afterEat? (by decide) (fun _ => parses_varDeclaration h.expression)
      (.afterEat? (by decide) (fun _ => h.function) h.statement)
  refine Parses.recovering (hrule.congr fun statement tokens ahead => ⟨?_, ?_⟩)
  · rintro (⟨keyword, _, rfl, hwritten⟩ |
      ⟨-, ⟨keyword, _, rfl, hwritten⟩ | ⟨-, dangling, hwritten, hahead⟩⟩)
    · exact ⟨false, .var keyword hwritten, by simp⟩
    · exact ⟨false, .function keyword hwritten, by simp⟩
    · exact ⟨dangling, .statement hwritten, hahead⟩
  · rintro ⟨dangling, hlisted, hahead⟩
    cases hlisted with
    | var keyword hwritten => exact .inl ⟨keyword, _, rfl, hwritten⟩
    | function keyword hwritten =>
      exact .inr ⟨by simp [keyword.isKind], .inl ⟨keyword, _, rfl, hwritten⟩⟩
    | statement hwritten =>
      obtain ⟨token, rest, rfl, hopens⟩ := hwritten.exists_first
      refine .inr ⟨?_, .inr ⟨?_, dangling, hwritten, hahead⟩⟩ <;>
      · intro hkind
        simp [show token.kind = _ from hkind, TokenKind.opensExpression,
          TokenKind.opensStatement] at hopens

theorem parses_ruleBehind (h : PartsParse inBody nesting levels parts) {first : Token}
    {rule : Rule Statement} (hrule : ruleBehind? parts first = some rule) :
    Parses inBody nesting rule (.behind inBody levels first.kind first.line) := by
  unfold ruleBehind? at hrule
  split at hrule <;> cases hrule <;> rename_i hkind <;> rw [hkind]
  · exact parses_forStatement h.expression h.statement _
  · exact parses_ifStatement h.expression h.statement _
  · exact parses_printStatement h.expression _
  · exact parses_returnStatement h.expression first
  · exact parses_whileStatement h.expression h.statement _
  · have hblock := (parses_block (parses_declarationRule h)).bind fun body =>
      parses_pure (Statement.block body)
    refine hblock.congr fun statement tokens ahead => ⟨?_, ?_⟩
    · rintro ⟨body, _, _, rfl, ⟨inside, closing, hall, rfl⟩, rfl, rfl⟩
      rw [List.append_nil]
      exact ⟨false, .block hall closing, by simp⟩
    · rintro ⟨_, hbehind, -⟩
      cases hbehind with
      | block hall closing =>
        exact ⟨_, _, [], (List.append_nil _).symm, ⟨_, closing, hall, rfl⟩, rfl, rfl⟩

theorem parses_statementRule (h : PartsParse inBody nesting levels parts) :
    Parses inBody nesting (statementRule parts) (.statement inBody (levels + 1)) where
  steady := by
    refine steady_peek.bind fun token => ?_
    split
    · exact steady_advance.bind fun _ => (parses_forStatement h.expression h.statement 0).steady
    · exact steady_advance.bind fun _ => (parses_ifStatement h.expression h.statement 0).steady
    · exact steady_advance.bind fun _ => (parses_printStatement h.expression 0).steady
    · exact steady_advance.bind fun keyword => (parses_returnStatement h.expression keyword).steady
    · exact steady_advance.bind fun _ => (parses_whileStatement h.expression h.statement 0).steady
    · exact steady_advance.bind fun _ =>
        (parses_block (parses_declarationRule h)).steady.bind fun _ => steady_pure _
    · exact (parses_expressionStatement h.expression).steady
  sound {before after statement} hrun hinside hclean := by
    cases hrule : ruleBehind? parts before.ahead with
    | none =>
      rw [statementRule_of_none hrule] at hrun
      obtain ⟨_, tail, ⟨value, spelling, semicolon, hspelled, rfl, rfl⟩, hrest⟩ :=
        (parses_expressionStatement h.expression).sound hrun hinside hclean
      exact ⟨_, tail, ⟨false, .expression hspelled semicolon, by simp⟩, hrest⟩
    | some rule =>
      obtain ⟨others, hothers⟩ := before.exists_rest_eq_cons hinside.ending_kind fun heof => by
        simp [ruleBehind?, heof] at hrule
      generalize before.ahead = first at hrule hothers
      rw [statementRule_of_some hothers hrule] at hrun
      obtain ⟨tokens, tail, ⟨dangling, hbehind, hahead⟩, hrest, rfl⟩ :=
        (parses_ruleBehind h hrule).sound hrun (hinside.to others) hclean
      obtain rfl : others = tokens ++ tail := hrest
      exact ⟨first :: tokens, tail, ⟨dangling, .behind first hbehind, hahead⟩, hothers, rfl⟩
  complete {before statement tokens tail} hinside hrest hshape := by
    obtain ⟨dangling, hwritten, hahead⟩ := hshape
    cases hwritten with
    | expression hspelled semicolon =>
      obtain ⟨token, rest, hfirst, hopens⟩ := hspelled.exists_first
      have hnone : ruleBehind? parts before.ahead = none := by
        rw [ruleBehind?_eq_none_iff, State.ahead_of_rest (by rw [hrest, hfirst]; rfl)]
        exact TokenKind.opensStatement_of_opensExpression hopens
      rw [statementRule_of_none hnone]
      exact (parses_expressionStatement h.expression).complete hinside hrest
        ⟨_, _, semicolon, hspelled, rfl, rfl⟩
    | behind first hbehind =>
      cases hrule : ruleBehind? parts first with
      | none =>
        rw [ruleBehind?_eq_none_iff, hbehind.opensStatement] at hrule
        cases hrule
      | some rule =>
        rw [statementRule_of_some hrest hrule]
        exact (parses_ruleBehind h hrule).complete (hinside.to _) rfl ⟨dangling, hbehind, hahead⟩

theorem parses_levels (levels : Nat) : ∀ (inBody : Bool) (nesting : Nat),
    nesting + levels ≤ maxNesting →
    Parses inBody nesting (statement levels) (.statement inBody levels) ∧
      Parses inBody nesting (function levels) fun statement tokens _ =>
        Statement.FunctionWritten levels statement tokens := by
  induction levels with
  | zero =>
    intro inBody nesting _
    refine ⟨(parses_reject _).congr fun statement tokens ahead => ⟨False.elim, ?_⟩,
      (parses_reject _).congr fun statement tokens ahead => ⟨False.elim, ?_⟩⟩
    · rintro ⟨_, hwritten, -⟩
      cases hwritten
    · intro hwritten
      cases hwritten
  | succ levels ih =>
    intro inBody nesting hroom
    have hparts (inBody : Bool) : PartsParse inBody (nesting + 1) levels
        ⟨expression levels, statement levels, function levels⟩ :=
      have ⟨hstatement, hfunction⟩ := ih inBody (nesting + 1) (by omega)
      ⟨parses_expression (by omega), hstatement, hfunction⟩
    exact ⟨(parses_statementRule (hparts inBody)).nested (by omega),
      (parses_functionRule (parses_declarationRule (hparts true))).nested (by omega)⟩

theorem parses_declaration (hroom : nesting + levels ≤ maxNesting) :
    Parses inBody nesting (declaration levels) (.declaration inBody levels) :=
  have ⟨hstatement, hfunction⟩ := parses_levels levels inBody nesting hroom
  parses_declarationRule ⟨parses_expression hroom, hstatement, hfunction⟩

end Lox.Grammar
