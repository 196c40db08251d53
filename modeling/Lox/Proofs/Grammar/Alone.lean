import Lox.Proofs.Grammar.Deeper
import Lox.Proofs.Syntax.Entries
import Lox.Proofs.Syntax.Vocabulary

/-!
# Expressions alone and as statements

Tokens without an end may be read as one expression, or, with a semicolon behind them, as a program.
A program that is one expression yields what the expression alone yields, with the same table of
nodes. The other way around too, but for expressions that open all levels there are: the statement
has one level less for them, runs out of levels, and is abandoned with this one error.
-/

namespace Lox

namespace Grammar

/-- From within an expression that is abandoned everything up to the semicolon is skipped, and the
semicolon too where nothing follows. -/
theorem resumption_of_inExpression (semicolon : Mark .semicolon) {tokens : List Token} :
    ∀ {last : Token}, last.kind.inExpression = true →
      (∀ token ∈ tokens, token.kind.inExpression = true) →
      resumption last (tokens ++ [semicolon.token]) = [] := by
  induction tokens with
  | nil =>
    intro last hlast _
    obtain ⟨hne, -⟩ := TokenKind.skipped_of_inExpression hlast
    simp [resumption, hne, semicolon.isKind, TokenKind.startsStatement]
  | cons token tokens ih =>
    intro last hlast htokens
    obtain ⟨htoken, hrest⟩ := List.forall_mem_cons.1 htokens
    obtain ⟨hne, -⟩ := TokenKind.skipped_of_inExpression hlast
    obtain ⟨-, hstarts⟩ := TokenKind.skipped_of_inExpression htoken
    rw [List.cons_append, resumption, if_neg (by simp [hne, hstarts])]
    exact ih htoken hrest

/-! ### Where a statement runs out of levels -/

section
variable {tree : Tree} {tokens : List Token} {before : State} (levels : Nat)
  (semicolon : Mark .semicolon) (hending : before.ending.kind = .eof)
  (hspelled : tree.Spelled (levels + 1) tokens) (hdepth : tree.depth = levels)
  (hrest : before.rest = tokens ++ [semicolon.token])
  (hroom : before.nesting + (levels + 1) ≤ maxNesting)
include hending hspelled hdepth hrest hroom

/-- An expression that needs the last level that is free runs out of levels where one less is, in
front of one of its tokens. -/
theorem expression_runsOut :
    ∃ (token : Token) (others : List Token) (after : State), token ∈ tokens ∧
      (∀ other ∈ others, other ∈ tokens) ∧ after.rest = token :: others ++ [semicolon.token] ∧
      after.errors = before.errors ∧
      expression levels before.deeper = .error (.rejected ⟨.tooDeep, token⟩) after := by
  have hstops : Stops 0 semicolon.token.kind := stops_of_isKind semicolon.isKind rfl
  have hread := expression_of_spelled hroom hspelled hrest hstops
  obtain hsame | ⟨between, hout, hcontinues, hless⟩ := (deepens_expression levels).run hending
  · -- The same table would be that of a tree for which there are levels.
    rw [hread] at hsame
    obtain ⟨other, _, _, hother, -, hexpression, -⟩ :=
      expression_spelled hsame hending rfl
    have htree := hspelled.tree?_expression
    rw [show tree.expression = other.expression from hexpression, hother.tree?_expression] at htree
    cases htree
    exact absurd hother.depth_lt (by omega)
  · rw [endState, hread] at hcontinues
    have hmore := hless _ _ hread
    obtain ⟨front, hfront⟩ : [semicolon.token] <:+ between.rest := hcontinues.rest
    have hfrom : between.rest <:+ tokens ++ [semicolon.token] :=
      hrest ▸ ((steady_expression levels).of_error hout).rest
    have herrors : before.errors.toList <+: between.errors.toList :=
      ((steady_expression levels).of_error hout).errors
    obtain ⟨read, hread⟩ := hfrom
    have htokens : read ++ front = tokens := by
      rw [← hfront, ← List.append_assoc] at hread
      exact List.append_cancel_right hread
    cases front with
    | nil =>
      rw [← hfront] at hmore
      exact absurd hmore (Nat.lt_irrefl _)
    | cons token others =>
      have hahead : between.ahead = token := State.ahead_of_rest hfront.symm
      refine ⟨token, others, between.deeper, by simp [← htokens], fun other hother => ?_,
        hfront.symm, ?_, hahead ▸ hout⟩
      · simp [← htokens, hother]
      · exact Array.toList_inj.1
          (hcontinues.errors.eq_of_length_le herrors.length_le)

end

section
variable {before : State} {levels : Nat}

theorem nested_of_error {α : Type} {rule : Rule α} {inner : State} {failure : Failure}
    (hroom : before.nesting < maxNesting) (hrun : rule before.deeper = .error failure inner) :
    nested rule before = .error failure { inner with nesting := inner.nesting - 1 } := by
  have hdeeper : rule { before with nesting := before.nesting + 1 } = _ := hrun
  rw [nested, if_neg (Nat.not_le.2 hroom), hdeeper]

variable (hopens : before.ahead.kind.opensExpression = true)
include hopens

/-- In front of an expression, a declaration is a statement. -/
theorem declaration_of_opensExpression :
    declaration levels before = recovering (statement levels) before := by
  have hskip {word : Keyword} (hword : TokenKind.opensExpression (.keyword word) = false) :
      eat? (.keyword word) before = .ok none before := by
    rw [eat?_apply, if_neg]
    intro hkind
    rw [hkind, hword] at hopens
    cases hopens
  have hrule : (do
      if (← eat? (.keyword .varWord)).isSome then varDeclaration (expression levels)
      else if (← eat? (.keyword .funWord)).isSome then function levels
      else statement levels : Rule Statement) before = statement levels before := by
    rw [bind_of_ok (hskip rfl), if_neg (by decide), bind_of_ok (hskip rfl), if_neg (by decide)]
  rw [declaration, declarationRule, recovering, recovering, hrule]

/-- And the statement fails where the expression does. -/
theorem statement_of_expression_error (hroom : before.nesting < maxNesting) {after : State}
    {failure : Failure} (hrun : expression levels before.deeper = .error failure after) :
    statement (levels + 1) before =
      .error failure { after with nesting := after.nesting - 1 } := by
  refine nested_of_error hroom ?_
  let parts : Parts := ⟨expression levels, statement levels, function levels⟩
  have hnone : ruleBehind? parts before.deeper.ahead = none :=
    ruleBehind?_eq_none_iff.2 (TokenKind.opensStatement_of_opensExpression hopens)
  have hexpression : parts.expression before.deeper = _ := hrun
  rw [statementRule_of_none hnone, expressionStatement, bind_apply, hexpression]

end

/-- A declaration that is an expression over all levels is abandoned, and its tokens are skipped. -/
theorem declaration_runsOut {tree : Tree} {tokens : List Token} {before : State}
    (semicolon : Mark .semicolon) (hending : before.ending.kind = .eof)
    (hspelled : tree.Spelled maxNesting tokens) (hdepth : tree.depth + 1 = maxNesting)
    (hrest : before.rest = tokens ++ [semicolon.token]) (hnesting : before.nesting = 0) :
    ∃ token ∈ tokens, ∃ after : State, declaration maxNesting before = .ok none after ∧
      after.rest = [] ∧ after.errors = before.errors.push ⟨.tooDeep, token⟩ := by
  have hlevels : tree.depth = maxNesting - 1 := by omega
  obtain ⟨token, others, after, htoken, hothers, hafter, herrors, hrun⟩ :=
    expression_runsOut (maxNesting - 1) semicolon hending hspelled hlevels hrest
      (by rw [hnesting]; decide)
  have hwords := hspelled.written.inExpression
  obtain ⟨first, rest, hfirst, hopens⟩ :=
    Expression.Spelled.exists_first ⟨tree, hspelled, rfl⟩
  have hahead : before.ahead = first := State.ahead_of_rest (by rw [hrest, hfirst]; rfl)
  rw [← hahead] at hopens
  have hstatement : statement maxNesting before = _ :=
    statement_of_expression_error hopens (by rw [hnesting]; decide) hrun
  refine ⟨token, htoken, { after with
    nesting := after.nesting - 1
    rest := synchronize after.rest
    errors := after.errors.push ⟨.tooDeep, token⟩ }, ?_, ?_, ?_⟩
  · rw [declaration_of_opensExpression hopens, recovering, hstatement]
  · rw [hafter]
    exact resumption_of_inExpression semicolon (hwords token htoken)
      fun other hother => hwords other (hothers other hother)
  · show after.errors.push _ = _
    rw [herrors]

end Grammar

open Grammar

section
variable {tokens : List Token} (hopen : ∀ token ∈ tokens, token.kind ≠ .eof)
include hopen

theorem Grammar.State.kind_endOf : (State.endOf tokens).kind = .eof := by
  have hkind := State.ending_kind_ofTokens tokens
  rwa [State.ofTokens_of_open hopen] at hkind

theorem Expression.ofTokens_append_endOf :
    ofTokens (tokens ++ [State.endOf tokens]) = ofTokens tokens := by
  rw [ofTokens, ofTokens, State.ofTokens_append (State.kind_endOf hopen) hopen,
    State.ofTokens_of_open hopen]

theorem Program.ofTokens_append_endOf :
    ofTokens (tokens ++ [State.endOf tokens]) = ofTokens tokens := by
  have hsame := ofTokens_rest_append_ending tokens
  rwa [State.ofTokens_of_open hopen] at hsame

end

section
variable {tokens : List Token} {semicolon : Mark .semicolon} {ending : Token}
  (hending : ending.kind = .eof) (hopen : ∀ token ∈ tokens, token.kind ≠ .eof)
include hending hopen

omit hending in
variable (semicolon) in
theorem ne_eof_of_append_semicolon :
    ∀ token ∈ tokens ++ [semicolon.token], token.kind ≠ .eof := by
  intro token htoken
  obtain htoken | htoken := List.mem_append.1 htoken
  · exact hopen token htoken
  · rw [List.mem_singleton.1 htoken, semicolon.isKind]
    decide

/-- A program that is one expression is an expression in writing, and a semicolon. -/
theorem spelled_of_statement {parsed : Expression}
    (hrun : Program.ofTokens (tokens ++ [semicolon.token] ++ [ending]) =
      .ok ⟨[some (.expression parsed)], []⟩) : parsed.Spelled (maxNesting - 1) tokens := by
  obtain ⟨statements, hstatements, hall⟩ :=
    allListed_of_ofTokens hending (ne_eof_of_append_semicolon semicolon hopen) hrun
  obtain rfl : statements = [.expression parsed] := by
    rw [← List.map_inj_right (fun _ _ => Option.some.inj)]
    exact hstatements.symm
  generalize hwhole : tokens ++ [semicolon.token] = whole at hall
  cases hall with
  | cons listed listedRest =>
    cases listedRest
    obtain ⟨fewer, spelling, _, hlevels, hspelled, rfl⟩ := listed.exists_of_expression
    rw [List.append_nil] at hwhole
    obtain ⟨rfl, -⟩ := List.append_inj' hwhole rfl
    rwa [hlevels]

/-- An expression in writing and a semicolon are a program, if a level is left for the statement. -/
theorem statement_of_spelled {parsed : Expression}
    (hspelled : parsed.Spelled (maxNesting - 1) tokens) :
    Program.ofTokens (tokens ++ [semicolon.token] ++ [ending]) =
      .ok ⟨[some (.expression parsed)], []⟩ := by
  have hwritten : Statement.Written false maxNesting false _ _ := .expression hspelled semicolon
  have hall := Statement.AllListed.cons (.statement hwritten) .nil
  rw [List.append_nil] at hall
  exact ofTokens_of_allListed hending (ne_eof_of_append_semicolon semicolon hopen) hall

/-- An expression over all levels and a semicolon are a program with one declaration, which is
abandoned. -/
theorem statement_runsOut {tree : Tree} (hspelled : tree.Spelled maxNesting tokens)
    (hdepth : tree.depth + 1 = maxNesting) : ∃ token ∈ tokens,
    Program.ofTokens (tokens ++ [semicolon.token] ++ [ending]) = .ok ⟨[none], [⟨.tooDeep, token⟩]⟩ := by
  have hopenSemicolon := ne_eof_of_append_semicolon semicolon hopen
  have hstart := State.ofTokens_append hending hopenSemicolon
  have hrest : State.rest { rest := tokens ++ [semicolon.token], ending } = _ := rfl
  obtain ⟨token, htoken, after, hrun, hafter, herrors⟩ :=
    declaration_runsOut semicolon hending hspelled hdepth hrest rfl
  have hafterEnding : after.ending = ending := (steady_declaration.of_ok hrun).ending
  obtain ⟨first, rest, hfirst⟩ : ∃ first rest, tokens ++ [semicolon.token] = first :: rest :=
    List.exists_cons_of_ne_nil (by simp)
  have hahead : (State.ahead { rest := tokens ++ [semicolon.token], ending }).kind ≠ .eof := by
    rw [State.ahead_of_rest hfirst]
    exact hopenSemicolon first (by simp [hfirst])
  have hend : after.ahead.kind = .eof := by
    rw [State.ahead, hafter, hafterEnding]
    exact hending
  have hdeclarations : declarations (tokens ++ [semicolon.token] ++ [ending]) #[]
      { rest := tokens ++ [semicolon.token], ending } = .ok [none] after := by
    rw [show tokens ++ [semicolon.token] ++ [ending] = first :: (rest ++ [ending]) by rw [hfirst]; rfl,
      declarations_of_other hahead, bind_of_ok hrun, declarations_of_end hend]
    rfl
  refine ⟨token, htoken, ?_⟩
  rw [Program.ofTokens, hstart, hdeclarations]
  simp [herrors]

end

/-- Tokens without an end are one expression just if they are one expression statement with a
semicolon behind them, and the table is the same, unless the expression opens all levels there are.
Then the statement, which is a level deeper, is abandoned for want of levels. -/
theorem expression_agrees_with_statement {tokens : List Token}
    (hopen : ∀ token ∈ tokens, token.kind ≠ .eof) (semicolon : Mark .semicolon)
    (parsed : Expression) :
    (Program.ofTokens (tokens ++ [semicolon.token]) = .ok ⟨[some (.expression parsed)], []⟩ →
        Expression.ofTokens tokens = .ok (.ok parsed)) ∧
      (Expression.ofTokens tokens = .ok (.ok parsed) →
        ∃ tree, parsed.tree? = some tree ∧ tree.depth + 1 ≤ maxNesting ∧
          (tree.depth + 1 < maxNesting →
            Program.ofTokens (tokens ++ [semicolon.token]) =
              .ok ⟨[some (.expression parsed)], []⟩) ∧
          (tree.depth + 1 = maxNesting → ∃ token ∈ tokens,
            Program.ofTokens (tokens ++ [semicolon.token]) =
              .ok ⟨[none], [⟨.tooDeep, token⟩]⟩)) := by
  have hopenSemicolon := ne_eof_of_append_semicolon semicolon hopen
  rw [← Expression.ofTokens_append_endOf hopen, ← Program.ofTokens_append_endOf hopenSemicolon]
  refine ⟨fun hrun => ?_, fun hrun => ?_⟩
  · have hfewer := spelled_of_statement (State.kind_endOf hopenSemicolon) hopen hrun
    obtain ⟨tree, hspelled, rfl⟩ := hfewer.mono (show maxNesting - 1 ≤ maxNesting by decide)
    exact ofTokens_of_spelled (State.kind_endOf hopen) hopen hspelled
  · obtain ⟨tree, hspelled, rfl⟩ := spelled_of_ofTokens (State.kind_endOf hopen) hopen hrun
    refine ⟨tree, hspelled.tree?_expression, hspelled.depth_lt, fun hless => ?_, fun hall => ?_⟩
    · have hfewer : tree.Spelled (maxNesting - 1) tokens :=
        { hspelled with depth_lt := by omega }
      exact statement_of_spelled (State.kind_endOf hopenSemicolon) hopen ⟨tree, hfewer, rfl⟩
    · exact statement_runsOut (State.kind_endOf hopenSemicolon) hopen hspelled hall

/-- The tokens of `true` behind so many `!`. -/
private def negations : Nat → List Token
  | 0 => [(Mark.plain (.keyword .trueWord) "true" 1).token]
  | count + 1 => (Mark.plain .bang "!" 1).token :: negations count

private def negated : Nat → Tree
  | 0 => .literal (.bool true)
  | count + 1 => .unary .not (negated count) 1

private theorem spelled_negated (count : Nat) :
    (negated count).Spelled (count + 1) (negations count) ∧ 7 ≤ (negated count).place ∧
      (negated count).depth = count := by
  induction count with
  | zero =>
    exact ⟨⟨.literal rfl, trivial, trivial, Nat.one_pos⟩, by decide, rfl⟩
  | succ count ih =>
    obtain ⟨⟨written, ordered, arity, -⟩, hplace, hdepth⟩ := ih
    have hsign : UnaryOperator.ofToken? (Mark.plain .bang "!" 1).token.kind = some .not := rfl
    have hwritten : (negated (count + 1)).Written (negations (count + 1)) := .unary hsign written
    have hdeeper : (negated (count + 1)).depth = count + 1 := congrArg (· + 1) hdepth
    exact ⟨⟨hwritten, ⟨hplace, ordered⟩, arity, by omega⟩, Nat.le_refl 7, hdeeper⟩

theorem expression_agrees_with_statement_negations :
    (∀ token ∈ negations 199, token.kind ≠ .eof) ∧
      Expression.ofTokens (negations 199) = .ok (.ok (negated 199).expression) ∧
      ∃ token ∈ negations 199,
        Program.ofTokens (negations 199 ++ [(Mark.plain .semicolon ";" 1).token]) =
          .ok ⟨[none], [⟨.tooDeep, token⟩]⟩ := by
  obtain ⟨hspelled, -, hdepth⟩ := spelled_negated 199
  have hopen : ∀ token ∈ negations 199, token.kind ≠ .eof := by
    intro token htoken heof
    have hwithin := hspelled.written.inExpression token htoken
    rw [heof] at hwithin
    cases hwithin
  have hread : Expression.ofTokens (negations 199) = .ok (.ok (negated 199).expression) := by
    rw [← Expression.ofTokens_append_endOf hopen]
    exact ofTokens_of_spelled (State.kind_endOf hopen) hopen hspelled
  obtain ⟨tree, htree, -, -, hall⟩ :=
    (expression_agrees_with_statement hopen (.plain .semicolon ";" 1) _).2 hread
  rw [hspelled.tree?_expression] at htree
  cases htree
  exact ⟨hopen, hread, hall (by rw [hdepth]; rfl)⟩

end Lox
