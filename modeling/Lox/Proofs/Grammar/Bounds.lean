import Mathlib
import Lox.Proofs.Grammar.Cursor
import Lox.Proofs.Grammar.Folding

/-!
# Parsing stays in front of the first end and comes to it

A rule that starts at an index up to the first end stops at one that is not in front of it and not
behind the first end, and on tokens whose literals have their values, none is found missing. A
declaration that starts in front of the first end always comes to a result, and behind its start. So
the declarations of a program end exactly at the first end, and there is at most one for each token
in front of it.
-/

namespace Lox

/-- The kinds of the tokens that a level of binary operators is written with. -/
def Precedence.kinds : Precedence → List TokenKind
  | .equality => [.bangEqual, .equalEqual]
  | .comparison => [.greater, .greaterEqual, .less, .lessEqual]
  | .sum => [.minus, .plus]
  | .product => [.slash, .star]

/-- A level takes the tokens that are listed for it. -/
theorem BinaryOperator.ofTokenAt?_eq (level : Precedence) (kind : TokenKind) :
    ofTokenAt? level kind = if kind ∈ level.kinds then ofToken? kind else none := by
  cases level <;> cases kind <;> simp [Precedence.kinds, ofTokenAt?, ofToken?, precedence]

/-- All tokens that are listed for a level are operators. -/
theorem BinaryOperator.isSome_ofToken? {level : Precedence} {kind : TokenKind}
    (h : kind ∈ level.kinds) : (ofToken? kind).isSome = true := by
  cases level <;> cases kind <;> simp [Precedence.kinds, ofToken?] at h ⊢

namespace Grammar

variable {α : Type} {tokens : List Token}

/-! ### Rules that stay in the list -/

/-- From every index up to the first end, the rule comes to one that is not in front of it, and it
finds no value of a literal missing. -/
def Safe (tokens : List Token) (rule : Rule α) : Prop :=
  ∀ {before : State} {current : Nat}, before.At tokens current →
    (∀ token after, rule before ≠ .error (.missingValue token) after) ∧
      ∃ next, current ≤ next ∧ (endState rule before).At tokens next

/-- The rules that may contain each other, where so many levels are free, and those that read a whole
list. -/
structure AllSafe (tokens : List Token) (levels : Nat) : Prop where
  assignment : Safe tokens (assignment levels)
  unary : Safe tokens (unary levels)
  expression : Safe tokens (expression levels)
  statement : Safe tokens (statement levels)
  function : Safe tokens (function levels)
  declaration : Safe tokens (declaration levels)
  block : Safe tokens (block (Grammar.declaration levels))
  program : ∀ budget earlier, Safe tokens (declarations budget earlier)
  onlyExpression : Safe tokens onlyExpression

section
variable (hvalued : ∀ token ∈ tokens, token.Valued)
include hvalued

theorem State.At.valued {state : State} {current : Nat} (h : state.At tokens current) :
    state.Valued where
  rest token hmem := by
    have hopen := h.isEnd_of_mem_rest hmem
    obtain ⟨behind, hdrop⟩ := h.exists_drop_eq
    have hclosed : token ∈ closed tokens :=
      List.mem_of_mem_drop (hdrop ▸ List.mem_append_left _ hmem)
    obtain ⟨last, -, -, heq⟩ | ⟨heq, hend⟩ := closed_cases tokens
    · exact hvalued token (heq ▸ hclosed)
    · rw [heq, List.mem_append, List.mem_singleton] at hclosed
      refine hclosed.elim (hvalued token) fun hlast => ?_
      cases hopen.symm.trans (hlast ▸ hend)
  ending_kind := h.ending_kind

theorem FailsAhead.safe {rule : Rule α} (h : FailsAhead rule) : Safe tokens rule := by
  intro before current hat
  have hcontinues := h.steady before
  have hnext := hat.of_suffix _ hcontinues.rest hcontinues.ending
  have hlength := hat.length_rest
  have hle := hat.le
  have hshorter := hcontinues.rest.length_le
  refine ⟨fun token after hrun => ?_, _, by omega, hnext⟩
  obtain ⟨cause, -, hrejected⟩ := h.failure_eq (hat.valued hvalued) hrun
  cases hrejected

theorem allSafe (levels : Nat) : AllSafe tokens levels := by
  have hexpression := hereditary_failsAhead.expression
  have hnodes := hereditary_failsAhead.assignment_and_unary levels
  have hlevels := hereditary_failsAhead.statement_and_function hexpression levels
  have hdeclaration := hereditary_failsAhead.declaration hexpression levels
  have honly : FailsAhead onlyExpression := (hexpression maxNesting).bind fun _ =>
    hereditary_failsAhead.afterExpect fun _ => hereditary_failsAhead.pure _
  exact ⟨hnodes.1.safe hvalued, hnodes.2.safe hvalued, (hexpression levels).safe hvalued,
    hlevels.1.safe hvalued, hlevels.2.safe hvalued, hdeclaration.safe hvalued,
    (hereditary_failsAhead.block hdeclaration).safe hvalued, fun budget earlier =>
      (hereditary_failsAhead.declarations hexpression budget earlier).safe hvalued,
    honly.safe hvalued⟩

/-! ### Progress -/

theorem State.At.declaration {before : State} {current : Nat} (h : before.At tokens current)
    (hlt : current < firstEnd tokens) (levels : Nat) : ∃ found after next,
      Grammar.declaration levels before = .ok found after ∧ after.At tokens next ∧
        current < next := by
  obtain ⟨hfound, next, -, hnext⟩ := (allSafe hvalued levels).declaration h
  obtain ⟨rule, heq, hsteady, hconsumes⟩ := exists_declaration_eq_recovering levels
  rw [endState] at hnext
  cases hrun : Grammar.declaration levels before with
  | ok found after =>
    rw [hrun] at hnext
    have hafter : after.At tokens next := hnext
    have hless := hconsumes.recovering hsteady (heq ▸ hrun) h.ending_kind (h.rest_ne_nil hlt)
    rw [h.length_rest, hafter.length_rest] at hless
    exact ⟨found, after, next, rfl, hafter, by omega⟩
  | error failure after =>
    cases failure with
    | rejected error => exact absurd (heq ▸ hrun) recovering_ne_rejected
    | missingValue token => exact absurd hrun (hfound token after)

/-- The declarations of a program end at the first end, and each of them takes a token at least. -/
theorem State.At.declarations {budget : List Token} {before : State} {current : Nat}
    (h : before.At tokens current) (hbudget : before.rest.length ≤ budget.length)
    (earlier : Array (Option Statement)) : ∃ values after,
      Grammar.declarations budget earlier before = .ok values after ∧
        after.At tokens (firstEnd tokens) ∧
        values.length + current ≤ earlier.size + firstEnd tokens := by
  induction budget generalizing earlier before current with
  | nil =>
    have hle := h.le
    rw [h.length_rest, List.length_nil, Nat.le_zero] at hbudget
    obtain rfl : current = firstEnd tokens := by omega
    exact ⟨earlier.toList, before, rfl, h, by simp⟩
  | cons spare budget ih =>
    rcases Nat.lt_or_eq_of_le h.le with hlt | rfl
    · obtain ⟨found, between, next, hfound, hnext, hless⟩ := h.declaration hvalued hlt maxNesting
      rw [h.length_rest, List.length_cons] at hbudget
      obtain ⟨values, after, hrun, hafter, hcount⟩ :=
        ih hnext (by rw [hnext.length_rest]; omega) (earlier.push found)
      rw [Array.size_push] at hcount
      refine ⟨values, after, ?_, hafter, by omega⟩
      rw [declarations_of_other (h.ahead_kind_ne hlt), bind_of_ok hfound, hrun]
    · have hrest : before.rest = [] := List.length_eq_zero_iff.1 (by simp [h.length_rest])
      refine ⟨earlier.toList, before, ?_, h, by simp⟩
      rw [declarations_of_end (ahead_kind_of_nil h.ending_kind hrest)]

end

/-- Only what lies up to the first end is read. -/
theorem take_closed (tokens : List Token) : (closed tokens).take (firstEnd tokens + 1) =
    (State.ofTokens tokens).rest ++ [(State.ofTokens tokens).ending] := by
  have hat := State.at_ofTokens tokens
  rw [List.take_add_one, hat.ending, hat.rest, List.drop_zero]
  rfl

end Grammar

open Grammar

/-- An end that is missing may be put behind the tokens, and nothing behind the first one is read. -/
theorem Expression.ofTokens_take_closed (tokens : List Token) :
    ofTokens ((closed tokens).take (firstEnd tokens + 1)) = ofTokens tokens := by
  rw [take_closed, ofTokens, ofTokens,
    State.ofTokens_append (State.ending_kind_ofTokens tokens) State.kind_ne_eof_of_mem_rest]
  rfl

theorem Program.ofTokens_take_closed (tokens : List Token) :
    ofTokens ((closed tokens).take (firstEnd tokens + 1)) = ofTokens tokens := by
  rw [take_closed, ofTokens_rest_append_ending]

theorem Expression.exists_ofTokens {tokens : List Token} (h : ∀ token ∈ tokens, token.Valued) :
    ∃ result, ofTokens tokens = .ok result := by
  obtain ⟨hfound, -⟩ := (allSafe h 0).onlyExpression (State.at_ofTokens tokens)
  rw [ofTokens]
  cases hrun : onlyExpression (.ofTokens tokens) with
  | ok parsed state => exact ⟨_, rfl⟩
  | error failure state =>
    cases failure with
    | rejected error => exact ⟨_, rfl⟩
    | missingValue token => exact absurd hrun (hfound token state)

/-- The offset of the end is that of the last token, or the one behind it. -/
theorem exists_getLast?_closed {tokens : List Token} {limit : Nat} (hlimit : 0 < limit)
    (h : ∀ last, tokens.getLast? = some last → last.span.stop < limit) : ∃ ending,
      (closed tokens).getLast? = some ending ∧ ending.kind = .eof ∧ ending.span.stop < limit := by
  obtain ⟨last, hlast, hend, hclosed⟩ | ⟨hclosed, hend⟩ := closed_cases tokens
  · exact ⟨last, by rw [hclosed, hlast], by simpa [Token.isEnd] using hend, h last hlast⟩
  · refine ⟨State.endOf tokens, by simp [hclosed], by simpa [Token.isEnd] using hend, ?_⟩
    cases hlast : tokens.getLast? with
    | none => simpa [State.endOf, hlast, Token.atEnd, Span.stop] using hlimit
    | some last =>
      have hstop := h last hlast
      rw [State.endOf, hlast]
      dsimp only
      split
      · exact hstop
      · exact hstop

/-- Parsing always makes progress and comes to an end. Given tokens whose literals have their values
and whose last token ends at an offset of 32 bits, the end that is made up behind them has such an
offset as well.

The tokens have an end then. A program is read in declarations that stop exactly at the first one,
at most one for each token in front of it, and reading a single expression also comes to a result.
Both results only depend on the tokens up to the first end.

At every index up to there, the token ahead and the one in front after moving on are in the list,
and a literal ahead has its value. At every index in front of the first end, a declaration comes to
a result at a larger index, wherever it stands. No rule leaves the tokens up to the first end, moves
back or finds a value missing, and none stops for want of rounds. A level of binary operators takes
the tokens listed for it, and all of these are operators. -/
theorem parsing_progresses {tokens : List Token} (hvalued : ∀ token ∈ tokens, token.Valued)
    (hfits : ∀ last, tokens.getLast? = some last → last.span.stop < 2 ^ 32) :
    (∃ ending, (closed tokens).getLast? = some ending ∧ ending.kind = .eof ∧
      ending.span.stop < 2 ^ 32) ∧
    firstEnd tokens < (closed tokens).length ∧
    (∃ program after, Program.ofTokens tokens = .ok program ∧
      declarations tokens #[] (.ofTokens tokens) = .ok program.declarations after ∧
      after.At tokens (firstEnd tokens) ∧ program.declarations.length ≤ firstEnd tokens) ∧
    (∃ result, Expression.ofTokens tokens = .ok result) ∧
    Program.ofTokens ((closed tokens).take (firstEnd tokens + 1)) = Program.ofTokens tokens ∧
    Expression.ofTokens ((closed tokens).take (firstEnd tokens + 1)) =
      Expression.ofTokens tokens ∧
    (State.ofTokens tokens).At tokens 0 ∧
    (∀ {state : State} {current : Nat}, state.At tokens current →
      state.Moves tokens current ∧ state.ahead.Valued ∧
      ∀ levels, current < firstEnd tokens → ∃ found after next,
        declaration levels state = .ok found after ∧ after.At tokens next ∧ current < next) ∧
    (∀ levels, AllSafe tokens levels ∧ LoopsEnd levels) ∧
    ∀ (level : Precedence) (kind : TokenKind),
      BinaryOperator.ofTokenAt? level kind =
        (if kind ∈ level.kinds then BinaryOperator.ofToken? kind else none) ∧
      (kind ∈ level.kinds → (BinaryOperator.ofToken? kind).isSome = true) := by
  have hstart := State.at_ofTokens tokens
  refine ⟨exists_getLast?_closed (by decide) hfits, firstEnd_lt tokens, ?_,
    Expression.exists_ofTokens hvalued, Program.ofTokens_take_closed tokens,
    Expression.ofTokens_take_closed tokens, hstart, fun {state current} hat => ?_,
    fun levels => ⟨allSafe hvalued levels, loopsEnd levels⟩, fun level kind =>
      ⟨BinaryOperator.ofTokenAt?_eq level kind, BinaryOperator.isSome_ofToken?⟩⟩
  · have hbudget : (State.ofTokens tokens).rest.length ≤ tokens.length :=
      (List.takeWhile_prefix _).length_le
    obtain ⟨values, after, hrun, hafter, hcount⟩ := hstart.declarations hvalued hbudget #[]
    refine ⟨⟨values, after.errors.toList⟩, after, ?_, hrun, hafter, by simpa using hcount⟩
    rw [Program.ofTokens, hrun]
  · exact ⟨hat.moves, (hat.valued hvalued).ahead, fun levels hlt =>
      hat.declaration hvalued hlt levels⟩

/-- The tokens of a block that is not closed, with an end in the middle and none at last. -/
private def interrupted : List Token :=
  [(Mark.plain .leftBrace "\x7b" 1).token, (Mark.plain .rightParen ")" 1).token, .atEnd 2 1,
    { kind := .string, lexeme := "a", value := some (.text "a"), span := ⟨2, 3⟩, line := 1 }]

set_option maxRecDepth 4000 in
theorem parsing_progresses_interrupted :
    firstEnd interrupted = 2 ∧ (closed interrupted).length = 5 ∧
      (∃ after, Program.ofTokens interrupted = .ok ⟨[none],
          [⟨.notExpression, (Mark.plain .rightParen ")" 1).token⟩,
            ⟨.unexpected .rightBrace "Expect '\x7d' after block.", .atEnd 2 1⟩]⟩ ∧
        declarations interrupted #[] (.ofTokens interrupted) = .ok [none] after ∧
        after.At interrupted 2) ∧
      ∃ found after next, declaration maxNesting (.ofTokens interrupted) = .ok found after ∧
        after.At interrupted next ∧ 0 < next := by
  have hread : Program.ofTokens interrupted = .ok ⟨[none],
      [⟨.notExpression, (Mark.plain .rightParen ")" 1).token⟩,
        ⟨.unexpected .rightBrace "Expect '\x7d' after block.", .atEnd 2 1⟩]⟩ := by cbv
  have hfirst : firstEnd interrupted = 2 := by decide
  obtain ⟨-, -, ⟨program, after, hprogram, hrun, hafter, -⟩, -, -, -, hstart, hevery, -⟩ :=
    @parsing_progresses interrupted (by decide) (by rintro last ⟨⟩; decide)
  obtain rfl := Except.ok.inj (hprogram.symm.trans hread)
  exact ⟨hfirst, by decide, ⟨after, hread, hrun, hfirst ▸ hafter⟩,
    (hevery hstart).2.2 maxNesting (hfirst ▸ Nat.two_pos)⟩

end Lox
