import Lox.Grammar.Program
import Lox.Proofs.Grammar.Acceptance
import Lox.Proofs.Syntax.Spelling

/-!
# Reading expressions is the inverse of writing them

A list of tokens is read as one expression, without an error, just if it is a tree in writing, and
the expression stands for that tree. So no list of tokens is the writing of two trees, and the
lines in a tree are those of the tokens it was read from.
-/

namespace Lox

namespace Grammar

variable {levels : Nat} {before after : State}

/-- An expression that was read without an error is a tree in writing. -/
theorem expression_spelled {parsed : Expression} (hrun : expression levels before = .ok parsed after)
    (hending : before.ending.kind = .eof) (hclean : after.errors = before.errors) :
    ∃ (tree : Tree) (tokens tail : List Token), tree.Spelled levels tokens ∧
      before.rest = tokens ++ tail ∧ parsed = tree.expression ∧ after = before.to tail := by
  obtain ⟨phrase, tail, hlegal, hrest, rfl, rfl⟩ := expression_eq_ok hrun hending
  have herrors : phrase.errors = [] := by simpa using hclean
  refine ⟨phrase.tree, phrase.tokens, tail, ?_, hrest, ?_, ?_⟩
  · exact Tree.spelled_iff.2 ⟨phrase, hlegal, herrors, rfl, rfl⟩
  · exact Phrase.expression_eq hlegal.ordered herrors
  · simp [State.to, herrors]

/-- A tree in writing is read as an expression, unless the next token goes on with it. -/
theorem expression_of_spelled {tree : Tree} {tokens tail : List Token}
    (hroom : before.nesting + levels ≤ maxNesting) (hspelled : tree.Spelled levels tokens)
    (hrest : before.rest = tokens ++ tail) (hstops : Stops 0 (tail.headD before.ending).kind) :
    expression levels before = .ok tree.expression (before.to tail) := by
  obtain ⟨phrase, hlegal, herrors, rfl, rfl⟩ := Tree.spelled_iff.1 hspelled
  rw [expression_of_phrase hroom hlegal hrest hstops, Phrase.expression_eq hlegal.ordered herrors]
  simp [State.to, herrors]

theorem State.ofTokens_append {tokens : List Token} {ending : Token} (hending : ending.kind = .eof)
    (htokens : ∀ token ∈ tokens, token.kind ≠ .eof) :
    State.ofTokens (tokens ++ [ending]) = { rest := tokens, ending } := by
  have hisEnd : ending.isEnd = true := by simp [Token.isEnd, hending]
  have hopen : ∀ token ∈ tokens, token.isEnd = false := by simpa [Token.isEnd] using htokens
  have hnone : tokens.find? Token.isEnd = none := by simpa using hopen
  have hrest : (tokens ++ [ending]).takeWhile (!·.isEnd) = tokens := by
    rw [List.takeWhile_append_of_pos fun token htoken => by simp [hopen token htoken]]
    simp [hisEnd]
  simp [State.ofTokens, hrest, hisEnd, hnone]

/-- Tokens without an end stand in front of what is read of the others. -/
theorem State.ofTokens_append_others {tokens others : List Token}
    (hopen : ∀ token ∈ tokens, token.kind ≠ .eof) (hne : others ≠ []) :
    State.ofTokens (tokens ++ others) = { State.ofTokens others with
      rest := tokens ++ (State.ofTokens others).rest } := by
  have hisEnd : ∀ token ∈ tokens, token.isEnd = false := by simpa [Token.isEnd] using hopen
  have hnone : tokens.find? Token.isEnd = none := by simpa using hisEnd
  have hlast : endOf (tokens ++ others) = endOf others := by
    rw [endOf, endOf, List.getLast?_append_of_ne_nil _ hne]
  have hkept : ∀ token ∈ tokens, (!token.isEnd) = true := by simpa using hisEnd
  rw [ofTokens, ofTokens, List.takeWhile_append_of_pos hkept, List.find?_append, hnone,
    Option.none_or, hlast]

end Grammar

open Grammar

section
variable {tokens : List Token} {ending : Token} (hending : ending.kind = .eof)
  (htokens : ∀ token ∈ tokens, token.kind ≠ .eof)
include hending htokens

theorem spelled_of_ofTokens {parsed : Expression}
    (hrun : Expression.ofTokens (tokens ++ [ending]) = .ok (.ok parsed)) :
    ∃ tree : Tree, tree.Spelled maxNesting tokens ∧ parsed = tree.expression := by
  unfold Expression.ofTokens at hrun
  rw [State.ofTokens_append hending htokens] at hrun
  split at hrun
  case h_2 | h_3 => cases hrun
  case h_1 value state heq =>
    obtain ⟨first, between, hfirst, hrest⟩ := bind_eq_ok.1 heq
    obtain ⟨last, after, hend, hdone⟩ := bind_eq_ok.1 hrest
    cases hdone
    obtain ⟨hahead, -, rfl⟩ := expect_eq_ok_iff.1 hend
    split at hrun
    case isFalse => cases hrun
    case isTrue hempty =>
      cases hrun
      obtain ⟨tree, spelling, tail, hspelled, hsplit, rfl, rfl⟩ :=
        expression_spelled hfirst hending (by simpa using hempty)
      cases tail with
      | nil =>
        obtain rfl : tokens = spelling := by simpa using hsplit
        exact ⟨tree, hspelled, rfl⟩
      | cons token tail => exact absurd hahead (htokens token (by simp_all))

theorem ofTokens_of_spelled {tree : Tree} (hspelled : tree.Spelled maxNesting tokens) :
    Expression.ofTokens (tokens ++ [ending]) = .ok (.ok tree.expression) := by
  have hstops : Stops 0 (([] : List Token).headD ending).kind := by
    rw [List.headD_nil, hending]
    exact .of_none 0 rfl
  have hread : expression maxNesting { rest := tokens, ending } = _ :=
    expression_of_spelled (by simp) hspelled (List.append_nil tokens).symm hstops
  unfold Expression.ofTokens
  rw [State.ofTokens_append hending htokens, onlyExpression, bind_of_ok hread]
  simp [bind_apply, expect_apply, hending, pure_apply]

end

theorem Tree.Spelled.tree?_expression {levels : Nat} {tree : Tree} {tokens : List Token}
    (h : tree.Spelled levels tokens) : tree.expression.tree? = some tree := by
  obtain ⟨phrase, hlegal, hclean, -, rfl⟩ := Tree.spelled_iff.1 h
  rw [← Phrase.expression_eq hlegal.ordered hclean, phrase.tree?_expression]

/-- Tokens in front of an end are read as one expression that stands for a tree just if they are
that tree in writing. So they are the writing of one tree at most, and all that is kept of them is
the table of that tree. -/
theorem ofTokens_inverts_writing {tokens : List Token} {ending : Token}
    (hending : ending.kind = .eof) (htokens : ∀ token ∈ tokens, token.kind ≠ .eof) :
    (∀ tree : Tree, (∃ parsed, Expression.ofTokens (tokens ++ [ending]) = .ok (.ok parsed) ∧
        parsed.tree? = some tree) ↔ tree.Spelled maxNesting tokens) ∧
      (∀ first second : Tree, first.Spelled maxNesting tokens →
        second.Spelled maxNesting tokens → first = second) ∧
      ∀ parsed, Expression.ofTokens (tokens ++ [ending]) = .ok (.ok parsed) →
        ∃ tree : Tree, tree.Spelled maxNesting tokens ∧ parsed = tree.expression := by
  refine ⟨fun tree => ⟨?_, fun h => ?_⟩, fun first second hfirst hsecond => ?_, fun parsed hrun => ?_⟩
  · rintro ⟨parsed, hrun, htree⟩
    obtain ⟨other, hspelled, rfl⟩ := spelled_of_ofTokens hending htokens hrun
    rw [hspelled.tree?_expression] at htree
    cases htree
    exact hspelled
  · exact ⟨tree.expression, ofTokens_of_spelled hending htokens h, h.tree?_expression⟩
  · -- Both trees are read of the same tokens, so they are kept as one table.
    have hrun := ofTokens_of_spelled hending htokens hfirst
    rw [ofTokens_of_spelled hending htokens hsecond] at hrun
    injection hrun with hrun
    injection hrun with hexpression
    have htree := hfirst.tree?_expression
    rw [← hexpression, hsecond.tree?_expression] at htree
    exact (Option.some.inj htree).symm
  · exact spelled_of_ofTokens hending htokens hrun

/-- The tokens of `a = b - c - d(e)`. -/
private def difference : List Token :=
  [(Mark.plain .identifier "a" 1).token, (Mark.plain .equal "=" 2).token,
    (Mark.plain .identifier "b" 3).token, (Mark.plain .minus "-" 4).token,
    (Mark.plain .identifier "c" 5).token, (Mark.plain .minus "-" 6).token,
    (Mark.plain .identifier "d" 7).token, (Mark.plain .leftParen "(" 8).token,
    (Mark.plain .identifier "e" 9).token, (Mark.plain .rightParen ")" 10).token]

theorem ofTokens_inverts_writing_difference :
    (Token.atEnd 0 11).kind = .eof ∧ (∀ token ∈ difference, token.kind ≠ .eof) ∧
      ∃ parsed, Expression.ofTokens (difference ++ [.atEnd 0 11]) = .ok (.ok parsed) ∧
        parsed.tree? = some (.assign ⟨"a", 1⟩ (.binary .subtract
          (.binary .subtract (.var ⟨"b", 3⟩) (.var ⟨"c", 5⟩) 4)
          (.call (.var ⟨"d", 7⟩) [.var ⟨"e", 9⟩] 10) 6)) := by
  have hending : (Token.atEnd 0 11).kind = .eof := rfl
  have htokens : ∀ token ∈ difference, token.kind ≠ .eof := by decide
  refine ⟨hending, htokens, ((ofTokens_inverts_writing hending htokens).1 _).2 ?_⟩
  refine ⟨?_, ?_, ?_, ?_⟩
  · have hminus (line : Nat) : BinaryOperator.ofToken? (Mark.plain .minus "-" line).token.kind =
        some .subtract := rfl
    have hfirst := Tree.Written.binary (.var (.plain .identifier "b" 3)) (hminus 4)
      (.var (.plain .identifier "c" 5))
    have hsecond := Tree.Written.call (.var (.plain .identifier "d" 7)) (.plain .leftParen "(" 8)
      (.last (.var (.plain .identifier "e" 9))) (.plain .rightParen ")" 10)
    exact .assign (.plain .identifier "a" 1) (.plain .equal "=" 2)
      (.binary hfirst (hminus 6) hsecond)
  · simp [Tree.Ordered, Tree.AllOrdered, Tree.place, BinaryOperator.precedence, Precedence.place]
  · simp [Tree.ArityBounded, Tree.AllArityBounded, maxArity]
  · simp [Tree.depth, Tree.argumentDepth, maxNesting]

end Lox
