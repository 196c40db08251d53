import Lox.Proofs.Grammar.Joining

/-!
# The tokens that errors are noticed at

Rules never look at the places of tokens. If the tokens that are not in a list were all in other
places, reading the list would go on as before, and so would the errors be the same. So the token of
an error is one of the list.
-/

namespace Lox

open Classical in
/-- The tokens of a list stay where they are, and all others are moved. -/
noncomputable def Relabelling.outside (tokens : List Token) : Relabelling where
  token original :=
    if original ∈ tokens then original
    else { original with span := { original.span with start := original.span.start + 1 } }
  line := id
  kind_token _ := by split <;> rfl
  lexeme_token _ := by split <;> rfl
  value_token _ := by split <;> rfl
  line_token _ := by split <;> rfl

variable {tokens : List Token}

theorem Relabelling.token_outside_eq_self {token : Token} :
    (outside tokens).token token = token ↔ token ∈ tokens := by
  refine ⟨fun h => ?_, fun h => if_pos h⟩
  by_contra hmem
  have hmoved : (outside tokens).token token =
      { token with span := { token.span with start := token.span.start + 1 } } := if_neg hmem
  have hstart := congrArg (fun moved : Token => moved.span.start) (hmoved.symm.trans h)
  exact absurd hstart (Nat.succ_ne_self _)

theorem Relabelling.map_token_outside : tokens.map (outside tokens).token = tokens :=
  (List.map_congr_left fun _ hmem => token_outside_eq_self.2 hmem).trans (List.map_id tokens)

/-- Errors that stay the same while all other tokens are moved are at tokens of the list. -/
theorem token_mem_of_relabel_outside {errors : List SyntaxError}
    (h : errors.map (·.relabel (.outside tokens)) = errors) :
    ∀ error ∈ errors, error.token ∈ tokens := by
  intro error hmem
  have hsame : error.relabel (.outside tokens) = error :=
    List.map_inj_left.1 (h.trans (List.map_id errors).symm) error hmem
  exact Relabelling.token_outside_eq_self.1 (congrArg SyntaxError.token hsame)

namespace Grammar

theorem replaces_onlyExpression (relabelling : Relabelling) (recorded : Array SyntaxError) :
    Replaces relabelling recorded (Expression.mapLines relabelling.line) onlyExpression
      onlyExpression :=
  (replaces_expression maxNesting).bind fun _ => (replaces_expect _ _).bind fun _ => mirrors_pure rfl

end Grammar

open Grammar

variable (h : ∃ token ∈ tokens, token.isEnd = true)
include h

/-- The errors of tokens in other places are those of the tokens, in their other places. -/
theorem Expression.ofTokens_map_of_error (relabelling : Relabelling) {errors : List SyntaxError}
    (hrun : ofTokens tokens = .ok (.error errors)) :
    ofTokens (tokens.map relabelling.token) =
      .ok (.error (errors.map (·.relabel relabelling))) := by
  have hmirror := replaces_onlyExpression relabelling #[] (State.ofTokens tokens)
  rw [ofTokens] at hrun
  rw [ofTokens, State.ofTokens_map relabelling h, hmirror]
  cases hread : onlyExpression (State.ofTokens tokens) with
  | ok parsed after =>
    rw [hread] at hrun
    by_cases hempty : after.errors.isEmpty = true
    · simp [hempty] at hrun
    · simp only [hempty] at hrun
      cases hrun
      have hne : after.errors ≠ #[] := by simpa using hempty
      simp [placed, View.result, hne]
  | error failure after =>
    rw [hread] at hrun
    cases failure with
    | rejected error =>
      cases hrun
      simp [placed, View.result, SyntaxError.relabel]
    | missingValue token => cases hrun

/-- Every error of a program is noticed at one of its tokens. -/
theorem Program.token_mem_of_ofTokens {program : Program} (hrun : ofTokens tokens = .ok program) :
    ∀ error ∈ program.errors, error.token ∈ tokens := by
  have hmap := ofTokens_map (.outside tokens) h
  rw [Relabelling.map_token_outside, hrun] at hmap
  have herrors := congrArg errors (Option.some.inj hmap)
  exact token_mem_of_relabel_outside herrors.symm

/-- Every error of a single expression is noticed at one of its tokens. -/
theorem Expression.token_mem_of_ofTokens {errors : List SyntaxError}
    (hrun : ofTokens tokens = .ok (.error errors)) : ∀ error ∈ errors, error.token ∈ tokens := by
  have hmap := ofTokens_map_of_error h (.outside tokens) hrun
  rw [Relabelling.map_token_outside, hrun] at hmap
  injection hmap with hmap
  injection hmap with herrors
  exact token_mem_of_relabel_outside herrors.symm

end Lox
