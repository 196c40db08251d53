import Lox.Proofs.Grammar.Kept
import Lox.Proofs.Grammar.Progress
import Lox.Proofs.Grammar.Rejection
import Mathlib.Order.Bounds.Defs

/-!
# Programs are read declaration by declaration

A declaration leaves nothing behind but the tokens that it has not read and the errors that it has
recorded, so what follows it is read as if it stood alone. Where a declaration is abandoned, parsing
goes on at a place that only depends on where that was: at the first boundary behind.
-/

namespace Lox

namespace Grammar

variable {α β : Type}

/-! ### Nothing is left of a table -/

/-- However the rule ends, the nodes are those from before. -/
def KeepsNodes (rule : Rule α) : Prop :=
  ∀ before : State, (endState rule before).nodes = before.nodes

theorem KeepsNodes.bind {rule : Rule α} {next : α → Rule β} (first : KeepsNodes rule)
    (second : ∀ value, KeepsNodes (next value)) : KeepsNodes (rule >>= next) := by
  intro before
  have hfirst := first before
  rw [endState, bind_apply]
  rw [endState] at hfirst
  cases hrun : rule before with
  | ok value between =>
    rw [hrun] at hfirst
    exact (second value between).trans hfirst
  | error failure between =>
    rw [hrun] at hfirst
    exact hfirst

theorem keepsNodes_building (rule : Rule Nat) : KeepsNodes (building rule) := by
  intro before
  rw [endState_building]

theorem hereditary_keepsNodes : Hereditary KeepsNodes where
  pure _ _ := rfl
  get _ := rfl
  advance _ := rfl
  reject _ _ := rfl
  report _ _ _ := rfl
  bind := .bind
  nested h before := by
    rw [endState_nested]
    split
    · rfl
    · exact h { before with nesting := before.nesting + 1 }
  inFunction h before := by
    rw [endState_inFunction]
    exact h { before with functionDepth := before.functionDepth + 1 }
  recovering {_ rule} h before := by
    have inner := h before
    rw [endState] at inner
    rw [endState, recovering]
    cases hrun : rule before with
    | ok value after =>
      rw [hrun] at inner
      exact inner
    | error failure after =>
      rw [hrun] at inner
      cases failure with
      | rejected error => exact inner
      | missingValue token => exact inner

theorem keepsNodes_declaration (levels : Nat) : KeepsNodes (declaration levels) :=
  hereditary_keepsNodes.declaration (fun _ => keepsNodes_building _) levels

/-! ### Boundaries -/

/-- In the list, parsing may go on at the index: at the end, in front of a token that starts a
statement, or behind a semicolon. -/
inductive Boundary (tokens : List Token) : (index : Nat) → Prop where
  | atEnd {index : Nat} {token : Token} (found : tokens[index]? = some token)
      (ends : token.kind = .eof) : Boundary tokens index
  | inFront {index : Nat} {token : Token} (found : tokens[index]? = some token)
      (starts : token.kind.startsStatement = true) : Boundary tokens index
  | behind {index : Nat} {token : Token} (found : tokens[index]? = some token)
      (semicolon : token.kind = .semicolon) : Boundary tokens (index + 1)

/-- Where a declaration was abandoned at the token with the index, parsing goes on there at the end,
and at the first boundary behind it anywhere else. -/
structure Resumes (tokens : List Token) (abandoned : Nat) (token : Token) (resumed : Nat) :
    Prop where
  found : tokens[abandoned]? = some token
  at_end : token.kind = .eof → resumed = abandoned
  behind : token.kind ≠ .eof →
    IsLeast {index | abandoned < index ∧ Boundary tokens index} resumed

section
variable {ending : Token} (hending : ending.kind = .eof)
include hending

/-- Behind the tokens in front and the last one read, the first boundary is looked for in the
rest. -/
theorem isLeast_resumption {rest : List Token} : ∀ (front : List Token) (last : Token),
    (∀ token ∈ rest, token.kind ≠ .eof) → ∃ resumed,
      (front ++ last :: rest ++ [ending]).drop resumed = resumption last rest ++ [ending] ∧
      IsLeast {index | front.length < index ∧ Boundary (front ++ last :: rest ++ [ending]) index}
        resumed := by
  induction rest with
  | nil =>
    intro front last _
    refine ⟨front.length + 1, by simp [resumption], ⟨Nat.lt_succ_self _, ?_⟩, fun _ h => h.1⟩
    have hend : (front ++ [last] ++ [ending])[front.length + 1]? = some ending := by simp
    exact .atEnd hend hending
  | cons token rest ih =>
    intro front last hrest
    obtain ⟨htoken, hrest⟩ := List.forall_mem_cons.1 hrest
    have hlast : (front ++ last :: token :: rest ++ [ending])[front.length]? = some last := by simp
    have hnext : (front ++ last :: token :: rest ++ [ending])[front.length + 1]? = some token := by
      simp
    rw [resumption]
    by_cases hstop : last.kind = .semicolon ∨ token.kind.startsStatement = true
    · refine ⟨front.length + 1, by simp [hstop], ⟨Nat.lt_succ_self _, ?_⟩, fun _ h => h.1⟩
      exact hstop.elim (.behind hlast) (.inFront hnext)
    · obtain ⟨resumed, hdrop, hboundary, hleast⟩ := ih (front ++ [last]) token hrest
      simp only [List.append_assoc, List.cons_append, List.nil_append,
        List.length_append, List.length_singleton] at hdrop hboundary hleast
      refine ⟨resumed, by simpa [hstop] using hdrop, ⟨?_, ?_⟩, fun index h => ?_⟩
      · exact Nat.lt_of_succ_lt hboundary.1
      · simpa using hboundary.2
      · obtain ⟨hlt, hother⟩ := h
        refine hleast ⟨Nat.lt_of_le_of_ne hlt fun heq => ?_, by simpa using hother⟩
        -- The next index is no boundary, so the search may begin behind it.
        subst heq
        cases hother with
        | atEnd hfound hends =>
          cases hnext.symm.trans hfound
          exact htoken hends
        | inFront hfound hstarts =>
          cases hnext.symm.trans hfound
          exact hstop (.inr hstarts)
        | behind hfound hsemicolon =>
          cases hlast.symm.trans hfound
          exact hstop (.inl hsemicolon)

theorem resumes_synchronize (front : List Token) {rest : List Token}
    (hrest : ∀ token ∈ rest, token.kind ≠ .eof) : ∃ resumed,
      (front ++ rest ++ [ending]).drop resumed = synchronize rest ++ [ending] ∧
      Resumes (front ++ rest ++ [ending]) front.length (rest.headD ending) resumed := by
  cases rest with
  | nil =>
    refine ⟨front.length, by simp [synchronize], by simp, fun _ => rfl, fun hne => ?_⟩
    exact absurd hending hne
  | cons skipped rest =>
    obtain ⟨hskipped, hrest⟩ := List.forall_mem_cons.1 hrest
    obtain ⟨resumed, hdrop, hleast⟩ := isLeast_resumption hending front skipped hrest
    exact ⟨resumed, hdrop, by simp, fun hends => absurd hends hskipped, fun _ => hleast⟩

end

/-- Behind a declaration, parsing goes on as it does where the tokens from there on stand alone. -/
theorem eq_of_declaration {tokens : List Token} {ending : Token} {found : Option Statement}
    {after : State} (hrun : declaration maxNesting { rest := tokens, ending } = .ok found after) :
    after = { rest := after.rest, ending, errors := after.errors } := by
  have hcontinues := steady_declaration.of_ok hrun
  have hnodes := keepsNodes_declaration maxNesting { rest := tokens, ending }
  rw [endState, hrun] at hnodes
  obtain ⟨-, hending, hnesting, hfunctionDepth, -, -⟩ := hcontinues
  cases after
  cases hending
  cases hnesting
  cases hfunctionDepth
  cases hnodes
  rfl

end Grammar

open Grammar

/-- Tokens whose literals have their values are read as a program. -/
theorem Program.exists_ofTokens {tokens : List Token} (h : ∀ token ∈ tokens, token.Valued) :
    ∃ program, ofTokens tokens = .ok program := by
  have hvalued : (State.ofTokens tokens).Valued :=
    ⟨fun token hmem => h token ((List.takeWhile_prefix _).subset hmem),
      State.ending_kind_ofTokens tokens⟩
  have hfails : FailsAhead (Grammar.declarations tokens #[]) :=
    hereditary_failsAhead.declarations hereditary_failsAhead.expression _ _
  rw [ofTokens]
  cases hrun : Grammar.declarations tokens #[] (.ofTokens tokens) with
  | ok found after => exact ⟨_, rfl⟩
  | error failure after =>
    obtain ⟨cause, -, rfl⟩ := hfails.failure_eq hvalued hrun
    exact ⟨_, rfl⟩

/-- The program of the tokens from where the first declaration stopped, and the whole one. -/
theorem Program.exists_of_declaration {tokens : List Token} {ending : Token}
    {found : Option Statement} {after : State} {resumed : Nat} (hending : ending.kind = .eof)
    (hopen : ∀ token ∈ tokens, token.kind ≠ .eof) (hvalued : ∀ token ∈ tokens, token.Valued)
    (hne : tokens ≠ [])
    (hrun : declaration maxNesting { rest := tokens, ending } = .ok found after)
    (hdrop : (tokens ++ [ending]).drop resumed = after.rest ++ [ending]) :
    ∃ program, 0 < resumed ∧ resumed ≤ tokens.length ∧
      declaration maxNesting (.ofTokens (tokens ++ [ending])) =
        .ok found { State.ofTokens ((tokens ++ [ending]).drop resumed) with
          errors := after.errors, nesting := 0, functionDepth := 0 } ∧
      ofTokens ((tokens ++ [ending]).drop resumed) = .ok program ∧
      ofTokens (tokens ++ [ending]) =
        .ok ⟨found :: program.declarations, after.errors.toList ++ program.errors⟩ := by
  have hsuffix : after.rest <:+ tokens := (steady_declaration.of_ok hrun).rest
  have hrest : ∀ token ∈ after.rest, token.kind ≠ .eof := fun token hmem =>
    hopen token (hsuffix.subset hmem)
  have hless : after.rest.length < tokens.length := length_lt_of_declaration hrun hending hne
  have hbehind : ∀ token ∈ after.rest ++ [ending], token.Valued :=
    List.forall_mem_append.2 ⟨fun token hmem => hvalued token (hsuffix.subset hmem),
      List.forall_mem_singleton.2 (by simp [Token.Valued, hending])⟩
  obtain ⟨program, hprogram⟩ := exists_ofTokens hbehind
  have hlength := congrArg List.length hdrop
  simp only [List.length_drop, List.length_append, List.length_singleton] at hlength
  have hafter := eq_of_declaration hrun
  refine ⟨program, by omega, by omega, ?_, hdrop ▸ hprogram, ?_⟩
  · rw [hdrop, State.ofTokens_append hending hopen, State.ofTokens_append hending hrest, hrun,
      ← hafter]
  · obtain ⟨first, others, rfl⟩ := List.exists_cons_of_ne_nil hne
    have hfirst : (State.ahead { rest := first :: others, ending }).kind ≠ .eof :=
      hopen first List.mem_cons_self
    have hread : Grammar.declarations (first :: others) #[] { rest := first :: others, ending } =
        Grammar.declarations others #[found]
          { rest := after.rest, ending, errors := after.errors } := by
      rw [declarations_of_other hfirst, bind_of_ok hrun, ← hafter]
      rfl
    rw [ofTokens_of_declarations hending hopen hrest (Nat.le_of_lt_succ hless) hread, hprogram]
    rfl

/-- Programs are read declaration by declaration. On tokens whose literals have their values, the
first declaration of a program yields something or is abandoned, records some errors and stops at
an index behind its first token, in the state in which the tokens from there on are read when they
stand alone: all levels and all bodies of functions are closed again. The program consists of this
declaration and its errors, and of the program of the tokens from there on. Where the declaration
was abandoned, the error recorded last is one that abandons, and the place where parsing goes on is
the one that belongs to the token at which that error stands. -/
theorem ofTokens_eq_cons {tokens : List Token} {ending : Token} (hending : ending.kind = .eof)
    (hopen : ∀ token ∈ tokens, token.kind ≠ .eof) (hvalued : ∀ token ∈ tokens, token.Valued)
    (hne : tokens ≠ []) :
    ∃ found recorded resumed program, 0 < resumed ∧ resumed ≤ tokens.length ∧
      declaration maxNesting (.ofTokens (tokens ++ [ending])) =
        .ok found { State.ofTokens ((tokens ++ [ending]).drop resumed) with
          errors := List.toArray recorded, nesting := 0, functionDepth := 0 } ∧
      Program.ofTokens ((tokens ++ [ending]).drop resumed) = .ok program ∧
      Program.ofTokens (tokens ++ [ending]) =
        .ok ⟨found :: program.declarations, recorded ++ program.errors⟩ ∧
      (found = none → ∃ abandoned cause token, recorded.getLast? = some ⟨cause, token⟩ ∧
        cause.abandons = true ∧ Resumes (tokens ++ [ending]) abandoned token resumed) := by
  have hstate : State.Valued { rest := tokens, ending } := ⟨hvalued, hending⟩
  obtain ⟨rule, hdeclaration, hrule⟩ :=
    hereditary_failsAhead.exists_declaration_eq hereditary_failsAhead.expression maxNesting
  rcases hrule.recovering_eq hstate with ⟨value, after, hrun⟩ |
    ⟨cause, inner, habandons, hcontinues, hrun⟩
  · rw [← hdeclaration] at hrun
    obtain ⟨front, hfront⟩ := (steady_declaration.of_ok hrun).rest
    have hdrop : (tokens ++ [ending]).drop front.length = after.rest ++ [ending] := by
      rw [← show front ++ after.rest = tokens from hfront]
      simp
    obtain ⟨program, hpos, hle, hstops, hbehind, hwhole⟩ :=
      Program.exists_of_declaration hending hopen hvalued hne hrun hdrop
    exact ⟨some value, after.errors.toList, front.length, program, hpos, hle, hstops, hbehind,
      hwhole, fun hnone => by cases hnone⟩
  · rw [← hdeclaration] at hrun
    obtain ⟨front, hfront⟩ := hcontinues.rest
    replace hfront : front ++ inner.rest = tokens := hfront
    subst hfront
    obtain ⟨resumed, hdrop, hresumes⟩ := resumes_synchronize hending front
      (fun token hmem => hopen token (List.mem_append_right front hmem))
    obtain ⟨program, hpos, hle, hstops, hbehind, hwhole⟩ :=
      Program.exists_of_declaration hending hopen hvalued hne hrun hdrop
    have hahead : inner.ahead = inner.rest.headD ending := by rw [State.ahead, hcontinues.ending]
    exact ⟨none, (inner.errors.push ⟨cause, inner.ahead⟩).toList, resumed, program, hpos, hle,
      hstops, hbehind, hwhole, fun _ => ⟨front.length, cause, inner.ahead, by simp, habandons,
        hahead ▸ hresumes⟩⟩

/-- The tokens of `fun f() { ) ;`. -/
private def unclosed : List Token :=
  [(Mark.plain (.keyword .funWord) "fun" 1).token, (Mark.plain .identifier "f" 1).token,
    (Mark.plain .leftParen "(" 1).token, (Mark.plain .rightParen ")" 1).token,
    (Mark.plain .leftBrace "\x7b" 1).token, (Mark.plain .rightParen ")" 1).token,
    (Mark.plain .semicolon ";" 1).token]

/-- A body that is not closed is abandoned at the end, behind an error that was recovered from in
it, and nothing is left open. -/
theorem ofTokens_eq_cons_unclosed : ∃ recorded abandoned cause token,
    declaration maxNesting (.ofTokens (unclosed ++ [.atEnd 0 1])) =
      .ok none { State.ofTokens [.atEnd 0 1] with
        errors := List.toArray recorded, nesting := 0, functionDepth := 0 } ∧
    recorded.length = 2 ∧ recorded.getLast? = some ⟨cause, token⟩ ∧ cause.abandons = true ∧
    Resumes (unclosed ++ [.atEnd 0 1]) abandoned token unclosed.length := by
  obtain ⟨found, recorded, resumed, program, -, hle, hstops, -, -, habandoned⟩ :=
    @ofTokens_eq_cons unclosed (.atEnd 0 1) rfl (by decide) (by decide) (by decide)
  have hread : (match declaration maxNesting (.ofTokens (unclosed ++ [.atEnd 0 1])) with
      | .ok found after => found.isNone && after.rest.isEmpty && after.errors.size == 2
      | .error .. => false) = true := by decide +kernel
  have hat_end : ∀ index ≤ unclosed.length,
      (State.ofTokens ((unclosed ++ [Token.atEnd 0 1]).drop index)).rest.isEmpty = true →
        index = unclosed.length := by decide
  rw [hstops] at hread
  simp only [Bool.and_eq_true, Option.isNone_iff_eq_none, beq_iff_eq, List.size_toArray] at hread
  obtain ⟨⟨rfl, hrest⟩, hsize⟩ := hread
  obtain rfl := hat_end resumed hle hrest
  obtain ⟨abandoned, cause, token, hlast, habandons, hresumes⟩ := habandoned rfl
  exact ⟨recorded, abandoned, cause, token, hstops, hsize, hlast, habandons, hresumes⟩

end Lox
