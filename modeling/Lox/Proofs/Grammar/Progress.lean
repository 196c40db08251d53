import Lox.Proofs.Grammar.Programs
import Lox.Proofs.Grammar.Relabel

/-!
# Declarations one by one

A declaration that is not at the end reads a token at least, or skips one. So the rounds that a
program is given never run out, and what comes behind a declaration is read as if it stood alone:
nothing is carried over but what was recorded.
-/

namespace Lox

namespace Grammar

variable {α β : Type}

/-! ### Rules that read a token -/

/-- Whenever the rule yields a value, fewer tokens are left. -/
def Consumes (rule : Rule α) : Prop :=
  ∀ ⦃before after : State⦄ ⦃value : α⦄, rule before = .ok value after →
    before.ending.kind = .eof → after.rest.length < before.rest.length

theorem consumes_reject (cause : SyntaxError.Cause) : Consumes (reject cause : Rule α) := by
  intro before after value hrun
  cases hrun

theorem consumes_expect {kind : TokenKind} (hkind : kind ≠ .eof) (message : String) :
    Consumes (expect kind message) := by
  intro before after value hrun hending
  obtain ⟨tail, hrest, -, rfl⟩ := expect_eq_ok hrun hending hkind
  simp [hrest]

theorem Consumes.bind {rule : Rule α} {next : α → Rule β} (first : Consumes rule)
    (second : ∀ value, Steady (next value)) : Consumes (rule >>= next) := by
  intro before after value hrun hending
  obtain ⟨middle, between, hfirst, hsecond⟩ := bind_eq_ok.1 hrun
  exact Nat.lt_of_le_of_lt ((second middle).of_ok hsecond).rest.length_le (first hfirst hending)

theorem Steady.consumes {rule : Rule α} {next : α → Rule β} (first : Steady rule)
    (second : ∀ value, Consumes (next value)) : Consumes (rule >>= next) := by
  intro before after value hrun hending
  obtain ⟨middle, between, hfirst, hsecond⟩ := bind_eq_ok.1 hrun
  have hcontinues := first.of_ok hfirst
  exact Nat.lt_of_lt_of_le (second middle hsecond (hcontinues.ending ▸ hending))
    hcontinues.rest.length_le

theorem Consumes.ite {condition : Prop} [Decidable condition] {first second : Rule α}
    (hfirst : Consumes first) (hsecond : Consumes second) :
    Consumes (if condition then first else second) := by
  split
  · exact hfirst
  · exact hsecond

theorem Consumes.nested {rule : Rule α} (h : Consumes rule) : Consumes (nested rule) := by
  intro before after value hrun hending
  obtain ⟨inner, hinner, rfl⟩ := nested_eq_ok hrun
  have hless := h hinner hending
  exact hless

/-- A rule that recovers gets on even where it was abandoned, unless nothing was left. -/
theorem Consumes.recovering {rule : Rule α} (h : Consumes rule) (hsteady : Steady rule)
    {before after : State} {found : Option α} (hrun : recovering rule before = .ok found after)
    (hending : before.ending.kind = .eof) (hrest : before.rest ≠ []) :
    after.rest.length < before.rest.length := by
  rw [Grammar.recovering] at hrun
  split at hrun
  case h_1 value inner hinner =>
    cases hrun
    exact h hinner hending
  case h_2 error inner hinner =>
    cases hrun
    have hle := (hsteady.of_error hinner).rest.length_le
    change (synchronize inner.rest).length < _
    cases hinnerRest : inner.rest with
    | nil => exact List.length_pos_iff.2 hrest
    | cons skipped rest =>
      rw [hinnerRest, List.length_cons] at hle
      exact Nat.lt_of_le_of_lt (resumption_suffix skipped rest).length_le hle
  case h_3 => cases hrun

section
variable {inBody : Bool} {nesting levels : Nat} {parts : Parts}
  (h : PartsParse inBody nesting levels parts)
include h

theorem consumes_declarationRule (hstatement : Consumes parts.statement)
    (hfunction : Consumes parts.function) {before after : State} {found : Option Statement}
    (hrun : declarationRule parts before = .ok found after) (hending : before.ending.kind = .eof)
    (hrest : before.rest ≠ []) : after.rest.length < before.rest.length := by
  have hvar : Consumes (varDeclaration parts.expression) := by
    refine (steady_expect _ _).consumes fun name => (steady_eat? _).consumes fun equals => ?_
    have htail (initial : Option Expression) : Consumes (do
        let _ ← expect .semicolon "Expect ';' after variable declaration."
        return Statement.varDecl (.ofToken name) initial) :=
      (consumes_expect (by decide) _).bind fun _ => steady_pure _
    cases equals with
    | none => exact htail none
    | some _ => exact (h.expression.steady.map some).consumes htail
  refine Consumes.recovering ?_ ?_ hrun hending hrest
  · exact (steady_eat? _).consumes fun _ => .ite hvar
      ((steady_eat? _).consumes fun _ => .ite hfunction hstatement)
  · exact (steady_eat? _).bind fun _ => .ite (parses_varDeclaration h.expression).steady
      ((steady_eat? _).bind fun _ => .ite h.function.steady h.statement.steady)

theorem consumes_functionRule :
    Consumes (functionRule (declarationRule parts)) := by
  have hblock : Steady (block (declarationRule parts)) :=
    (parses_block (parses_declarationRule h)).steady
  exact (consumes_expect (by decide) _).bind fun _ => (steady_expect _ _).bind fun _ =>
    (steady_parameter.commaSeparated _).bind fun _ => (steady_expect _ _).bind fun _ =>
      (steady_expect _ _).bind fun _ => hblock.inFunction.bind fun _ => steady_pure _

theorem consumes_statementRule : Consumes (statementRule parts) := by
  have hexpression := h.expression.steady
  have hstatement := h.statement.steady
  have hclose {kind : TokenKind} (hkind : kind ≠ .eof) (message : String)
      (result : Statement) : Consumes (do
        let _ ← expect kind message
        return result) :=
    (consumes_expect hkind message).bind fun _ => steady_pure _
  refine steady_peek.consumes fun token => ?_
  split
  · refine steady_advance.consumes fun _ => (consumes_expect (by decide) _).bind fun _ => ?_
    exact (parses_initializer h.expression).steady.bind fun _ =>
      (parses_clause h.expression rfl).steady.bind fun _ => (steady_expect _ _).bind fun _ =>
        (parses_clause h.expression rfl).steady.bind fun _ => (steady_expect _ _).bind fun _ =>
          hstatement.bind fun _ => steady_pure _
  · refine steady_advance.consumes fun _ => (consumes_expect (by decide) _).bind fun _ => ?_
    refine hexpression.bind fun _ => (steady_expect _ _).bind fun _ => hstatement.bind fun _ =>
      (steady_eat? _).bind fun otherwise => ?_
    cases otherwise with
    | none => exact steady_pure _
    | some _ => exact hstatement.bind fun _ => steady_pure _
  · exact steady_advance.consumes fun _ => hexpression.consumes fun _ => hclose (by decide) _ _
  · refine steady_advance.consumes fun keyword => steady_get.consumes fun state => ?_
    have htail (value : Option Expression) : Consumes (do
        let _ ← expect .semicolon "Expect ';' after return value."
        return Statement.returnWith value keyword.line) := hclose (by decide) _ _
    refine .ite ((steady_report _ _).consumes fun _ => ?_) ?_ <;>
      exact (steady_check _).consumes fun _ =>
        .ite (htail none) ((hexpression.map some).consumes htail)
  · refine steady_advance.consumes fun _ => (consumes_expect (by decide) _).bind fun _ => ?_
    exact hexpression.bind fun _ => (steady_expect _ _).bind fun _ => hstatement.bind fun _ =>
      steady_pure _
  · refine steady_advance.consumes fun _ => Consumes.bind (steady_get.consumes fun state => ?_)
      fun _ => steady_pure _
    exact (steady_entries (parses_declarationRule h).steady _ _).consumes fun _ =>
      (consumes_expect (by decide) _).bind fun _ => steady_pure _
  · exact hexpression.consumes fun _ => hclose (by decide) _ _

end

theorem consumes_levels (levels : Nat) : ∀ nesting, nesting + levels ≤ maxNesting →
    Consumes (statement levels) ∧ Consumes (function levels) := by
  induction levels with
  | zero => exact fun _ _ => ⟨consumes_reject _, consumes_reject _⟩
  | succ levels ih =>
    intro nesting hroom
    obtain ⟨hstatement, hfunction⟩ := parses_levels levels true (nesting + 1) (by omega)
    have hparts : PartsParse true (nesting + 1) levels
        ⟨expression levels, statement levels, function levels⟩ :=
      ⟨parses_expression (by omega), hstatement, hfunction⟩
    exact ⟨(consumes_statementRule hparts).nested, (consumes_functionRule hparts).nested⟩

theorem length_lt_of_declaration {before after : State} {found : Option Statement}
    (hrun : declaration maxNesting before = .ok found after) (hending : before.ending.kind = .eof)
    (hrest : before.rest ≠ []) : after.rest.length < before.rest.length := by
  obtain ⟨hstatement, hfunction⟩ := parses_levels maxNesting true 0 (Nat.le_refl _)
  have hconsumes := consumes_levels maxNesting 0 (Nat.le_refl _)
  exact consumes_declarationRule ⟨parses_expression (Nat.le_refl _), hstatement, hfunction⟩
    hconsumes.1 hconsumes.2 hrun hending hrest

/-! ### Rounds -/

theorem steady_declaration : Steady (declaration maxNesting) :=
  (show Parses false 0 _ _ from parses_declaration (by decide)).steady

theorem recovering_ne_rejected {rule : Rule α} {before after : State} {error : SyntaxError} :
    recovering rule before ≠ .error (.rejected error) after := by
  rw [recovering]
  split <;> simp_all

theorem State.rest_ne_nil_of_ahead {state : State} (hending : state.ending.kind = .eof)
    (hahead : state.ahead.kind ≠ .eof) : state.rest ≠ [] := by
  obtain ⟨tail, htail⟩ := state.exists_rest_eq_cons hending hahead
  simp [htail]

/-- Rounds that suffice do not matter. -/
theorem declarations_congr_budget {budget : List Token} : ∀ {other : List Token}
    {earlier : Array (Option Statement)} {before : State}, before.ending.kind = .eof →
    before.rest.length ≤ budget.length → before.rest.length ≤ other.length →
    declarations budget earlier before = declarations other earlier before := by
  induction budget with
  | nil =>
    intro other earlier before hending hbudget _
    have hrest := List.length_eq_zero_iff.1 (Nat.le_zero.1 hbudget)
    have hend : before.ahead.kind = .eof := by simp [State.ahead, hrest, hending]
    rw [declarations_of_end hend, declarations_of_end hend]
  | cons spare budget ih =>
    intro other earlier before hending hbudget hother
    by_cases hend : before.ahead.kind = .eof
    · rw [declarations_of_end hend, declarations_of_end hend]
    · have hrest := State.rest_ne_nil_of_ahead hending hend
      cases other with
      | nil => exact absurd (List.length_eq_zero_iff.1 (Nat.le_zero.1 hother)) hrest
      | cons another other =>
        rw [declarations_of_other hend, declarations_of_other hend, bind_apply, bind_apply]
        cases hrun : declaration maxNesting before with
        | error failure after => rfl
        | ok found after =>
          have hless := length_lt_of_declaration hrun hending hrest
          rw [List.length_cons] at hbudget hother
          exact ih ((steady_declaration.of_ok hrun).ending ▸ hending) (by omega) (by omega)

/-- What was found before is kept in front. -/
theorem declarations_earlier {budget : List Token} : ∀ (earlier : Array (Option Statement))
    (before : State), declarations budget earlier before =
      ((earlier.toList ++ ·) <$> declarations budget #[]) before := by
  induction budget with
  | nil =>
    intro earlier before
    simp [declarations, map_apply, pure_apply]
  | cons spare budget ih =>
    intro earlier before
    by_cases hend : before.ahead.kind = .eof
    · rw [map_apply, declarations_of_end hend, declarations_of_end hend]
      simp
    · rw [map_apply, declarations_of_other hend, declarations_of_other hend, bind_apply, bind_apply]
      cases declaration maxNesting before with
      | error failure after => rfl
      | ok found after =>
        simp only [ih (earlier.push found), ih (#[].push found), map_apply]
        cases declarations budget #[] after <;> simp

theorem declarations_ne_rejected {budget : List Token} : ∀ {earlier : Array (Option Statement)}
    {before after : State} {error : SyntaxError},
    declarations budget earlier before ≠ .error (.rejected error) after := by
  induction budget with
  | nil =>
    intro earlier before after error h
    cases h
  | cons spare budget ih =>
    intro earlier before after error
    by_cases hend : before.ahead.kind = .eof
    · rw [declarations_of_end hend]
      simp
    · rw [declarations_of_other hend, bind_apply]
      cases hrun : declaration maxNesting before with
      | ok found between => exact ih
      | error failure between =>
        rintro ⟨⟩
        exact recovering_ne_rejected hrun

/-- What is read of tokens at the start of a program, behind errors that were recorded, is the
program of these tokens. -/
theorem declarations_placed (tail : List Token) (ending : Token) (recorded : Array SyntaxError) :
    declarations tail #[] { rest := tail, ending, errors := recorded } =
      (placed .unchanged recorded).result id (declarations tail #[] { rest := tail, ending }) := by
  have hmap : List.map (Option.map (Statement.mapLines Relabelling.unchanged.line)) = id := by
    have hid : Statement.mapLines Relabelling.unchanged.line = id := funext Statement.mapLines_id
    rw [hid, Option.map_id, List.map_id_fun]
  have hall : Replaces .unchanged recorded _ _ _ := replaces_declarations tail #[]
  have hmirror := hall { rest := tail, ending }
  rw [hmap] at hmirror
  simpa [placed, Relabelling.unchanged] using hmirror

end Grammar

open Grammar

/-- A program whose reading comes to tokens that are left, behind declarations and errors, goes on
as the program of those tokens does. -/
theorem ofTokens_of_declarations {tokens tail budget : List Token} {ending : Token}
    {earlier : Array (Option Statement)} {recorded : Array SyntaxError}
    (hending : ending.kind = .eof) (htokens : ∀ token ∈ tokens, token.kind ≠ .eof)
    (htail : ∀ token ∈ tail, token.kind ≠ .eof) (hbudget : tail.length ≤ budget.length)
    (h : declarations tokens #[] { rest := tokens, ending } =
      declarations budget earlier { rest := tail, ending, errors := recorded }) :
    Program.ofTokens (tokens ++ [ending]) =
      (Program.ofTokens (tail ++ [ending])).map fun program =>
        ⟨earlier.toList ++ program.declarations, recorded.toList ++ program.errors⟩ := by
  have hwhole {others : List Token} : declarations (others ++ [ending]) #[] { rest := others, ending } =
      declarations others #[] { rest := others, ending } :=
    declarations_congr_budget hending (by simp) (Nat.le_refl _)
  have hbudgets : declarations budget earlier { rest := tail, ending, errors := recorded } =
      declarations tail earlier { rest := tail, ending, errors := recorded } :=
    declarations_congr_budget hending hbudget (Nat.le_refl _)
  rw [hbudgets, declarations_earlier earlier, map_apply, declarations_placed tail] at h
  unfold Program.ofTokens
  rw [State.ofTokens_append hending htokens, State.ofTokens_append hending htail, hwhole, hwhole, h]
  cases hrun : declarations tail #[] { rest := tail, ending } with
  | ok values after =>
    simp [View.result, placed, Except.map, SyntaxError.relabel_unchanged]
  | error failure after =>
    cases failure with
    | rejected error => exact absurd hrun declarations_ne_rejected
    | missingValue token => simp [View.result, placed, Except.map, Relabelling.unchanged]

end Lox
