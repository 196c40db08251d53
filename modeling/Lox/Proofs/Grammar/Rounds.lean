import Lox.Proofs.Grammar.Concatenation

/-!
# Rounds

Rules that repeat are given the tokens that are left as rounds. No round but the last one goes by
without a token being read, so the rounds do not run out before the rule ends by itself: any number
of them that covers the tokens gives the same result, and what a rule answers where there are none
decides nothing.
-/

namespace Lox.Grammar

variable {α β : Type} {before : State}

/-- Rounds beyond the tokens that are left make no difference. -/
def RoundsSuffice (loop : (budget : List Token) → Rule α) : Prop :=
  ∀ {before : State} {budget other : List Token}, before.ending.kind = .eof →
    before.rest.length ≤ budget.length → before.rest.length ≤ other.length →
    loop budget before = loop other before

/-- At the end, the rounds make no difference at all. That carries over to any place, since a round
behind which another one follows reads a token. -/
theorem Exchange.Repeats.roundsSuffice {step : α → Rule (α ⊕ β)} {loop : List Token → α → Rule β}
    (h : Exchange.Repeats step loop)
    (hlast : ∀ {budget : List Token} {value : α} {before : State}, before.ending.kind = .eof →
      before.rest = [] → loop budget value before = loop [] value before) (value : α) :
    RoundsSuffice (loop · value) := by
  intro before budget other hending hbudget hother
  change loop budget value before = loop other value before
  induction budget generalizing other value before with
  | nil =>
    have hrest := List.length_eq_zero_iff.1 (Nat.le_zero.1 hbudget)
    exact (hlast hending hrest).symm
  | cons spare budget ih =>
    by_cases hrest : before.rest = []
    · exact (hlast hending hrest).trans (hlast hending hrest).symm
    · have hpos := List.length_pos_iff.2 hrest
      obtain ⟨another, others, rfl⟩ :=
        List.exists_cons_of_length_pos (Nat.lt_of_lt_of_le hpos hother)
      rw [List.length_cons] at hbudget hother
      rw [h.round, h.round, bind_apply, bind_apply]
      cases hrun : step value before with
      | error failure between => rfl
      | ok result between =>
        cases result with
        | inr last => rfl
        | inl more =>
          have hless := h.reads hending hrest hrun
          exact ih more (((h.step_steady value).of_ok hrun).ending ▸ hending) (by omega) (by omega)

theorem ahead_kind_of_nil (hending : before.ending.kind = .eof) (hrest : before.rest = []) :
    before.ahead.kind = .eof := by
  simp [State.ahead, hrest, hending]

section
variable {item : Rule α}

theorem roundsSuffice_items (h : Steady item) (excess : SyntaxError.Cause) (earlier : Array α) :
    RoundsSuffice (items item excess · earlier) := by
  refine (Exchange.repeats_items h excess).roundsSuffice
    (fun {budget earlier before} hending hrest => ?_) earlier
  cases budget with
  | nil => rfl
  | cons spare budget =>
    rw [items, items, bind_apply, bind_apply]
    cases hrun : counted item excess earlier.size before with
    | error failure between => rfl
    | ok value between =>
      have hcontinues := (h.counted excess _).of_ok hrun
      have hleft : between.rest = [] := List.suffix_nil.1 (hrest ▸ hcontinues.rest)
      have hend := ahead_kind_of_nil (hcontinues.ending ▸ hending) hleft
      simp [bind_apply, eat?_apply, hend]

end

section
variable {inner : Rule Nat} (h : Steady inner)
include h

theorem roundsSuffice_calls (callee : Nat) : RoundsSuffice (calls inner · callee) := by
  refine (Exchange.repeats_calls h).roundsSuffice
    (fun {budget callee before} hending hrest => ?_) callee
  cases budget with
  | nil => rfl
  | cons spare budget =>
    simp [calls, bind_apply, eat?_apply, ahead_kind_of_nil hending hrest]

theorem roundsSuffice_links {operator? : TokenKind → Option α} (hend : operator? .eof = none)
    (join : α → (left right line : Nat) → Node) (left : Nat) :
    RoundsSuffice (links operator? join inner · left) := by
  refine (Exchange.repeats_links operator? join h).roundsSuffice
    (fun {budget left before} hending hrest => ?_) left
  cases budget with
  | nil => rfl
  | cons spare budget =>
    simp [links, bind_apply, peek_apply, ahead_kind_of_nil hending hrest, hend]

end

/-- What a declaration recovers from reads a token wherever it yields something. -/
theorem exists_declaration_eq_recovering (levels : Nat) : ∃ rule : Rule Statement,
    declaration levels = recovering rule ∧ Steady rule ∧ Consumes rule := by
  let x : Exchange := ⟨[], [], .atEnd 0 1, rfl⟩
  have hlevels : x.Closing (statement levels) ∧ x.Closing (function levels) :=
    Exchange.closing_levels levels
  obtain ⟨rule, heq, hrule⟩ := Exchange.exists_recovering_levels hlevels.1 hlevels.2
  exact ⟨rule, heq, hrule.steady, hrule.consumes⟩

theorem roundsSuffice_entries (levels : Nat) (earlier : Array Statement) :
    RoundsSuffice (entries (declaration levels) · earlier) := by
  obtain ⟨rule, heq, hsteady, hconsumes⟩ := exists_declaration_eq_recovering levels
  rw [heq]
  refine (Exchange.repeats_entries hsteady hconsumes).roundsSuffice
    (fun {budget earlier before} hending hrest => ?_) earlier
  cases budget with
  | nil => rfl
  | cons spare budget =>
    simp [entries, bind_apply, check_apply, peek_apply, Token.isEnd,
      ahead_kind_of_nil hending hrest]

/-- The rounds suffice in every rule that repeats, whatever it repeats where so many levels are
free. -/
structure LoopsEnd (levels : Nat) : Prop where
  program : ∀ earlier, RoundsSuffice (declarations · earlier)
  block : ∀ earlier, RoundsSuffice (entries (declaration levels) · earlier)
  parameters : ∀ earlier, RoundsSuffice (items parameter .tooManyParameters · earlier)
  arguments : ∀ earlier, RoundsSuffice (items (assignment levels) .tooManyArguments · earlier)
  calls : ∀ callee, RoundsSuffice (calls (assignment levels) · callee)
  binary : ∀ (level : Precedence) {operand : Rule Nat}, Steady operand → ∀ left,
    RoundsSuffice (links (BinaryOperator.ofTokenAt? level) Node.binary operand · left)
  logical : ∀ (operator : LogicalOperator) {operand : Rule Nat}, Steady operand → ∀ left,
    RoundsSuffice (links
      (fun kind => if kind = .keyword operator.keyword then some operator else none)
      (fun operator left right _ => .logical operator left right) operand · left)

theorem loopsEnd (levels : Nat) : LoopsEnd levels where
  program _ _ _ _ := declarations_congr_budget
  block := roundsSuffice_entries levels
  parameters := roundsSuffice_items steady_parameter _
  arguments := roundsSuffice_items (steady_levels levels).1 _
  calls := roundsSuffice_calls (steady_levels levels).1
  binary _ _ hoperand := roundsSuffice_links hoperand rfl _
  logical _ _ hoperand := roundsSuffice_links hoperand rfl _

end Lox.Grammar
