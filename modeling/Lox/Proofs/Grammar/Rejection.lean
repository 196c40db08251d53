import Lox.Proofs.Grammar.Extent
import Lox.Proofs.Grammar.Hereditary

/-!
# Where rules are abandoned

On tokens whose literals have their values, a rule that fails is rejected at the token ahead of it,
for a cause that abandons the declaration at hand. So a rule that recovers does not fail at all: the
error it records last stands where it was abandoned, and parsing goes on at the first boundary
behind.
-/

namespace Lox

/-- A number or string token has its value. -/
def Token.Valued (token : Token) : Prop :=
  token.kind = .number ∨ token.kind = .string → token.value.isSome

instance (token : Token) : Decidable token.Valued :=
  inferInstanceAs (Decidable (_ → _))

namespace Grammar

variable {α β : Type}

/-- All literals that are left have their values, and the end is one. -/
structure State.Valued (state : State) : Prop where
  rest : ∀ token ∈ state.rest, token.Valued
  ending_kind : state.ending.kind = .eof

theorem State.Valued.ahead {state : State} (h : state.Valued) : state.ahead.Valued := by
  cases hrest : state.rest with
  | nil => simp [State.ahead, hrest, Token.Valued, h.ending_kind]
  | cons token rest =>
    rw [State.ahead_of_rest hrest]
    exact h.rest token (hrest ▸ List.mem_cons_self)

theorem State.Continues.valued {before after : State} (h : before.Continues after)
    (hbefore : before.Valued) : after.Valued :=
  ⟨fun token hmem => hbefore.rest token (h.rest.subset hmem), h.ending ▸ hbefore.ending_kind⟩

/-- A steady rule that, where it fails, is rejected at the token ahead. -/
structure FailsAhead (rule : Rule α) : Prop where
  steady : Steady rule
  failure_eq : ∀ {before after : State} {failure : Failure}, before.Valued →
    rule before = .error failure after →
      ∃ cause, cause.abandons = true ∧ failure = .rejected ⟨cause, after.ahead⟩

theorem FailsAhead.bind {rule : Rule α} {next : α → Rule β} (first : FailsAhead rule)
    (second : ∀ value, FailsAhead (next value)) : FailsAhead (rule >>= next) where
  steady := first.steady.bind fun value => (second value).steady
  failure_eq {before after failure} hbefore hrun := by
    rw [bind_apply] at hrun
    cases hfirst : rule before with
    | ok value between =>
      rw [hfirst] at hrun
      exact (second value).failure_eq ((first.steady.of_ok hfirst).valued hbefore) hrun
    | error earlier between =>
      rw [hfirst] at hrun
      cases hrun
      exact first.failure_eq hbefore hfirst

/-- A rule that always yields a value. -/
theorem Steady.failsAhead {rule : Rule α} (h : Steady rule)
    (hok : ∀ before, ∃ value after, rule before = .ok value after) : FailsAhead rule where
  steady := h
  failure_eq {before after failure} _ hrun := by
    obtain ⟨value, final, hvalue⟩ := hok before
    rw [hvalue] at hrun
    cases hrun

theorem failsAhead_reject {cause : SyntaxError.Cause} (habandons : cause.abandons = true) :
    FailsAhead (reject cause : Rule α) where
  steady := steady_reject cause
  failure_eq _ hrun := by
    cases hrun
    exact ⟨cause, habandons, rfl⟩

theorem failsAhead_expect (kind : TokenKind) (message : String) :
    FailsAhead (expect kind message) where
  steady := steady_expect kind message
  failure_eq _ hrun := by
    rw [expect_apply] at hrun
    split at hrun
    case isTrue => cases hrun
    case isFalse =>
      cases hrun
      exact ⟨_, rfl, rfl⟩

/-- In front of a literal, the value is there. -/
theorem FailsAhead.primary {inner : Rule Nat} (h : FailsAhead inner) :
    FailsAhead (primary inner) where
  steady := steady_primary h.steady
  failure_eq {before after failure} hbefore hrun := by
    have hgroup : FailsAhead (do
        let _ ← advance
        let index ← inner
        let _ ← expect .rightParen "Expect ')' after expression."
        addNode (.group index)) :=
      (steady_advance.failsAhead fun _ => ⟨_, _, rfl⟩).bind fun _ => h.bind fun index =>
        (failsAhead_expect _ _).bind fun _ => (steady_addNode _).failsAhead fun _ => ⟨_, _, rfl⟩
    rw [Grammar.primary, bind_apply, peek_apply] at hrun
    cases hkind : before.ahead.kind with
    | number | string =>
      obtain ⟨value, hvalue⟩ := Option.isSome_iff_exists.1 (hbefore.ahead (by simp [hkind]))
      simp only [hkind, hvalue] at hrun
      cases hrun
    | identifier =>
      simp only [hkind] at hrun
      cases hrun
    | leftParen =>
      simp only [hkind] at hrun
      exact hgroup.failure_eq hbefore hrun
    | keyword word =>
      cases word <;> simp only [hkind] at hrun <;> cases hrun <;> exact ⟨_, rfl, rfl⟩
    | _ =>
      simp only [hkind] at hrun
      cases hrun
      exact ⟨_, rfl, rfl⟩

/-! ### Rules that are run inside of something -/

theorem FailsAhead.nested {rule : Rule α} (h : FailsAhead rule) : FailsAhead (nested rule) where
  steady := h.steady.nested
  failure_eq {before after failure} hbefore hrun := by
    rw [Grammar.nested] at hrun
    split at hrun
    case isTrue =>
      cases hrun
      exact ⟨_, rfl, rfl⟩
    case isFalse =>
      have hinside : State.Valued { before with nesting := before.nesting + 1 } :=
        ⟨hbefore.rest, hbefore.ending_kind⟩
      cases hinner : rule { before with nesting := before.nesting + 1 } with
      | ok value final =>
        rw [hinner] at hrun
        cases hrun
      | error earlier final =>
        rw [hinner] at hrun
        cases hrun
        obtain ⟨cause, habandons, rfl⟩ := h.failure_eq hinside hinner
        exact ⟨cause, habandons, rfl⟩

theorem FailsAhead.inFunction {rule : Rule α} (h : FailsAhead rule) :
    FailsAhead (inFunction rule) where
  steady := h.steady.inFunction
  failure_eq {before after failure} hbefore hrun := by
    rw [Grammar.inFunction] at hrun
    have hinside : State.Valued { before with functionDepth := before.functionDepth + 1 } :=
      ⟨hbefore.rest, hbefore.ending_kind⟩
    cases hinner : rule { before with functionDepth := before.functionDepth + 1 } with
    | ok value final =>
      rw [hinner] at hrun
      cases hrun
    | error earlier final =>
      rw [hinner] at hrun
      cases hrun
      obtain ⟨cause, habandons, rfl⟩ := h.failure_eq hinside hinner
      exact ⟨cause, habandons, rfl⟩

theorem FailsAhead.building {rule : Rule Nat} (h : FailsAhead rule) :
    FailsAhead (building rule) where
  steady := h.steady.building
  failure_eq {before after failure} hbefore hrun := by
    rw [Grammar.building] at hrun
    have hinside : State.Valued { before with nodes := #[] } :=
      ⟨hbefore.rest, hbefore.ending_kind⟩
    cases hinner : rule { before with nodes := #[] } with
    | ok value final =>
      rw [hinner] at hrun
      cases hrun
    | error earlier final =>
      rw [hinner] at hrun
      cases hrun
      obtain ⟨cause, habandons, rfl⟩ := h.failure_eq hinside hinner
      exact ⟨cause, habandons, rfl⟩

/-- A rule that recovers yields something, and where it yields nothing, it was abandoned at a token
that is still ahead of what is skipped. -/
theorem FailsAhead.recovering_eq {rule : Rule α} (h : FailsAhead rule) {before : State}
    (hbefore : before.Valued) :
    (∃ value after, recovering rule before = .ok (some value) after) ∨
      ∃ cause inner, cause.abandons = true ∧ before.Continues inner ∧
        recovering rule before = .ok none { inner with
          errors := inner.errors.push ⟨cause, inner.ahead⟩
          rest := synchronize inner.rest } := by
  rw [Grammar.recovering]
  cases hrun : rule before with
  | ok value after => exact .inl ⟨value, after, rfl⟩
  | error failure inner =>
    obtain ⟨cause, habandons, rfl⟩ := h.failure_eq hbefore hrun
    exact .inr ⟨cause, inner, habandons, h.steady.of_error hrun, rfl⟩

theorem FailsAhead.recovering {rule : Rule α} (h : FailsAhead rule) :
    FailsAhead (recovering rule) where
  steady := h.steady.recovering
  failure_eq {before after failure} hbefore hrun := by
    obtain ⟨value, final, hok⟩ | ⟨cause, inner, -, -, hok⟩ := h.recovering_eq hbefore <;>
    · rw [hok] at hrun
      cases hrun

theorem hereditary_failsAhead : HereditaryToNodes FailsAhead where
  pure value := (steady_pure value).failsAhead fun _ => ⟨_, _, rfl⟩
  get := steady_get.failsAhead fun _ => ⟨_, _, rfl⟩
  advance := steady_advance.failsAhead fun _ => ⟨_, _, rfl⟩
  reject := failsAhead_reject
  report cause token := (steady_report cause token).failsAhead fun _ => ⟨_, _, rfl⟩
  addNode node := (steady_addNode node).failsAhead fun _ => ⟨_, _, rfl⟩
  bind := .bind
  nested := .nested
  inFunction := .inFunction
  building := .building
  recovering := .recovering
  primary := .primary

end Grammar

end Lox
