import Lox.Proofs.Grammar.Acceptance

/-!
# How far an expression is read

The rules for expressions are steady, and none of them ends in front of a token that goes on with
what it has read. The loops end at such a token and not for want of rounds, since they have one for
each token that is left.
-/

namespace Lox.Grammar

variable {α : Type}

/-! ### Steady rules -/

theorem steady_leaf (node : Node) : Steady (leaf node) :=
  steady_advance.bind fun _ => steady_addNode node

theorem steady_primary {inner : Rule Nat} (h : Steady inner) : Steady (primary inner) := by
  refine steady_peek.bind fun token => ?_
  split
  · exact steady_leaf _
  · exact steady_leaf _
  · exact steady_leaf _
  · split
    · exact steady_leaf _
    · exact steady_throw _
  · split
    · exact steady_leaf _
    · exact steady_throw _
  · exact steady_leaf _
  · exact steady_advance.bind fun _ => h.bind fun _ => (steady_expect _ _).bind fun _ =>
      steady_addNode _
  · exact steady_reject _

variable {argument : Rule Nat}

theorem steady_calls (h : Steady argument) (budget : List Token) (callee : Nat) :
    Steady (calls argument budget callee) := by
  induction budget generalizing callee with
  | nil => exact steady_pure callee
  | cons _ budget ih =>
    refine (steady_eat? _).bind fun opening => ?_
    cases opening with
    | none => exact steady_pure callee
    | some _ =>
      exact (h.commaSeparated _).bind fun _ => (steady_expect _ _).bind fun _ =>
        (steady_addNode _).bind ih

theorem steady_call (h : Steady argument) : Steady (call argument) :=
  (steady_primary h).bind fun callee => steady_get.bind fun _ => steady_calls h _ callee

theorem steady_unaryRule {operand : Rule Nat} (h : Steady argument) (hoperand : Steady operand) :
    Steady (unaryRule argument operand) := by
  refine steady_peek.bind fun token => ?_
  split
  · exact steady_advance.bind fun _ => hoperand.bind fun _ => steady_addNode _
  · exact steady_call h

section
variable {operator? : TokenKind → Option α} {join : α → (left right line : Nat) → Node}
  {operand : Rule Nat}

theorem steady_links (h : Steady operand) (budget : List Token) (left : Nat) :
    Steady (links operator? join operand budget left) := by
  induction budget generalizing left with
  | nil => exact steady_pure left
  | cons _ budget ih =>
    refine steady_peek.bind fun token => ?_
    split
    · exact steady_pure left
    · exact steady_advance.bind fun _ => h.bind fun _ => (steady_addNode _).bind ih

theorem steady_chain (h : Steady operand) : Steady (chain operator? join operand) :=
  h.bind fun left => steady_get.bind fun _ => steady_links h _ left

end

theorem steady_operation {unary : Rule Nat} (h : Steady unary) : Steady (operation unary) :=
  steady_chain (steady_chain (steady_chain (steady_chain (steady_chain (steady_chain h)))))

theorem steady_assignmentRule {unary value : Rule Nat} (hunary : Steady unary)
    (hvalue : Steady value) : Steady (assignmentRule unary value) := by
  refine (steady_operation hunary).bind fun target => (steady_eat? _).bind fun equals => ?_
  cases equals with
  | none => exact steady_pure target
  | some equals =>
    refine hvalue.bind fun index => steady_get.bind fun state => ?_
    split
    · exact steady_addNode _
    · exact (steady_report _ _).bind fun _ => steady_pure target

theorem steady_levels (levels : Nat) : Steady (assignment levels) ∧ Steady (unary levels) := by
  induction levels with
  | zero => exact ⟨steady_reject _, steady_reject _⟩
  | succ levels ih =>
    have hrule := steady_unaryRule ih.1 ih.2
    exact ⟨(steady_assignmentRule hrule ih.1).nested, hrule.nested⟩

theorem steady_expression (levels : Nat) : Steady (expression levels) :=
  (steady_levels levels).1.building

/-! ### Where rules end -/

theorem Stops.tighten {place : Nat} {kind : TokenKind} (h : Stops (place + 1) kind)
    (hne : kind.continues? ≠ some place) : Stops place kind := by
  intro other hother
  have hle := Nat.le_of_lt_succ (h other hother)
  exact Nat.lt_of_le_of_ne hle fun heq => hne (heq ▸ hother)

theorem continues?_cases {kind : TokenKind} {place : Nat} (h : kind.continues? = some place) :
    kind = .equal ∧ place = 0 ∨ kind = .leftParen ∧ place = 8 ∨
      ∃ connective, Connective.ofToken? kind = some connective ∧ connective.place = place := by
  unfold TokenKind.continues? at h
  split at h
  case h_1 =>
    cases h
    exact .inl ⟨rfl, rfl⟩
  case h_2 =>
    cases h
    exact .inr (.inl ⟨rfl, rfl⟩)
  case h_3 => exact .inr (.inr (Option.map_eq_some_iff.1 h))

/-- Whenever the rule yields a value, the token ahead does not go on with what it has read. -/
def Ends (rule : Rule Nat) (place : Nat) : Prop :=
  ∀ ⦃before after : State⦄ ⦃index : Nat⦄, rule before = .ok index after →
    before.ending.kind = .eof → Stops place after.ahead.kind

theorem stops_of_rest_nil {state : State} (hrest : state.rest = []) (hending : state.ending.kind = .eof)
    (place : Nat) : Stops place state.ahead.kind := by
  rw [State.ahead, hrest, List.headD_nil, hending]
  exact .of_none place rfl

theorem stops_calls (h : Steady argument) {budget : List Token} :
    ∀ {callee index : Nat} {before after : State},
      calls argument budget callee before = .ok index after → before.ending.kind = .eof →
      before.rest.length ≤ budget.length → Stops 8 after.ahead.kind := by
  induction budget with
  | nil =>
    intro callee index before after hrun hending hbudget
    cases hrun
    exact stops_of_rest_nil (List.length_eq_zero_iff.1 (Nat.le_zero.1 hbudget)) hending 8
  | cons spare budget ih =>
    intro callee index before after hrun hending hbudget
    by_cases hopening : before.ahead.kind = .leftParen
    · obtain ⟨opening, tail, hrest, hopening⟩ :=
        State.exists_rest_of_ahead hopening hending (by decide)
      rw [calls_of_leftParen hrest hopening] at hrun
      obtain ⟨arguments, first, hfirst, hrun⟩ := bind_eq_ok.1 hrun
      obtain ⟨closing, second, hsecond, hrun⟩ := bind_eq_ok.1 hrun
      rw [bind_of_ok (addNode_apply ..)] at hrun
      have hsteady := ((h.commaSeparated _).of_ok hfirst).trans ((steady_expect _ _).of_ok hsecond)
      have hlength : second.rest.length ≤ tail.length := hsteady.rest.length_le
      refine ih hrun (hsteady.ending ▸ hending) ?_
      rw [hrest, List.length_cons, List.length_cons] at hbudget
      exact Nat.le_trans hlength (Nat.le_of_succ_le_succ hbudget)
    · rw [calls_of_other hopening] at hrun
      cases hrun
      refine (stops_nine _).tighten fun heq => ?_
      obtain ⟨-, hplace⟩ | ⟨hkind, -⟩ | ⟨connective, -, hplace⟩ := continues?_cases heq
      · cases hplace
      · exact hopening hkind
      · exact absurd connective.place_le (by omega)

theorem ends_call (h : Steady argument) : Ends (call argument) 8 := by
  intro before after index hrun hending
  obtain ⟨callee, between, hcallee, hrun⟩ := bind_eq_ok.1 hrun
  refine stops_calls h hrun ?_ (Nat.le_refl _)
  rw [((steady_primary h).of_ok hcallee).ending, hending]

theorem ends_unaryRule {operand : Rule Nat} (h : Steady argument) (hoperand : Ends operand 7) :
    Ends (unaryRule argument operand) 7 := by
  intro before after index hrun hending
  cases hsign : UnaryOperator.ofToken? before.ahead.kind with
  | none =>
    rw [unaryRule_of_none hsign] at hrun
    refine (ends_call h hrun hending).tighten fun heq => ?_
    obtain ⟨-, hplace⟩ | ⟨-, hplace⟩ | ⟨connective, -, hplace⟩ := continues?_cases heq
    · cases hplace
    · cases hplace
    · exact absurd connective.place_le (by omega)
  | some operator =>
    obtain ⟨tail, hrest⟩ : ∃ tail, before.rest = before.ahead :: tail := by
      refine before.exists_rest_eq_cons hending fun heof => ?_
      simp [UnaryOperator.ofToken?, heof] at hsign
    rw [unaryRule_of_some hrest hsign] at hrun
    obtain ⟨inner, between, hoperandRun, hadd⟩ := bind_eq_ok.1 hrun
    have hstops : Stops 7 between.ahead.kind := hoperand hoperandRun hending
    cases hadd
    exact hstops

section
variable {operator? : TokenKind → Option α} {join : α → (left right line : Nat) → Node}
  {place : Nat} {connective : α → Connective} {operand : Rule Nat}

theorem stops_of_operator?_eq_none (h : Joins operator? join place connective) (hpos : 0 < place)
    (hle : place ≤ 6) {kind : TokenKind} (hnone : operator? kind = none)
    (hstops : Stops (place + 1) kind) : Stops place kind := by
  refine hstops.tighten fun heq => ?_
  obtain ⟨-, hplace⟩ | ⟨-, hplace⟩ | ⟨sign, hsign, hplace⟩ := continues?_cases heq
  · omega
  · omega
  · obtain ⟨operator, hoperator, -⟩ := h.exists_of_ofToken? hsign hplace
    rw [hnone] at hoperator
    cases hoperator

theorem stops_links (h : Joins operator? join place connective) (hpos : 0 < place) (hle : place ≤ 6)
    (hsteady : Steady operand) (hends : Ends operand (place + 1)) {budget : List Token} :
    ∀ {left index : Nat} {before after : State},
      links operator? join operand budget left before = .ok index after →
      before.ending.kind = .eof → before.rest.length ≤ budget.length →
      Stops (place + 1) before.ahead.kind → Stops place after.ahead.kind := by
  induction budget with
  | nil =>
    intro left index before after hrun hending hbudget _
    cases hrun
    exact stops_of_rest_nil (List.length_eq_zero_iff.1 (Nat.le_zero.1 hbudget)) hending place
  | cons spare budget ih =>
    intro left index before after hrun hending hbudget hstops
    cases hsign : operator? before.ahead.kind with
    | none =>
      rw [links_of_none hsign] at hrun
      cases hrun
      exact stops_of_operator?_eq_none h hpos hle hsign hstops
    | some operator =>
      obtain ⟨hreads, -⟩ := h.ofToken?_of_some hsign
      obtain ⟨tail, hrest⟩ := before.exists_rest_eq_cons hending fun heof => by
        simp [heof, Connective.ofToken?, BinaryOperator.ofToken?] at hreads
      rw [links_of_some hrest hsign] at hrun
      obtain ⟨right, between, hright, hrun⟩ := bind_eq_ok.1 hrun
      rw [bind_of_ok (addNode_apply ..)] at hrun
      have hcontinues := hsteady.of_ok hright
      have hlength : between.rest.length ≤ tail.length := hcontinues.rest.length_le
      have hbetween : Stops (place + 1) between.ahead.kind := hends hright hending
      refine ih hrun (hcontinues.ending ▸ hending) ?_ hbetween
      rw [hrest, List.length_cons, List.length_cons] at hbudget
      exact Nat.le_trans hlength (Nat.le_of_succ_le_succ hbudget)

theorem ends_chain (h : Joins operator? join place connective) (hpos : 0 < place) (hle : place ≤ 6)
    (hsteady : Steady operand) (hends : Ends operand (place + 1)) :
    Ends (chain operator? join operand) place := by
  intro before after index hrun hending
  obtain ⟨left, between, hleft, hrun⟩ := bind_eq_ok.1 hrun
  refine stops_links h hpos hle hsteady hends hrun ?_ (Nat.le_refl _) (hends hleft hending)
  rw [(hsteady.of_ok hleft).ending, hending]

end

theorem ends_operation {unary : Rule Nat} (h : Steady unary) (hends : Ends unary 7) :
    Ends (operation unary) 1 := by
  have hproduct := ends_chain (joins_binary .product) (by decide) (by decide) h hends
  have hsum := ends_chain (joins_binary .sum) (by decide) (by decide) (steady_chain h) hproduct
  have hcomparison := ends_chain (joins_binary .comparison) (by decide) (by decide)
    (steady_chain (steady_chain h)) hsum
  have hequality := ends_chain (joins_binary .equality) (by decide) (by decide)
    (steady_chain (steady_chain (steady_chain h))) hcomparison
  have hand := ends_chain (joins_logical .and) (by decide) (by decide)
    (steady_chain (steady_chain (steady_chain (steady_chain h)))) hequality
  exact ends_chain (joins_logical .or) (by decide) (by decide)
    (steady_chain (steady_chain (steady_chain (steady_chain (steady_chain h))))) hand

theorem ends_assignmentRule {unary value : Rule Nat} (h : Steady unary) (hends : Ends unary 7)
    (hvalue : Ends value 0) : Ends (assignmentRule unary value) 0 := by
  intro before after index hrun hending
  obtain ⟨target, between, hoperation, -⟩ := bind_eq_ok.1 hrun
  have hstops := ends_operation h hends hoperation hending
  have hcontinues := (steady_operation h).of_ok hoperation
  have hbetween : between.ending.kind = .eof := hcontinues.ending ▸ hending
  by_cases hequal : between.ahead.kind = .equal
  · obtain ⟨equals, tail, hrest, hequal⟩ := State.exists_rest_of_ahead hequal hbetween (by decide)
    rw [assignmentRule_of_equal hoperation hrest hequal] at hrun
    obtain ⟨root, last, hlast, hrun⟩ := bind_eq_ok.1 hrun
    have hlastStops := hvalue hlast hbetween
    rw [bind_of_ok (get_apply last)] at hrun
    cases hnode : last.nodes[target]? with
    | none =>
      simp only [hnode] at hrun
      cases hrun
      exact hlastStops
    | some node =>
      cases node <;>
      · simp only [hnode] at hrun
        cases hrun
        exact hlastStops
  · rw [assignmentRule_of_other hoperation hequal] at hrun
    cases hrun
    refine hstops.tighten fun heq => ?_
    obtain ⟨hkind, -⟩ | ⟨-, hplace⟩ | ⟨connective, -, hplace⟩ := continues?_cases heq
    · exact hequal hkind
    · cases hplace
    · exact absurd connective.place_pos (by omega)

theorem ends_nested {rule : Rule Nat} {place : Nat} (h : Ends rule place) :
    Ends (nested rule) place := by
  intro before after index hrun hending
  obtain ⟨inner, hinner, rfl⟩ := nested_eq_ok hrun
  have hstops : Stops place inner.ahead.kind := h hinner hending
  exact hstops

theorem ends_levels (levels : Nat) : Ends (assignment levels) 0 ∧ Ends (unary levels) 7 := by
  induction levels with
  | zero =>
    refine ⟨?_, ?_⟩ <;>
    · intro before after index hrun
      cases hrun
  | succ levels ih =>
    obtain ⟨hassignment, hunary⟩ := steady_levels levels
    have hrule := ends_unaryRule hassignment ih.2
    exact ⟨ends_nested (ends_assignmentRule (steady_unaryRule hassignment hunary) hrule ih.1),
      ends_nested hrule⟩

/-- Behind an expression stands no token that could have been part of it. -/
theorem stops_of_expression {levels : Nat} {before after : State} {parsed : Expression}
    (hrun : expression levels before = .ok parsed after) (hending : before.ending.kind = .eof) :
    Stops 0 after.ahead.kind := by
  rw [expression, building] at hrun
  split at hrun
  case h_2 => cases hrun
  case h_1 root inner heq =>
    cases hrun
    have hstops : Stops 0 inner.ahead.kind := (ends_levels levels).1 heq hending
    exact hstops

end Lox.Grammar
