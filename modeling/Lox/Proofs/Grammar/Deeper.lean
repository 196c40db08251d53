import Lox.Proofs.Grammar.Concatenation

/-!
# One level deeper

Where one more level is open, and one level less is free, an expression is read as before, unless
the rules run out of levels on the way. Nothing else in a run depends on how many levels are open.

A statement opens a level before it looks at its expression, and a text that is one expression does
not. So the two ways to read the same tokens agree up to this one level.
-/

namespace Lox

namespace Grammar

variable {α β : Type}

/-- The state with one more level open. -/
def State.deeper (state : State) : State := { state with nesting := state.nesting + 1 }

/-- How the states of a run are seen where one more level is open. -/
def deepening : View State State Failure Failure := ⟨State.deeper, id⟩

/-- How they are seen behind a level that is closed again. -/
def rising : View State State Failure Failure :=
  ⟨fun state => { state with nesting := state.nesting - 1 }, id⟩

/-- The first rule, one level deeper, fails for want of levels at a point that the second one
passes, and it fails in front of what the second one leaves behind. -/
def RunsOut (rule other : Rule α) (before : State) : Prop :=
  ∃ between : State,
    rule before.deeper = .error (.rejected ⟨.tooDeep, between.ahead⟩) between.deeper ∧
    between.Continues (endState other before) ∧
    ∀ value after, other before = .ok value after → after.rest.length < between.rest.length

/-- The first rule, one level deeper, does what the second one does, or it runs out of levels. -/
structure Deepens (rule other : Rule α) : Prop where
  steady : Steady other
  run : ∀ {before : State}, before.ending.kind = .eof →
    rule before.deeper = deepening.result id (other before) ∨ RunsOut rule other before

variable {rule other : Rule α} {before : State}

/-! ### Combinators -/

theorem deepens_pure (value : α) : Deepens (pure value) (pure value) :=
  ⟨steady_pure value, fun _ => .inl rfl⟩

theorem deepens_throw (failure : Failure) : Deepens (throw failure : Rule α) (throw failure) :=
  ⟨steady_throw failure, fun _ => .inl rfl⟩

theorem deepens_peek : Deepens peek peek :=
  ⟨steady_peek, fun _ => .inl rfl⟩

theorem deepens_advance : Deepens advance advance :=
  ⟨steady_advance, fun _ => .inl rfl⟩

theorem deepens_report (cause : SyntaxError.Cause) (token : Token) :
    Deepens (report cause token) (report cause token) :=
  ⟨steady_report cause token, fun _ => .inl rfl⟩

theorem deepens_addNode (node : Node) : Deepens (addNode node) (addNode node) :=
  ⟨steady_addNode node, fun _ => .inl rfl⟩

/-- What runs behind a rule goes on from where that rule has ended. -/
theorem continues_endState_bind {next : α → Rule β} (hnext : ∀ value, Steady (next value))
    (rule : Rule α) (before : State) :
    (endState rule before).Continues (endState (rule >>= next) before) := by
  rw [endState, endState, bind_apply]
  cases rule before with
  | ok value after => exact hnext value after
  | error failure after => exact .refl after

theorem RunsOut.bind {next nextOther : α → Rule β} (h : RunsOut rule other before)
    (hnext : ∀ value, Steady (nextOther value)) :
    RunsOut (rule >>= next) (other >>= nextOther) before := by
  obtain ⟨between, hout, hcontinues, hless⟩ := h
  refine ⟨between, ?_, hcontinues.trans (continues_endState_bind hnext other before), ?_⟩
  · rw [bind_apply, hout]
  · intro value after hrun
    obtain ⟨first, middle, hfirst, hsecond⟩ := bind_eq_ok.1 hrun
    have hlast := ((hnext first).of_ok hsecond).rest.length_le
    have hmiddle := hless first middle hfirst
    omega

theorem Deepens.bind {next nextOther : α → Rule β} (first : Deepens rule other)
    (second : ∀ value, Deepens (next value) (nextOther value)) :
    Deepens (rule >>= next) (other >>= nextOther) where
  steady := first.steady.bind fun value => (second value).steady
  run {before} hending := by
    obtain hsame | hout := first.run hending
    · rw [RunsOut, endState, bind_apply, bind_apply, hsame]
      cases hrun : other before with
      | error failure after => exact .inl rfl
      | ok value after => exact (second value).run ((first.steady.of_ok hrun).ending ▸ hending)
    · exact .inr (hout.bind fun value => (second value).steady)

theorem Deepens.ite {condition : Prop} [Decidable condition] {first firstOther : Rule α}
    (h : Deepens rule other) (hfirst : Deepens first firstOther) :
    Deepens (if condition then rule else first) (if condition then other else firstOther) := by
  split
  · exact h
  · exact hfirst

/-- What is read off the state may be used if it is not how many levels are open. -/
theorem deepens_get {next nextOther : State → Rule α}
    (h : ∀ state, Deepens (next state) (nextOther state))
    (hsame : ∀ state : State, next state.deeper = next state) :
    Deepens (get >>= next) (get >>= nextOther) where
  steady := steady_get.bind fun state => (h state).steady
  run {before} hending := by
    have hrun := (h before).run hending
    rw [RunsOut, ← hsame] at hrun
    exact hrun

theorem deepens_check (kind : TokenKind) : Deepens (check kind) (check kind) :=
  deepens_peek.bind fun _ => deepens_pure _

theorem deepens_reject (cause : SyntaxError.Cause) :
    Deepens (reject cause : Rule α) (reject cause) :=
  deepens_peek.bind fun _ => deepens_throw _

theorem deepens_eat? (kind : TokenKind) : Deepens (eat? kind) (eat? kind) :=
  (deepens_check kind).bind fun _ => .ite (deepens_advance.bind fun _ => deepens_pure _)
    (deepens_pure _)

theorem deepens_expect (kind : TokenKind) (message : String) :
    Deepens (expect kind message) (expect kind message) := by
  refine (deepens_eat? kind).bind fun found => ?_
  cases found with
  | none => exact deepens_reject _
  | some token => exact deepens_pure token

/-- Where no level is free a rule runs out of them, if it would read a token. -/
theorem deepens_tooDeep (hsteady : Steady other) (hconsumes : Consumes other) :
    Deepens (reject .tooDeep) other :=
  ⟨hsteady, fun {before} hending =>
    .inr ⟨before, rfl, hsteady before, fun _ _ hrun => hconsumes hrun hending⟩⟩

section
variable (h : Deepens rule other)
include h

omit h in
theorem nested_of_room (hroom : ¬ maxNesting ≤ before.nesting) :
    Grammar.nested rule before = rising.result id (rule before.deeper) := by
  rw [Grammar.nested, if_neg hroom, State.deeper]
  cases rule { before with nesting := before.nesting + 1 } <;> rfl

/-- Of the two only the deeper one may find all levels open. -/
theorem Deepens.nested (hconsumes : Consumes other) :
    Deepens (Grammar.nested rule) (Grammar.nested other) where
  steady := h.steady.nested
  run {before} hending := by
    have hopen : (endState other before.deeper).nesting = before.nesting + 1 :=
      (h.steady before.deeper).nesting
    by_cases hfull : maxNesting ≤ before.nesting
    · have hfullDeeper : maxNesting ≤ before.deeper.nesting := Nat.le_succ_of_le hfull
      rw [Grammar.nested, Grammar.nested, if_pos hfull, if_pos hfullDeeper]
      exact .inl rfl
    by_cases hlast : maxNesting ≤ before.deeper.nesting
    · refine .inr ⟨before, ?_, h.steady.nested before, fun value after hrun => ?_⟩
      · rw [Grammar.nested, if_pos hlast]
        rfl
      · exact hconsumes.nested hrun hending
    obtain hsame | ⟨between, hout, hcontinues, hless⟩ :=
      h.run (show before.deeper.ending.kind = .eof from hending)
    · left
      rw [nested_of_room hlast, nested_of_room hfull, hsame]
      rw [endState] at hopen
      cases hrun : other before.deeper with
      | ok value after | error failure after =>
        rw [hrun] at hopen
        simp [View.result, deepening, rising, State.deeper, hopen]
    · right
      have hnesting : between.nesting = before.nesting + 1 := hcontinues.nesting ▸ hopen
      refine ⟨{ between with nesting := between.nesting - 1 }, ?_, ?_, fun value after hrun => ?_⟩
      · rw [nested_of_room hlast, hout]
        simp [View.result, rising, State.deeper, State.ahead, hnesting]
      · rw [endState_nested, if_neg hfull]
        exact { hcontinues with nesting := congrArg (· - 1) hcontinues.nesting }
      · obtain ⟨inner, hinner, rfl⟩ := nested_eq_ok hrun
        exact hless value inner hinner

omit h in
theorem Deepens.building {rule other : Rule Nat} (h : Deepens rule other) :
    Deepens (Grammar.building rule) (Grammar.building other) where
  steady := h.steady.building
  run {before} hending := by
    have hendingInner : { before with nodes := #[] }.ending.kind = .eof := hending
    obtain hsame | ⟨between, hout, hcontinues, hless⟩ := h.run hendingInner
    · left
      have hrule : rule { before.deeper with nodes := #[] } = _ := hsame
      rw [Grammar.building, Grammar.building, hrule]
      cases other { before with nodes := #[] } <;> rfl
    · right
      have hrule : rule { before.deeper with nodes := #[] } = _ := hout
      refine ⟨{ between with nodes := before.nodes }, ?_, ?_, fun value after hrun => ?_⟩
      · rw [Grammar.building, hrule]
        rfl
      · rw [endState_building]
        exact { hcontinues with nodes := List.prefix_rfl }
      · rw [Grammar.building] at hrun
        split at hrun
        case h_1 root inner hinner =>
          cases hrun
          exact hless root inner hinner
        case h_2 => cases hrun

theorem Deepens.counted (excess : SyntaxError.Cause) (earlier : Nat) :
    Deepens (counted rule excess earlier) (counted other excess earlier) :=
  .ite (deepens_peek.bind fun _ => (deepens_report _ _).bind fun _ => h) h

theorem Deepens.items (excess : SyntaxError.Cause) (budget : List Token) (earlier : Array α) :
    Deepens (items rule excess budget earlier) (items other excess budget earlier) := by
  induction budget generalizing earlier with
  | nil =>
    rw [Grammar.items, Grammar.items]
    exact (h.counted _ _).bind fun _ => deepens_pure _
  | cons _ budget ih =>
    rw [Grammar.items, Grammar.items]
    refine (h.counted _ _).bind fun value => (deepens_eat? _).bind fun comma => ?_
    cases comma with
    | none => exact deepens_pure _
    | some _ => exact ih _

theorem Deepens.commaSeparated (excess : SyntaxError.Cause) :
    Deepens (commaSeparated rule excess) (commaSeparated other excess) :=
  (deepens_check _).bind fun _ =>
    .ite (deepens_pure _) (deepens_get (fun _ => h.items excess _ _) fun _ => rfl)

end

/-! ### Expressions -/

theorem deepens_leaf (node : Node) : Deepens (leaf node) (leaf node) :=
  deepens_advance.bind fun _ => deepens_addNode node

section
variable {rule other : Rule Nat} (h : Deepens rule other)
include h

theorem Deepens.primary : Deepens (primary rule) (primary other) := by
  refine deepens_peek.bind fun token => ?_
  split
  · exact deepens_leaf _
  · exact deepens_leaf _
  · exact deepens_leaf _
  · cases token.value with
    | some value => exact deepens_leaf _
    | none => exact deepens_throw _
  · cases token.value with
    | some value => exact deepens_leaf _
    | none => exact deepens_throw _
  · exact deepens_leaf _
  · exact deepens_advance.bind fun _ => h.bind fun _ => (deepens_expect _ _).bind fun _ =>
      deepens_addNode _
  · exact deepens_reject _

theorem Deepens.calls (budget : List Token) (callee : Nat) :
    Deepens (calls rule budget callee) (calls other budget callee) := by
  induction budget generalizing callee with
  | nil => exact deepens_pure callee
  | cons _ budget ih =>
    refine (deepens_eat? _).bind fun opening => ?_
    cases opening with
    | none => exact deepens_pure callee
    | some _ =>
      exact (h.commaSeparated _).bind fun _ => (deepens_expect _ _).bind fun _ =>
        (deepens_addNode _).bind ih

theorem Deepens.call : Deepens (call rule) (call other) :=
  h.primary.bind fun callee => deepens_get (fun _ => h.calls _ callee) fun _ => rfl

theorem Deepens.unaryRule {operand operandOther : Rule Nat}
    (hoperand : Deepens operand operandOther) :
    Deepens (unaryRule rule operand) (unaryRule other operandOther) := by
  refine deepens_peek.bind fun token => ?_
  cases UnaryOperator.ofToken? token.kind with
  | none => exact h.call
  | some operator =>
    exact deepens_advance.bind fun _ => hoperand.bind fun _ => deepens_addNode _

section
variable (operator? : TokenKind → Option α) (join : α → (left right line : Nat) → Node)

theorem Deepens.links (budget : List Token) (left : Nat) :
    Deepens (links operator? join rule budget left) (links operator? join other budget left) := by
  induction budget generalizing left with
  | nil => exact deepens_pure left
  | cons _ budget ih =>
    refine deepens_peek.bind fun token => ?_
    cases operator? token.kind with
    | none => exact deepens_pure left
    | some operator =>
      exact deepens_advance.bind fun _ => h.bind fun _ => (deepens_addNode _).bind ih

theorem Deepens.chain : Deepens (chain operator? join rule) (chain operator? join other) :=
  h.bind fun left => deepens_get (fun _ => h.links operator? join _ left) fun _ => rfl

end

theorem Deepens.operation : Deepens (operation rule) (operation other) :=
  (((((h.chain _ _).chain _ _).chain _ _).chain _ _).chain _ _).chain _ _

theorem Deepens.assignmentRule {value valueOther : Rule Nat} (hvalue : Deepens value valueOther) :
    Deepens (assignmentRule rule value) (assignmentRule other valueOther) := by
  refine h.operation.bind fun target => (deepens_eat? _).bind fun equals => ?_
  cases equals with
  | none => exact deepens_pure target
  | some equals =>
    refine hvalue.bind fun index => deepens_get (fun state => ?_) fun _ => rfl
    split
    · exact deepens_addNode _
    · exact (deepens_report _ _).bind fun _ => deepens_pure target

end

/-- A phrase has a token at least. -/
theorem Reads.consumes {rule : Rule Nat} {place levels : Nat} (h : Reads rule place levels) :
    Consumes rule := by
  intro before after index hrun hending
  cases h hrun hending with
  | of phrase tail hlegal hrest =>
    obtain ⟨others, htokens⟩ := phrase.tokens_eq_first_cons
    rw [hrest, htokens, List.length_append, List.length_cons]
    show tail.length < _
    omega

theorem deepens_levels (levels : Nat) :
    Deepens (assignment levels) (assignment (levels + 1)) ∧
      Deepens (unary levels) (unary (levels + 1)) := by
  induction levels with
  | zero =>
    have hsteady := steady_levels 1
    have hreads := reads_levels 1
    exact ⟨deepens_tooDeep hsteady.1 hreads.1.consumes, deepens_tooDeep hsteady.2 hreads.2.consumes⟩
  | succ levels ih =>
    obtain ⟨hassignment, hunary⟩ := reads_levels (levels + 1)
    have hreads := reads_unaryRule hassignment hunary
    have hrule := ih.1.unaryRule ih.2
    exact ⟨(hrule.assignmentRule ih.1).nested (reads_assignmentRule hreads hassignment).consumes,
      hrule.nested hreads.consumes⟩

/-- An expression that is read one level deeper comes out the same, or is given up for want of
levels. -/
theorem deepens_expression (levels : Nat) :
    Deepens (expression levels) (expression (levels + 1)) :=
  (deepens_levels levels).1.building

end Grammar

end Lox
