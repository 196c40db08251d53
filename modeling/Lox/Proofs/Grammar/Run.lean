import Lox.Grammar.Program
import Mathlib.Data.List.Basic

/-!
# Runs of grammar rules

What a rule does to the state of the parser, whichever rule it is. A run only goes forward in the
tokens, only adds to the errors and to the nodes, and closes every level and function body that it
opens, whether it yields a value or fails. `Steady` says so, and every rule of the grammar is
steady.

Rules are put together from few combinators, and each combinator has one lemma here.
-/

namespace Lox.Grammar

variable {α β : Type}

/-! ### Opening a run -/

/-- The state with other tokens left. -/
def State.to (state : State) (rest : List Token) : State := { state with rest }

/-- The state with one more node. -/
def State.put (state : State) (node : Node) : State :=
  { state with nodes := state.nodes.push node }

section
variable (state : State) (tokens others : List Token)

@[simp] theorem State.rest_to : (state.to tokens).rest = tokens := rfl
@[simp] theorem State.ending_to : (state.to tokens).ending = state.ending := rfl
@[simp] theorem State.errors_to : (state.to tokens).errors = state.errors := rfl
@[simp] theorem State.nesting_to : (state.to tokens).nesting = state.nesting := rfl
@[simp] theorem State.functionDepth_to : (state.to tokens).functionDepth = state.functionDepth :=
  rfl
@[simp] theorem State.nodes_to : (state.to tokens).nodes = state.nodes := rfl
@[simp] theorem State.to_to : (state.to tokens).to others = state.to others := rfl
@[simp] theorem State.to_rest : state.to state.rest = state := rfl
@[simp] theorem State.ahead_to_cons (token : Token) :
    (state.to (token :: tokens)).ahead = token := rfl
@[simp] theorem State.ahead_to_nil : (state.to []).ahead = state.ending := rfl

end

theorem pure_apply (value : α) (state : State) : (pure value : Rule α) state = .ok value state :=
  rfl

theorem bind_apply (rule : Rule α) (next : α → Rule β) (state : State) :
    (rule >>= next) state = match rule state with
      | .ok value after => next value after
      | .error failure after => .error failure after := by
  simp only [bind, EStateM.bind]
  cases rule state <;> rfl

theorem bind_of_ok {rule : Rule α} {next : α → Rule β} {before between : State} {value : α}
    (hrun : rule before = .ok value between) : (rule >>= next) before = next value between := by
  rw [bind_apply, hrun]

theorem map_apply (f : α → β) (rule : Rule α) (state : State) :
    (f <$> rule) state = match rule state with
      | .ok value after => .ok (f value) after
      | .error failure after => .error failure after := by
  simp only [Functor.map, EStateM.map]
  cases rule state <;> rfl

theorem get_apply (state : State) : (get : Rule State) state = .ok state state := rfl

theorem peek_apply (state : State) : peek state = .ok state.ahead state := rfl

theorem check_apply (kind : TokenKind) (state : State) :
    check kind state = .ok (state.ahead.kind == kind) state := rfl

theorem advance_apply (state : State) :
    advance state = .ok state.ahead (state.to state.rest.tail) := rfl

theorem reject_apply (cause : SyntaxError.Cause) (state : State) :
    (reject cause : Rule α) state = .error (.rejected ⟨cause, state.ahead⟩) state := rfl

theorem report_apply (cause : SyntaxError.Cause) (token : Token) (state : State) :
    report cause token state = .ok () { state with errors := state.errors.push ⟨cause, token⟩ } :=
  rfl

theorem addNode_apply (node : Node) (state : State) :
    addNode node state = .ok state.nodes.size (state.put node) := rfl

theorem eat?_apply (kind : TokenKind) (state : State) :
    eat? kind state = if state.ahead.kind = kind
      then .ok (some state.ahead) (state.to state.rest.tail) else .ok none state := by
  rw [eat?, bind_apply, check_apply]
  by_cases h : state.ahead.kind = kind
  · simp [h, bind_apply, advance_apply, pure_apply]
  · simp [h, pure_apply]

theorem expect_apply (kind : TokenKind) (message : String) (state : State) :
    expect kind message state = if state.ahead.kind = kind
      then .ok state.ahead (state.to state.rest.tail)
      else .error (.rejected ⟨.unexpected kind message, state.ahead⟩) state := by
  rw [expect, bind_apply, eat?_apply]
  by_cases h : state.ahead.kind = kind
  · simp [h, pure_apply]
  · simp [h, reject_apply]

/-- A run of two rules in a row that yields a value goes through a state between them. -/
theorem bind_eq_ok {rule : Rule α} {next : α → Rule β} {before after : State} {value : β} :
    (rule >>= next) before = .ok value after ↔
      ∃ first between, rule before = .ok first between ∧ next first between = .ok value after := by
  rw [bind_apply]
  cases rule before <;> simp

theorem map_eq_ok {f : α → β} {rule : Rule α} {before after : State} {value : β} :
    (f <$> rule) before = .ok value after ↔
      ∃ first, rule before = .ok first after ∧ f first = value := by
  rw [map_apply]
  cases rule before <;> simp [and_comm]

theorem State.ahead_of_rest {state : State} {token : Token} {tail : List Token}
    (hrest : state.rest = token :: tail) : state.ahead = token := by
  simp [State.ahead, hrest]

/-- The token ahead is the first one that is left, unless it is the end. -/
theorem State.exists_rest_eq_cons (state : State) (hending : state.ending.kind = .eof)
    (hahead : state.ahead.kind ≠ .eof) : ∃ tail, state.rest = state.ahead :: tail := by
  cases hrest : state.rest with
  | nil => simp [State.ahead, hrest, hending] at hahead
  | cons token tail => exact ⟨tail, by simp [State.ahead, hrest]⟩

theorem State.exists_rest_of_ahead {state : State} {kind : TokenKind}
    (hahead : state.ahead.kind = kind) (hending : state.ending.kind = .eof) (hkind : kind ≠ .eof) :
    ∃ token tail, state.rest = token :: tail ∧ token.kind = kind := by
  obtain ⟨tail, htail⟩ := state.exists_rest_eq_cons hending (hahead ▸ hkind)
  exact ⟨state.ahead, tail, htail, hahead⟩

theorem expect_eq_ok_iff {kind : TokenKind} {message : String} {before after : State}
    {token : Token} : expect kind message before = .ok token after ↔
      before.ahead.kind = kind ∧ token = before.ahead ∧ after = before.to before.rest.tail := by
  rw [expect_apply]
  split
  case isTrue h => simp [h, eq_comm]
  case isFalse h => simp [h]

/-- A token that was asked for and is not the end was the first one left. -/
theorem expect_eq_ok {kind : TokenKind} {message : String} {before after : State} {token : Token}
    (hrun : expect kind message before = .ok token after) (hending : before.ending.kind = .eof)
    (hkind : kind ≠ .eof) :
    ∃ tail, before.rest = token :: tail ∧ token.kind = kind ∧ after = before.to tail := by
  obtain ⟨h, rfl, rfl⟩ := expect_eq_ok_iff.1 hrun
  obtain ⟨tail, htail⟩ := before.exists_rest_eq_cons hending (h ▸ hkind)
  exact ⟨tail, htail, h, by rw [htail, List.tail_cons]⟩

/-- Looking for a token either finds it as the first one left or leaves everything as it is. -/
theorem eat?_eq_ok {kind : TokenKind} {before after : State} {found : Option Token}
    (hrun : eat? kind before = .ok found after) (hending : before.ending.kind = .eof)
    (hkind : kind ≠ .eof) :
    (∃ token tail, found = some token ∧ before.rest = token :: tail ∧ token.kind = kind ∧
        after = before.to tail) ∨
      found = none ∧ before.ahead.kind ≠ kind ∧ after = before := by
  rw [eat?_apply] at hrun
  split at hrun
  case isTrue h =>
    cases hrun
    obtain ⟨tail, htail⟩ := before.exists_rest_eq_cons hending (h ▸ hkind)
    exact .inl ⟨before.ahead, tail, rfl, htail, h, by rw [htail, List.tail_cons]⟩
  case isFalse h =>
    cases hrun
    exact .inr ⟨rfl, h, rfl⟩

/-! ### Lists of items -/

section
variable {item : Rule α} {excess : SyntaxError.Cause} {budget : List Token} {earlier : Array α}
  {before after : State} {value : α} {values : List α}

theorem items_of_last (hitem : counted item excess earlier.size before = .ok value after)
    (hahead : after.ahead.kind ≠ .comma) :
    items item excess budget earlier before = .ok (earlier.toList ++ [value]) after := by
  cases budget with
  | nil => simp [items, bind_apply, hitem, pure_apply]
  | cons _ budget => simp [items, bind_apply, hitem, eat?_apply, hahead, pure_apply]

theorem items_of_more {spare : Token} {tail : List Token} {comma : Token}
    (hitem : counted item excess earlier.size before = .ok value after)
    (hrest : after.rest = comma :: tail) (hcomma : comma.kind = .comma) :
    items item excess (spare :: budget) earlier before =
      items item excess budget (earlier.push value) (after.to tail) := by
  simp [items, bind_apply, hitem, eat?_apply, State.ahead_of_rest hrest, hcomma, hrest]

/-- A round reads an item, which is the last one unless a comma follows and rounds are left. -/
theorem items_eq_ok (hrun : items item excess budget earlier before = .ok values after) :
    ∃ value between, counted item excess earlier.size before = .ok value between ∧
      (values = earlier.toList ++ [value] ∧ after = between ∧
          (budget ≠ [] → between.ahead.kind ≠ .comma) ∨
        ∃ spare others, budget = spare :: others ∧ between.ahead.kind = .comma ∧
          items item excess others (earlier.push value) (between.to between.rest.tail) =
            .ok values after) := by
  cases budget with
  | nil =>
    obtain ⟨value, between, hitem, hdone⟩ := bind_eq_ok.1 hrun
    cases hdone
    exact ⟨value, _, hitem, .inl ⟨Array.toList_push, rfl, fun h => absurd rfl h⟩⟩
  | cons spare others =>
    obtain ⟨value, between, hitem, hmore⟩ := bind_eq_ok.1 hrun
    rw [bind_apply, eat?_apply] at hmore
    refine ⟨value, between, hitem, ?_⟩
    by_cases hcomma : between.ahead.kind = .comma
    · rw [if_pos hcomma] at hmore
      exact .inr ⟨spare, others, rfl, hcomma, hmore⟩
    · rw [if_neg hcomma] at hmore
      cases hmore
      exact .inl ⟨Array.toList_push, rfl, fun _ => hcomma⟩

theorem commaSeparated_of_closed (hahead : before.ahead.kind = .rightParen) :
    commaSeparated item excess before = .ok [] before := by
  simp [commaSeparated, bind_apply, check_apply, hahead, pure_apply]

theorem commaSeparated_of_open (hahead : before.ahead.kind ≠ .rightParen) :
    commaSeparated item excess before = items item excess before.rest #[] before := by
  simp [commaSeparated, bind_apply, check_apply, hahead, get_apply]

end

/-! ### Steady rules -/

/-- What a run leaves alone, and what it only adds to. -/
structure State.Continues (before after : State) : Prop where
  rest : after.rest <:+ before.rest
  ending : after.ending = before.ending
  nesting : after.nesting = before.nesting
  functionDepth : after.functionDepth = before.functionDepth
  errors : before.errors.toList <+: after.errors.toList
  nodes : before.nodes.toList <+: after.nodes.toList

theorem State.Continues.refl (state : State) : state.Continues state :=
  ⟨List.suffix_rfl, rfl, rfl, rfl, List.prefix_rfl, List.prefix_rfl⟩

theorem State.Continues.trans {before between after : State} (first : before.Continues between)
    (second : between.Continues after) : before.Continues after where
  rest := second.rest.trans first.rest
  ending := second.ending.trans first.ending
  nesting := second.nesting.trans first.nesting
  functionDepth := second.functionDepth.trans first.functionDepth
  errors := first.errors.trans second.errors
  nodes := first.nodes.trans second.nodes

/-- Nothing was recorded on the way if nothing was recorded in the end. -/
theorem State.Continues.errors_eq {before between after : State} (first : before.Continues between)
    (second : between.Continues after) (hclean : after.errors = before.errors) :
    between.errors = before.errors ∧ after.errors = between.errors := by
  have hback : between.errors.toList <+: before.errors.toList := hclean ▸ second.errors
  have heq : between.errors.toList = before.errors.toList :=
    hback.eq_of_length_le first.errors.length_le
  have hbetween : between.errors = before.errors := by simpa using heq
  exact ⟨hbetween, hclean.trans hbetween.symm⟩

/-- The state in which a run ends, with a value or without. -/
def endState (rule : Rule α) (before : State) : State :=
  match rule before with
  | .ok _ after => after
  | .error _ after => after

theorem endState_nested (rule : Rule α) (before : State) :
    endState (nested rule) before = if maxNesting ≤ before.nesting then before else
      let inner := endState rule { before with nesting := before.nesting + 1 }
      { inner with nesting := inner.nesting - 1 } := by
  rw [endState, nested, endState]
  by_cases hfull : maxNesting ≤ before.nesting
  · rw [if_pos hfull, if_pos hfull]
    rfl
  · rw [if_neg hfull, if_neg hfull]
    cases rule { before with nesting := before.nesting + 1 } <;> rfl

theorem endState_inFunction (rule : Rule α) (before : State) :
    endState (inFunction rule) before =
      let inner := endState rule { before with functionDepth := before.functionDepth + 1 }
      { inner with functionDepth := inner.functionDepth - 1 } := by
  rw [endState, inFunction, endState]
  cases rule { before with functionDepth := before.functionDepth + 1 } <;> rfl

theorem endState_building (rule : Rule Nat) (before : State) :
    endState (building rule) before =
      { endState rule { before with nodes := #[] } with nodes := before.nodes } := by
  rw [endState, building, endState]
  cases rule { before with nodes := #[] } <;> rfl

/-- However a run of the rule ends, it has continued from where it began. -/
def Steady (rule : Rule α) : Prop :=
  ∀ before : State, before.Continues (endState rule before)

theorem Steady.of_ok {rule : Rule α} (h : Steady rule) {before after : State} {value : α}
    (hrun : rule before = .ok value after) : before.Continues after := by
  simpa [endState, hrun] using h before

theorem Steady.of_error {rule : Rule α} (h : Steady rule) {before after : State}
    {failure : Failure} (hrun : rule before = .error failure after) : before.Continues after := by
  simpa [endState, hrun] using h before

theorem steady_pure (value : α) : Steady (pure value : Rule α) := State.Continues.refl

theorem steady_throw (failure : Failure) : Steady (throw failure : Rule α) := State.Continues.refl

theorem steady_get : Steady (get : Rule State) := State.Continues.refl

theorem steady_peek : Steady peek := State.Continues.refl

theorem steady_check (kind : TokenKind) : Steady (check kind) := State.Continues.refl

theorem steady_reject (cause : SyntaxError.Cause) : Steady (reject cause : Rule α) :=
  State.Continues.refl

theorem State.continues_tail (state : State) :
    state.Continues (state.to state.rest.tail) :=
  { State.Continues.refl state with rest := List.tail_suffix state.rest }

theorem steady_advance : Steady advance := State.continues_tail

theorem steady_eat? (kind : TokenKind) : Steady (eat? kind) := by
  intro before
  rw [endState, eat?_apply]
  by_cases h : before.ahead.kind = kind
  · simpa [h] using before.continues_tail
  · simpa [h] using State.Continues.refl before

theorem steady_expect (kind : TokenKind) (message : String) : Steady (expect kind message) := by
  intro before
  rw [endState, expect_apply]
  by_cases h : before.ahead.kind = kind
  · simpa [h] using before.continues_tail
  · simpa [h] using State.Continues.refl before

theorem steady_report (cause : SyntaxError.Cause) (token : Token) :
    Steady (report cause token) := by
  intro before
  exact { State.Continues.refl before with errors := by simp [endState, report_apply] }

theorem steady_addNode (node : Node) : Steady (addNode node) := by
  intro before
  exact { State.Continues.refl before with nodes := by simp [endState, addNode_apply, State.put] }

theorem Steady.bind {rule : Rule α} {next : α → Rule β} (first : Steady rule)
    (second : ∀ value, Steady (next value)) : Steady (rule >>= next) := by
  intro before
  rw [endState, bind_apply]
  cases hrun : rule before with
  | ok value after => exact (first.of_ok hrun).trans (second value after)
  | error failure after => exact first.of_error hrun

theorem Steady.map {rule : Rule α} (h : Steady rule) (f : α → β) : Steady (f <$> rule) := by
  intro before
  rw [endState, map_apply]
  cases hrun : rule before with
  | ok value after => exact h.of_ok hrun
  | error failure after => exact h.of_error hrun

theorem Steady.ite {condition : Prop} [Decidable condition] {first second : Rule α}
    (hfirst : Steady first) (hsecond : Steady second) :
    Steady (if condition then first else second) := by
  split
  · exact hfirst
  · exact hsecond

/-- The level that is opened is closed again, since what runs inside of it closes its own. -/
theorem Steady.nested {rule : Rule α} (h : Steady rule) : Steady (nested rule) := by
  intro before
  rw [endState_nested]
  split
  · exact .refl before
  · have inner := h { before with nesting := before.nesting + 1 }
    exact { inner with nesting := Nat.sub_eq_of_eq_add inner.nesting }

theorem Steady.inFunction {rule : Rule α} (h : Steady rule) : Steady (inFunction rule) := by
  intro before
  have inner := h { before with functionDepth := before.functionDepth + 1 }
  rw [endState_inFunction]
  exact { inner with functionDepth := Nat.sub_eq_of_eq_add inner.functionDepth }

theorem Steady.building {rule : Rule Nat} (h : Steady rule) : Steady (building rule) := by
  intro before
  rw [endState_building]
  exact { h { before with nodes := #[] } with nodes := List.prefix_rfl }

theorem Steady.counted {item : Rule α} (h : Steady item) (excess : SyntaxError.Cause)
    (earlier : Nat) : Steady (counted item excess earlier) :=
  .ite (steady_peek.bind fun _ => (steady_report _ _).bind fun _ => h) h

theorem Steady.items {item : Rule α} (h : Steady item) (excess : SyntaxError.Cause)
    (budget : List Token) (earlier : Array α) : Steady (items item excess budget earlier) := by
  induction budget generalizing earlier with
  | nil =>
    rw [Grammar.items]
    exact (h.counted _ _).bind fun _ => steady_pure _
  | cons _ budget ih =>
    rw [Grammar.items]
    refine (h.counted _ _).bind fun value => (steady_eat? _).bind fun comma => ?_
    cases comma with
    | none => exact steady_pure _
    | some _ => exact ih _

theorem Steady.commaSeparated {item : Rule α} (h : Steady item) (excess : SyntaxError.Cause) :
    Steady (commaSeparated item excess) :=
  (steady_check _).bind fun _ =>
    .ite (steady_pure _) (steady_get.bind fun _ => h.items excess _ _)

theorem resumption_suffix (last : Token) (tokens : List Token) :
    resumption last tokens <:+ tokens := by
  induction tokens generalizing last with
  | nil => exact List.suffix_rfl
  | cons token rest ih =>
    rw [resumption]
    split
    · exact List.suffix_rfl
    · exact (ih token).trans (List.suffix_cons token rest)

theorem synchronize_suffix (tokens : List Token) : synchronize tokens <:+ tokens := by
  cases tokens with
  | nil => exact List.suffix_rfl
  | cons skipped rest => exact (resumption_suffix skipped rest).trans (List.suffix_cons skipped rest)

theorem Steady.recovering {rule : Rule α} (h : Steady rule) : Steady (recovering rule) := by
  intro before
  have inner := h before
  rw [endState] at inner
  rw [endState, Grammar.recovering]
  cases hrun : rule before with
  | ok value after =>
    rw [hrun] at inner
    exact inner
  | error failure after =>
    rw [hrun] at inner
    cases failure with
    | rejected error =>
      refine { inner with rest := (synchronize_suffix _).trans inner.rest, errors := ?_ }
      simpa using inner.errors.trans (List.prefix_append _ _)
    | missingValue token => exact inner

end Lox.Grammar
