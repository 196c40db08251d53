import Lox.Proofs.Grammar.Hereditary
import Lox.Proofs.Grammar.Progress

/-!
# One token ahead

Where a run of a rule stops in front of a token, with a value or without, nothing behind that token
has been looked at: with other tokens there, the run is the same. A rule with this property is
nearsighted, and every rule of the grammar is. Rules for statements and declarations know by
themselves where they end, and do not even look at the token in front of which they stop, except to
see whether it is an `else`.

Rules that repeat are given the tokens that are left as rounds, and these differ where other tokens
follow. That the rounds suffice is all that matters.
-/

namespace Lox.Grammar

variable {α β : Type}

/-- The last tokens of a list, and what stands there instead. -/
structure Exchange where
  tail : List Token
  other : List Token
  ending : Token
  ending_kind : ending.kind = .eof

namespace Exchange

variable (x : Exchange)

/-- The state with the other tokens in the place of the last ones. -/
def state (state : State) : State :=
  { state with
    rest := state.rest.take (state.rest.length - x.tail.length) ++ x.other
    ending := x.ending }

def view : View State State Failure Failure := ⟨x.state, id⟩

/-- The tokens that are exchanged are among those that are left. -/
def Ahead (state : State) : Prop :=
  ∃ front, state.rest = front ++ x.tail

/-- A token at least is left in front of those that are exchanged. -/
def Clear (state : State) : Prop :=
  ∃ token front, state.rest = token :: (front ++ x.tail)

variable {x} {before after : State}

theorem Clear.toAhead (h : x.Clear before) : x.Ahead before := by
  obtain ⟨token, front, hrest⟩ := h
  exact ⟨token :: front, hrest⟩

/-- Where a token is read, it stood in front of what is exchanged. -/
theorem Ahead.clear_of_lt (h : x.Ahead after) (hsuffix : after.rest <:+ before.rest)
    (hless : after.rest.length < before.rest.length) : x.Clear before := by
  obtain ⟨front, hrest⟩ := h
  obtain ⟨read, hread⟩ := hsuffix
  cases read with
  | nil =>
    rw [← hread] at hless
    exact absurd hless (Nat.lt_irrefl _)
  | cons token read => exact ⟨token, read ++ front, by rw [← hread, hrest]; simp⟩

theorem Clear.of_suffix (h : x.Clear after) (hsuffix : after.rest <:+ before.rest) :
    x.Clear before := by
  obtain ⟨token, front, hrest⟩ := h
  obtain ⟨read, hread⟩ := hsuffix
  cases read with
  | nil => exact ⟨token, front, by rw [← hread, hrest]; rfl⟩
  | cons first read => exact ⟨first, read ++ token :: front, by rw [← hread, hrest]; simp⟩

theorem rest_state (front : List Token) (h : before.rest = front ++ x.tail) :
    (x.state before).rest = front ++ x.other := by
  simp [state, h]

theorem Ahead.length_state (h : x.Ahead before) :
    (x.state before).rest.length + x.tail.length = before.rest.length + x.other.length := by
  obtain ⟨front, hrest⟩ := h
  rw [rest_state front hrest, hrest, List.length_append, List.length_append]
  omega

theorem Clear.ahead_state (h : x.Clear before) : (x.state before).ahead = before.ahead := by
  obtain ⟨token, front, hrest⟩ := h
  rw [State.ahead_of_rest hrest, State.ahead_of_rest (rest_state (token :: front) hrest)]

theorem Clear.tail_state (h : x.Clear before) :
    (x.state before).to (x.state before).rest.tail = x.state (before.to before.rest.tail) := by
  obtain ⟨token, front, hrest⟩ := h
  have htail : (x.state (before.to before.rest.tail)).rest = front ++ x.other :=
    rest_state front (by simp [hrest])
  rw [rest_state (token :: front) hrest, List.cons_append, List.tail_cons, ← htail]
  rfl

variable (x)

/-- Where a token is left in front of those that are exchanged when the first rule ends, the second
one runs alike from the state with the exchange. -/
def Agree (first second : Rule α) (before : State) : Prop :=
  x.Clear (endState first before) → second (x.state before) = x.view.result id (first before)

/-- The rule is steady, and other tokens behind the one ahead make no difference to it. -/
structure Nearsighted (rule : Rule α) : Prop where
  steady : Steady rule
  agree : ∀ {before : State}, before.ending.kind = .eof → x.Agree rule rule before

variable {x}

theorem Agree.bind {first second : Rule α} {next other : α → Rule β}
    (h : x.Agree first second before) (hsteady : ∀ value, Steady (next value))
    (hnext : ∀ value between, first before = .ok value between → x.Clear between →
      x.Agree (next value) (other value) between) :
    x.Agree (first >>= next) (second >>= other) before := by
  intro hclear
  rw [endState, bind_apply] at hclear
  rw [bind_apply, bind_apply]
  rw [Agree, endState] at h
  cases hrun : first before with
  | ok value between =>
    rw [hrun] at h hclear
    have hbetween : x.Clear between := hclear.of_suffix (hsteady value between).rest
    rw [h hbetween]
    exact hnext value between hrun hbetween hclear
  | error failure between =>
    rw [hrun] at h hclear
    rw [h hclear]
    rfl

/-- What is read off the state may differ, if what is done with it agrees. -/
theorem Agree.get {next other : State → Rule α} (h : x.Agree (next before) (other (x.state before))
    before) : x.Agree (get >>= next) (get >>= other) before := h

section
variable {rule : Rule α}

theorem nearsighted_pure (value : α) : x.Nearsighted (pure value : Rule α) :=
  ⟨steady_pure value, fun _ _ => rfl⟩

theorem nearsighted_throw (failure : Failure) : x.Nearsighted (throw failure : Rule α) :=
  ⟨steady_throw failure, fun _ _ => rfl⟩

theorem nearsighted_peek : x.Nearsighted peek where
  steady := steady_peek
  agree {before} _ hclear := by
    have hbefore : x.Clear before := hclear
    rw [peek_apply, hbefore.ahead_state]
    rfl

theorem nearsighted_advance : x.Nearsighted advance where
  steady := steady_advance
  agree {before} _ hclear := by
    have hbefore : x.Clear before := hclear.of_suffix before.continues_tail.rest
    rw [advance_apply, advance_apply, hbefore.ahead_state, hbefore.tail_state]
    rfl

theorem nearsighted_report (cause : SyntaxError.Cause) (token : Token) :
    x.Nearsighted (report cause token) :=
  ⟨steady_report cause token, fun _ _ => rfl⟩

theorem nearsighted_addNode (node : Node) : x.Nearsighted (addNode node) :=
  ⟨steady_addNode node, fun _ _ => rfl⟩

theorem Nearsighted.bind {next : α → Rule β} (h : x.Nearsighted rule)
    (hnext : ∀ value, x.Nearsighted (next value)) : x.Nearsighted (rule >>= next) where
  steady := h.steady.bind fun value => (hnext value).steady
  agree hending := (h.agree hending).bind (fun value => (hnext value).steady)
    fun value _ hrun _ => (hnext value).agree ((h.steady.of_ok hrun).ending ▸ hending)

theorem Nearsighted.map (h : x.Nearsighted rule) (f : α → β) : x.Nearsighted (f <$> rule) :=
  map_eq_bind f rule ▸ h.bind fun _ => nearsighted_pure _

theorem Nearsighted.ite {condition : Prop} [Decidable condition] {other : Rule α}
    (h : x.Nearsighted rule) (hother : x.Nearsighted other) :
    x.Nearsighted (if condition then rule else other) := by
  split
  · exact h
  · exact hother

/-- What is read off the state may be used if it is not exchanged. -/
theorem nearsighted_get {next : State → Rule α} (h : ∀ state, x.Nearsighted (next state))
    (hsame : ∀ state, next (x.state state) = next state) : x.Nearsighted (get >>= next) where
  steady := steady_get.bind fun state => (h state).steady
  agree {before} hending := by
    apply Agree.get
    rw [hsame]
    exact (h before).agree hending

theorem nearsighted_check (kind : TokenKind) : x.Nearsighted (check kind) :=
  nearsighted_peek.bind fun _ => nearsighted_pure _

theorem nearsighted_reject (cause : SyntaxError.Cause) : x.Nearsighted (reject cause : Rule α) :=
  nearsighted_peek.bind fun _ => nearsighted_throw _

theorem nearsighted_eat? (kind : TokenKind) : x.Nearsighted (eat? kind) :=
  (nearsighted_check kind).bind fun _ =>
    .ite (nearsighted_advance.bind fun _ => nearsighted_pure _) (nearsighted_pure _)

theorem nearsighted_expect (kind : TokenKind) (message : String) :
    x.Nearsighted (expect kind message) := by
  refine (nearsighted_eat? kind).bind fun found => ?_
  cases found with
  | none => exact nearsighted_reject _
  | some token => exact nearsighted_pure token

/-! ### Rules that are run inside of something -/

variable (h : x.Nearsighted rule)
include h

theorem Nearsighted.nested : x.Nearsighted (nested rule) where
  steady := h.steady.nested
  agree {before} hending hclear := by
    let exchanged := x.state before
    rw [endState_nested] at hclear
    by_cases hfull : maxNesting ≤ before.nesting
    · have hfullBehind : maxNesting ≤ exchanged.nesting := hfull
      rw [if_pos hfull] at hclear
      rw [Grammar.nested, Grammar.nested, if_pos hfull, if_pos hfullBehind]
      exact (nearsighted_reject .tooDeep).agree hending hclear
    · have hroom : ¬ maxNesting ≤ exchanged.nesting := hfull
      rw [if_neg hfull] at hclear
      have hagree : x.Agree rule rule { before with nesting := before.nesting + 1 } :=
        h.agree hending
      have hinner : rule { exchanged with nesting := exchanged.nesting + 1 } = _ := hagree hclear
      rw [Grammar.nested, Grammar.nested, if_neg hfull, if_neg hroom, hinner]
      cases rule { before with nesting := before.nesting + 1 } <;> rfl

theorem Nearsighted.inFunction : x.Nearsighted (inFunction rule) where
  steady := h.steady.inFunction
  agree {before} hending hclear := by
    let exchanged := x.state before
    rw [endState_inFunction] at hclear
    have hagree : x.Agree rule rule { before with functionDepth := before.functionDepth + 1 } :=
      h.agree hending
    have hinner : rule { exchanged with functionDepth := exchanged.functionDepth + 1 } = _ :=
      hagree hclear
    rw [Grammar.inFunction, Grammar.inFunction, hinner]
    cases rule { before with functionDepth := before.functionDepth + 1 } <;> rfl

omit h in
theorem Nearsighted.building {rule : Rule Nat} (h : x.Nearsighted rule) :
    x.Nearsighted (building rule) where
  steady := h.steady.building
  agree {before} hending hclear := by
    let exchanged := x.state before
    rw [endState_building] at hclear
    have hagree : x.Agree rule rule { before with nodes := #[] } := h.agree hending
    have hinner : rule { exchanged with nodes := #[] } = _ := hagree hclear
    rw [Grammar.building, Grammar.building, hinner]
    cases rule { before with nodes := #[] } <;> rfl

omit h in
/-- Where tokens are skipped up to one in front of those that are exchanged, these are not looked
at. -/
theorem resumption_exchange {front left : List Token} {last token : Token}
    (hleft : resumption last (front ++ x.tail) = token :: (left ++ x.tail)) :
    resumption last (front ++ x.other) = token :: (left ++ x.other) := by
  induction front generalizing last with
  | nil =>
    have hlength := (resumption_suffix last x.tail).length_le
    rw [List.nil_append] at hleft
    rw [hleft, List.length_cons, List.length_append] at hlength
    omega
  | cons first front ih =>
    rw [List.cons_append, resumption] at hleft
    rw [List.cons_append, resumption]
    split at hleft
    case isTrue hstop =>
      obtain ⟨rfl, hsame⟩ := List.cons.inj hleft
      rw [if_pos hstop, List.append_cancel_right hsame]
    case isFalse hgo =>
      rw [if_neg hgo]
      exact ih hleft

theorem Nearsighted.recovering : x.Nearsighted (recovering rule) where
  steady := h.steady.recovering
  agree {before} hending hclear := by
    have hagree := h.agree hending
    rw [Agree, endState] at hagree
    rw [endState, Grammar.recovering] at hclear
    rw [Grammar.recovering, Grammar.recovering]
    cases hrun : rule before with
    | ok value after =>
      rw [hrun] at hclear hagree
      rw [hagree hclear]
      rfl
    | error failure after =>
      rw [hrun] at hclear hagree
      cases failure with
      | missingValue token =>
        rw [hagree hclear]
        rfl
      | rejected error =>
        have hafter : x.Clear after := hclear.of_suffix (synchronize_suffix after.rest)
        rw [hagree hafter]
        obtain ⟨token, left, hleft⟩ := hclear
        obtain ⟨skipped, front, hfront⟩ := hafter
        change synchronize after.rest = token :: (left ++ x.tail) at hleft
        have hskip : synchronize (x.state after).rest = (x.state { after with
            errors := after.errors.push error, rest := synchronize after.rest }).rest := by
          rw [rest_state (skipped :: front) hfront, rest_state (token :: left) hleft]
          rw [hfront] at hleft
          exact resumption_exchange hleft
        change EStateM.Result.ok none { x.state after with
          errors := after.errors.push error, rest := synchronize (x.state after).rest } = _
        rw [hskip]
        rfl

end

/-! ### Rules that repeat -/

/-- The rounds of two runs suffice, one on the tokens themselves and one behind the exchange. -/
def Suffice (x : Exchange) (budget other : List Token) (before : State) : Prop :=
  before.rest.length ≤ budget.length ∧ (x.state before).rest.length ≤ other.length

/-- As long as something is left in front of what is exchanged, there are rounds, and a round in
which a token is read leaves enough of them. -/
theorem Suffice.exists_cons {budget other : List Token} (h : x.Suffice budget other before)
    (hclear : x.Clear before) : ∃ spare fewer another others, budget = spare :: fewer ∧
      other = another :: others ∧ ∀ {after : State}, x.Ahead after →
        after.rest.length < before.rest.length → x.Suffice fewer others after := by
  have hlength := hclear.toAhead.length_state
  obtain ⟨token, front, hrest⟩ := hclear
  obtain ⟨hbudget, hother⟩ := h
  rw [hrest, List.length_cons, List.length_append] at hlength hbudget
  obtain ⟨spare, fewer, rfl⟩ := List.exists_cons_of_length_pos (show 0 < budget.length by omega)
  obtain ⟨another, others, rfl⟩ := List.exists_cons_of_length_pos (show 0 < other.length by omega)
  refine ⟨spare, fewer, another, others, rfl, rfl, fun hahead hless => ?_⟩
  have hafter := hahead.length_state
  rw [hrest, List.length_cons, List.length_append] at hless
  rw [List.length_cons] at hbudget hother
  exact ⟨by omega, by omega⟩

/-- As long as there are rounds, the rule takes a step in each, which reads a token unless it is the
last one. -/
structure Repeats (step : α → Rule (α ⊕ β)) (loop : List Token → α → Rule β) : Prop where
  step_steady : ∀ value, Steady (step value)
  last_steady : ∀ value, Steady (loop [] value)
  round : ∀ spare budget value,
    loop (spare :: budget) value = step value >>= Sum.elim (loop budget) pure
  reads : ∀ {value more : α} {before after : State}, before.ending.kind = .eof → before.rest ≠ [] →
    step value before = .ok (.inl more) after → after.rest.length < before.rest.length

section
variable {step : α → Rule (α ⊕ β)} {loop : List Token → α → Rule β} (h : Repeats step loop)
include h

theorem Repeats.steady (budget : List Token) (value : α) : Steady (loop budget value) := by
  induction budget generalizing value with
  | nil => exact h.last_steady value
  | cons spare budget ih =>
    rw [h.round]
    refine (h.step_steady value).bind fun result => ?_
    cases result with
    | inl more => exact ih more
    | inr result => exact steady_pure result

theorem Repeats.agree (hstep : ∀ value, x.Nearsighted (step value)) {budget : List Token} :
    ∀ {other : List Token} {value : α} {before : State}, before.ending.kind = .eof →
      x.Suffice budget other before → x.Agree (loop budget value) (loop other value) before := by
  induction budget with
  | nil =>
    intro other value before _ hsuffice hclear
    obtain ⟨_, _, _, _, hnil, -⟩ := hsuffice.exists_cons (hclear.of_suffix (h.last_steady _ _).rest)
    cases hnil
  | cons spare budget ih =>
    intro other value before hending hsuffice hclear
    have hbefore := hclear.of_suffix (h.steady _ _ _).rest
    obtain ⟨_, _, another, others, hcons, rfl, hfewer⟩ := hsuffice.exists_cons hbefore
    cases hcons
    rw [h.round] at hclear ⊢
    rw [h.round]
    refine ((hstep value).agree hending).bind (fun result => ?_)
      (fun result between hrun hbetween => ?_) hclear
    · cases result with
      | inl more => exact h.steady budget more
      | inr result => exact steady_pure result
    · have hendingBetween := ((h.step_steady value).of_ok hrun).ending ▸ hending
      cases result with
      | inl more =>
        obtain ⟨token, front, hrest⟩ := hbefore
        have hless := h.reads hending (by simp [hrest]) hrun
        exact ih hendingBetween (hfewer hbetween.toAhead hless)
      | inr result => exact (nearsighted_pure result).agree hendingBetween

theorem Repeats.nearsighted (hstep : ∀ value, x.Nearsighted (step value)) (value : α) :
    x.Nearsighted (get >>= fun state => loop state.rest value) where
  steady := steady_get.bind fun state => h.steady state.rest value
  agree hending := Agree.get (h.agree hstep hending ⟨Nat.le_refl _, Nat.le_refl _⟩)

end

theorem lt_of_eat? {kind : TokenKind} {token : Token}
    (hrun : eat? kind before = .ok (some token) after) (hending : before.ending.kind = .eof)
    (hkind : kind ≠ .eof) : after.rest.length < before.rest.length := by
  obtain ⟨token, tail, -, hrest, -, rfl⟩ | ⟨hnone, -⟩ := eat?_eq_ok hrun hending hkind
  · simp [hrest]
  · cases hnone

/-! ### Lists of items -/

/-- An item, behind which others follow if a comma does. -/
def itemStep (item : Rule α) (excess : SyntaxError.Cause) (earlier : Array α) :
    Rule (Array α ⊕ List α) := do
  let parsed := earlier.push (← counted item excess earlier.size)
  match ← eat? .comma with
  | some _ => return .inl parsed
  | none => return .inr parsed.toList

section
variable {item : Rule α}

theorem repeats_items (h : Steady item) (excess : SyntaxError.Cause) :
    Repeats (itemStep item excess) (items item excess) where
  step_steady earlier := by
    refine (h.counted excess _).bind fun value => (steady_eat? _).bind fun comma => ?_
    cases comma <;> exact steady_pure _
  last_steady := h.items excess []
  round spare budget earlier := by
    rw [items, itemStep, bind_assoc]
    refine bind_congr fun value => ?_
    rw [bind_assoc]
    refine bind_congr fun comma => ?_
    cases comma <;> rfl
  reads {earlier more before after} hending _ hrun := by
    obtain ⟨value, between, hcounted, hrun⟩ := bind_eq_ok.1 hrun
    obtain ⟨comma, behind, hcomma, hrun⟩ := bind_eq_ok.1 hrun
    have hbetween := (h.counted excess _).of_ok hcounted
    cases comma with
    | none => cases hrun
    | some token =>
      cases hrun
      exact Nat.lt_of_lt_of_le (lt_of_eat? hcomma (hbetween.ending ▸ hending) (by decide))
        hbetween.rest.length_le

theorem Nearsighted.counted (h : x.Nearsighted item) (excess : SyntaxError.Cause)
    (earlier : Nat) : x.Nearsighted (counted item excess earlier) :=
  .ite (nearsighted_peek.bind fun _ => (nearsighted_report _ _).bind fun _ => h) h

theorem Nearsighted.commaSeparated (h : x.Nearsighted item) (excess : SyntaxError.Cause) :
    x.Nearsighted (commaSeparated item excess) := by
  have hstep (earlier : Array α) : x.Nearsighted (itemStep item excess earlier) := by
    refine (h.counted excess _).bind fun value => (nearsighted_eat? _).bind fun comma => ?_
    cases comma <;> exact nearsighted_pure _
  exact (nearsighted_check _).bind fun _ =>
    .ite (nearsighted_pure _) ((repeats_items h.steady excess).nearsighted hstep #[])

end

/-! ### Expressions -/

/-- Arguments behind a callee, if a parenthesis is opened there. -/
def callStep (argument : Rule Nat) (callee : Nat) : Rule (Nat ⊕ Nat) := do
  match ← eat? .leftParen with
  | none => return .inr callee
  | some _ =>
    let arguments ← commaSeparated argument .tooManyArguments
    let paren ← expect .rightParen "Expect ')' after arguments."
    return .inl (← addNode (.call callee arguments paren.line))

/-- An operator and its right operand behind a left one, if the operator is of the level. -/
def linkStep (operator? : TokenKind → Option α) (join : α → (left right line : Nat) → Node)
    (operand : Rule Nat) (left : Nat) : Rule (Nat ⊕ Nat) := do
  let token ← peek
  match operator? token.kind with
  | none => return .inr left
  | some operator =>
    let _ ← advance
    let right ← operand
    return .inl (← addNode (join operator left right token.line))

theorem nearsighted_leaf (node : Node) : x.Nearsighted (leaf node) :=
  nearsighted_advance.bind fun _ => nearsighted_addNode node

section
variable {inner : Rule Nat} (h : x.Nearsighted inner)
include h

theorem Nearsighted.primary : x.Nearsighted (primary inner) := by
  refine nearsighted_peek.bind fun token => ?_
  split
  · exact nearsighted_leaf _
  · exact nearsighted_leaf _
  · exact nearsighted_leaf _
  · cases token.value with
    | some value => exact nearsighted_leaf _
    | none => exact nearsighted_throw _
  · cases token.value with
    | some value => exact nearsighted_leaf _
    | none => exact nearsighted_throw _
  · exact nearsighted_leaf _
  · exact nearsighted_advance.bind fun _ => h.bind fun _ => (nearsighted_expect _ _).bind fun _ =>
      nearsighted_addNode _
  · exact nearsighted_reject _

theorem nearsighted_callStep (callee : Nat) : x.Nearsighted (callStep inner callee) := by
  refine (nearsighted_eat? _).bind fun opening => ?_
  cases opening with
  | none => exact nearsighted_pure _
  | some _ =>
    exact (h.commaSeparated _).bind fun _ => (nearsighted_expect _ _).bind fun _ =>
      (nearsighted_addNode _).bind fun _ => nearsighted_pure _

omit h in
theorem repeats_calls (h : Steady inner) : Repeats (callStep inner) (calls inner) where
  step_steady callee := by
    refine (steady_eat? _).bind fun opening => ?_
    cases opening with
    | none => exact steady_pure _
    | some _ =>
      exact (h.commaSeparated _).bind fun _ => (steady_expect _ _).bind fun _ =>
        (steady_addNode _).bind fun _ => steady_pure _
  last_steady := steady_pure
  round spare budget callee := by
    rw [calls, callStep, bind_assoc]
    refine bind_congr fun opening => ?_
    cases opening with
    | none => rfl
    | some _ =>
      rw [bind_assoc]
      refine bind_congr fun arguments => ?_
      rw [bind_assoc]
      refine bind_congr fun paren => ?_
      rw [bind_assoc]
      rfl
  reads {callee more before after} hending _ hrun := by
    obtain ⟨opening, between, hopening, hrun⟩ := bind_eq_ok.1 hrun
    cases opening with
    | none => cases hrun
    | some token =>
      have hbehind : between.Continues after :=
        ((h.commaSeparated _).bind fun _ => (steady_expect _ _).bind fun _ =>
          (steady_addNode _).bind fun _ => steady_pure _).of_ok hrun
      exact Nat.lt_of_le_of_lt hbehind.rest.length_le (lt_of_eat? hopening hending (by decide))

theorem Nearsighted.call : x.Nearsighted (call inner) :=
  h.primary.bind fun callee => (repeats_calls h.steady).nearsighted (nearsighted_callStep h) callee

theorem Nearsighted.unaryRule {operand : Rule Nat} (hoperand : x.Nearsighted operand) :
    x.Nearsighted (unaryRule inner operand) := by
  refine nearsighted_peek.bind fun token => ?_
  cases UnaryOperator.ofToken? token.kind with
  | none => exact h.call
  | some operator =>
    exact nearsighted_advance.bind fun _ => hoperand.bind fun _ => nearsighted_addNode _

section
variable (operator? : TokenKind → Option α) (join : α → (left right line : Nat) → Node)

theorem nearsighted_linkStep (left : Nat) :
    x.Nearsighted (linkStep operator? join inner left) := by
  refine nearsighted_peek.bind fun token => ?_
  cases operator? token.kind with
  | none => exact nearsighted_pure _
  | some operator =>
    exact nearsighted_advance.bind fun _ => h.bind fun _ => (nearsighted_addNode _).bind fun _ =>
      nearsighted_pure _

omit h in
theorem repeats_links (h : Steady inner) :
    Repeats (linkStep operator? join inner) (links operator? join inner) where
  step_steady left := by
    refine steady_peek.bind fun token => ?_
    cases operator? token.kind with
    | none => exact steady_pure _
    | some operator =>
      exact steady_advance.bind fun _ => h.bind fun _ => (steady_addNode _).bind fun _ =>
        steady_pure _
  last_steady := steady_pure
  round spare budget left := by
    rw [links, linkStep, bind_assoc]
    refine bind_congr fun token => ?_
    cases operator? token.kind with
    | none => rfl
    | some operator =>
      rw [bind_assoc]
      refine bind_congr fun _ => ?_
      rw [bind_assoc]
      refine bind_congr fun right => ?_
      rw [bind_assoc]
      rfl
  reads {left more before after} _ hne hrun := by
    rw [linkStep, bind_of_ok (peek_apply before)] at hrun
    cases hoperator : operator? before.ahead.kind with
    | none =>
      rw [hoperator] at hrun
      cases hrun
    | some operator =>
      rw [hoperator] at hrun
      obtain ⟨token, between, hadvance, hrun⟩ := bind_eq_ok.1 hrun
      cases hadvance
      have hbehind : (before.to before.rest.tail).Continues after :=
        (h.bind fun _ => (steady_addNode _).bind fun _ => steady_pure _).of_ok hrun
      refine Nat.lt_of_le_of_lt hbehind.rest.length_le ?_
      rw [State.rest_to, List.length_tail]
      exact Nat.sub_lt (List.length_pos_iff.2 hne) Nat.one_pos

theorem Nearsighted.chain : x.Nearsighted (chain operator? join inner) :=
  h.bind fun left => (repeats_links operator? join h.steady).nearsighted
    (nearsighted_linkStep h operator? join) left

end

theorem Nearsighted.operation : x.Nearsighted (operation inner) :=
  (((((h.chain _ _).chain _ _).chain _ _).chain _ _).chain _ _).chain _ _

theorem Nearsighted.assignmentRule {value : Rule Nat} (hvalue : x.Nearsighted value) :
    x.Nearsighted (assignmentRule inner value) := by
  refine h.operation.bind fun target => (nearsighted_eat? _).bind fun equals => ?_
  cases equals with
  | none => exact nearsighted_pure target
  | some equals =>
    refine hvalue.bind fun index => nearsighted_get (fun state => ?_) fun _ => rfl
    split
    · exact nearsighted_addNode _
    · exact (nearsighted_report _ _).bind fun _ => nearsighted_pure target

end

theorem nearsighted_levels (levels : Nat) :
    x.Nearsighted (assignment levels) ∧ x.Nearsighted (unary levels) := by
  induction levels with
  | zero => exact ⟨nearsighted_reject _, nearsighted_reject _⟩
  | succ levels ih =>
    have hunary := ih.1.unaryRule ih.2
    exact ⟨(hunary.assignmentRule ih.1).nested, hunary.nested⟩

theorem nearsighted_expression (levels : Nat) : x.Nearsighted (expression levels) :=
  (nearsighted_levels levels).1.building

end Exchange

end Lox.Grammar
