import Lox.Proofs.Grammar.Run
import Lox.Proofs.Syntax.Table

/-!
# What the rules for expressions read

Whenever a rule for expressions yields a value, the tokens it has read are a legal phrase, the value
is the root of that phrase, and the errors and nodes it has added are those of the phrase. Nothing
is assumed about errors: this describes every run that was not abandoned.

The rules tie their knot on the number of free levels, so each is read off from what the rules one
level deeper read, and the loops are taken round by round.
-/

namespace Lox

namespace Grammar

variable {α : Type}

/-- The state behind a phrase. -/
def State.past (state : State) (phrase : Phrase) (tail : List Token) : State :=
  { state with
    rest := tail
    errors := state.errors ++ phrase.errors.toArray
    nodes := (phrase.lay state.nodes).nodes }

section
variable (state : State) (phrase : Phrase) (tail others : List Token)

@[simp] theorem State.rest_past : (state.past phrase tail).rest = tail := rfl
@[simp] theorem State.ending_past : (state.past phrase tail).ending = state.ending := rfl
@[simp] theorem State.nesting_past : (state.past phrase tail).nesting = state.nesting := rfl
@[simp] theorem State.nodes_past :
    (state.past phrase tail).nodes = (phrase.lay state.nodes).nodes := rfl
@[simp] theorem State.to_past : (state.past phrase tail).to others = state.past phrase others := rfl

end

/-- From one state to another a legal phrase has been read, and the index is its root. -/
inductive Reading (place levels : Nat) (before : State) : Nat → State → Prop where
  | of (phrase : Phrase) (tail : List Token) (legal : phrase.Legal place levels)
      (rest : before.rest = phrase.tokens ++ tail) :
    Reading place levels before (phrase.lay before.nodes).root (before.past phrase tail)

theorem Reading.of_eq {place levels index : Nat} {before after : State} (phrase : Phrase)
    (tail : List Token) (hlegal : phrase.Legal place levels)
    (hrest : before.rest = phrase.tokens ++ tail) (hindex : index = (phrase.lay before.nodes).root)
    (hafter : after = before.past phrase tail) : Reading place levels before index after := by
  rw [hindex, hafter]
  exact .of phrase tail hlegal hrest

theorem Reading.loosen {place looser levels index : Nat} {before after : State}
    (h : Reading place levels before index after) (hle : looser ≤ place) :
    Reading looser levels before index after := by
  obtain ⟨phrase, tail, hlegal, hrest⟩ := h
  exact .of phrase tail (hlegal.loosen hle) hrest

theorem Reading.ending {place levels index : Nat} {before after : State}
    (h : Reading place levels before index after) : after.ending = before.ending := by
  cases h
  rfl

/-- Every run of the rule that yields a value has read a legal phrase and yields its root. -/
def Reads (rule : Rule Nat) (place levels : Nat) : Prop :=
  ∀ ⦃before after : State⦄ ⦃index : Nat⦄, rule before = .ok index after →
    before.ending.kind = .eof → Reading place levels before index after

/-! ### What stands alone -/

section
variable {inner : Rule Nat} {state : State} {token : Token} {tail : List Token}

theorem leaf_of_rest (node : Node) (hrest : state.rest = token :: tail) :
    leaf node state = .ok state.nodes.size ((state.to tail).put node) := by
  simp [leaf, bind_apply, advance_apply, addNode_apply, hrest]

theorem primary_of_literal {value : Literal} (hrest : state.rest = token :: tail)
    (h : Literal.ofToken? token = some value) :
    primary inner state = .ok (Phrase.lay state.nodes (.literal token value h)).root
      (state.past (.literal token value h) tail) := by
  have hleaf : primary inner state = leaf (.literal value) state := by
    rw [primary, bind_apply, peek_apply, State.ahead_of_rest hrest]
    unfold Literal.ofToken? at h
    split at h <;> simp_all [Option.map_eq_some_iff]
    all_goals
      obtain ⟨carried, hvalue, rfl⟩ := h
      simp [hvalue]
  rw [hleaf, leaf_of_rest _ hrest]
  simp [State.past, State.to, State.put, Phrase.errors, Phrase.lay, Expression.push]

theorem primary_of_identifier (hrest : state.rest = token :: tail)
    (hkind : token.kind = .identifier) :
    primary inner state = .ok (Phrase.lay state.nodes (.var ⟨token, hkind⟩)).root
      (state.past (.var ⟨token, hkind⟩) tail) := by
  have hleaf : primary inner state = leaf (.var (.ofToken token)) state := by
    rw [primary, bind_apply, peek_apply, State.ahead_of_rest hrest]
    simp [hkind]
  rw [hleaf, leaf_of_rest _ hrest]
  simp [State.past, State.to, State.put, Phrase.errors, Phrase.lay, Expression.push]

theorem primary_of_leftParen (hrest : state.rest = token :: tail)
    (hkind : token.kind = .leftParen) :
    primary inner state =
      (do
        let index ← inner
        let _ ← expect .rightParen "Expect ')' after expression."
        addNode (.group index)) (state.to tail) := by
  rw [primary, bind_apply, peek_apply, State.ahead_of_rest hrest]
  simp only [hkind]
  rw [bind_apply, advance_apply, hrest, List.tail_cons]

end

/-- A run that yields a value has found one of the three things that stand alone. -/
theorem kind_of_primary {inner : Rule Nat} {before after : State} {index : Nat}
    (hrun : primary inner before = .ok index after) :
    (∃ value, Literal.ofToken? before.ahead = some value) ∨ before.ahead.kind = .identifier ∨
      before.ahead.kind = .leftParen := by
  rw [primary, bind_apply, peek_apply] at hrun
  simp only [Literal.ofToken?]
  cases hkind : before.ahead.kind with
  | number | string =>
    cases hvalue : before.ahead.value with
    | some value => simp
    | none =>
      simp only [hkind, hvalue] at hrun
      cases hrun
  | identifier | leftParen => simp
  | keyword word =>
    cases word with
    | falseWord | trueWord | nilWord => simp
    | _ =>
      simp only [hkind] at hrun
      cases hrun
  | _ =>
    simp only [hkind] at hrun
    cases hrun

theorem reads_primary {inner : Rule Nat} {levels : Nat} (hinner : Reads inner 0 levels) :
    Reads (primary inner) 9 (levels + 1) := by
  intro before after index hrun hending
  have hkind := kind_of_primary hrun
  obtain ⟨tail, hrest⟩ : ∃ tail, before.rest = before.ahead :: tail := by
    refine before.exists_rest_eq_cons hending fun heof => ?_
    simp [Literal.ofToken?, heof] at hkind
  obtain ⟨value, hvalue⟩ | hkind | hkind := hkind
  · rw [primary_of_literal hrest hvalue] at hrun
    cases hrun
    exact .of (.literal before.ahead value hvalue) tail
      ⟨trivial, Nat.le_refl _, Nat.succ_pos _⟩ hrest
  · rw [primary_of_identifier hrest hkind] at hrun
    cases hrun
    exact .of (.var ⟨before.ahead, hkind⟩) tail
      ⟨trivial, Nat.le_refl _, Nat.succ_pos _⟩ hrest
  · rw [primary_of_leftParen hrest hkind, bind_eq_ok] at hrun
    obtain ⟨innerIndex, between, hrun, hclose⟩ := hrun
    obtain ⟨phrase, innerTail, hlegal, hinnerRest⟩ := hinner hrun hending
    obtain ⟨closing, closed, hclose, hadd⟩ := bind_eq_ok.1 hclose
    obtain ⟨rest, hclosed, hclosing, rfl⟩ := expect_eq_ok hclose hending (by decide)
    cases hadd
    refine .of (.group ⟨before.ahead, hkind⟩ phrase ⟨closing, hclosing⟩) rest
      ⟨hlegal.ordered, Nat.le_refl _, Nat.succ_lt_succ hlegal.depth_lt⟩ ?_
    simp_all [Phrase.tokens]

/-! ### Calls -/

/-- The state behind arguments that come behind so many others. -/
def State.pastArguments (state : State) (earlier : Nat) (phrases : List Phrase)
    (tail : List Token) : State :=
  { state with
    rest := tail
    errors := state.errors ++ (Phrase.argumentErrors earlier phrases).toArray
    nodes := (Phrase.layAll state.nodes phrases).1 }

section
variable (state : State) (earlier : Nat) (phrases : List Phrase) (tail others : List Token)

@[simp] theorem State.rest_pastArguments :
    (state.pastArguments earlier phrases tail).rest = tail := rfl
@[simp] theorem State.ending_pastArguments :
    (state.pastArguments earlier phrases tail).ending = state.ending := rfl
@[simp] theorem State.nodes_pastArguments :
    (state.pastArguments earlier phrases tail).nodes = (Phrase.layAll state.nodes phrases).1 := rfl
@[simp] theorem State.to_pastArguments :
    (state.pastArguments earlier phrases tail).to others =
      state.pastArguments earlier phrases others := rfl

theorem State.pastArguments_nil : state.pastArguments earlier [] tail = state.to tail := by
  simp [pastArguments, State.to, Phrase.argumentErrors, Phrase.layAll]

theorem State.past_call (callee : Phrase) (opening : Mark .leftParen) (inside : List Token)
    (closing : Mark .rightParen) :
    ((state.past callee others).pastArguments 0 phrases tail).put
        (.call (callee.lay state.nodes).root (Phrase.layAll (callee.lay state.nodes).nodes phrases).2
          closing.token.line) =
      state.past (.call callee opening phrases inside closing) tail := by
  simp [past, pastArguments, put, Phrase.errors, Phrase.lay, Expression.push]

theorem State.pastArguments_cons (phrase : Phrase) :
    state.pastArguments earlier (phrase :: phrases) tail =
      (state.pastArguments earlier [phrase] others).pastArguments (earlier + 1) phrases tail := by
  simp [pastArguments, Phrase.argumentErrors, Phrase.layAll]

end

/-- The state in which an item behind so many others is read. -/
def State.counting (state : State) (excess : SyntaxError.Cause) (earlier : Nat) : State :=
  if maxArity ≤ earlier then { state with errors := state.errors.push ⟨excess, state.ahead⟩ }
  else state

theorem counted_apply (item : Rule α) (excess : SyntaxError.Cause) (earlier : Nat)
    (state : State) : counted item excess earlier state = item (state.counting excess earlier) := by
  by_cases h : maxArity ≤ earlier
  · simp [counted, State.counting, h, bind_apply, peek_apply, report_apply]
  · simp [counted, State.counting, h]

section
variable (state : State) (excess : SyntaxError.Cause) (earlier : Nat)

@[simp] theorem State.rest_counting : (state.counting excess earlier).rest = state.rest := by
  rw [counting]
  split <;> rfl

@[simp] theorem State.ending_counting : (state.counting excess earlier).ending = state.ending := by
  rw [counting]
  split <;> rfl

@[simp] theorem State.nesting_counting :
    (state.counting excess earlier).nesting = state.nesting := by
  rw [counting]
  split <;> rfl

@[simp] theorem State.nodes_counting : (state.counting excess earlier).nodes = state.nodes := by
  rw [counting]
  split <;> rfl

end

theorem State.past_counting {state : State} {phrase : Phrase} (hahead : state.ahead = phrase.first)
    (earlier : Nat) (tail : List Token) :
    (state.counting .tooManyArguments earlier).past phrase tail =
      state.pastArguments earlier [phrase] tail := by
  by_cases hfull : maxArity ≤ earlier
  · have herrors : state.errors.push ⟨.tooManyArguments, phrase.first⟩ ++ phrase.errors.toArray =
        state.errors ++ (Phrase.argumentErrors earlier [phrase]).toArray := by
      rw [← Array.toList_inj]
      simp [Phrase.argumentErrors, Phrase.excess, hfull]
    simp [counting, past, pastArguments, Phrase.layAll, hfull, hahead, herrors]
  · simp [counting, past, pastArguments, Phrase.argumentErrors, Phrase.excess, Phrase.layAll, hfull]

theorem State.ahead_of_phrase {state : State} {phrase : Phrase} {tail : List Token}
    (hrest : state.rest = phrase.tokens ++ tail) : state.ahead = phrase.first := by
  obtain ⟨others, hfirst⟩ := phrase.tokens_eq_first_cons
  rw [hfirst, List.cons_append] at hrest
  exact State.ahead_of_rest hrest

variable {argument : Rule Nat} {levels : Nat}

theorem reads_counted (hargument : Reads argument 0 levels) {earlier index : Nat}
    {before after : State} (hrun : counted argument .tooManyArguments earlier before = .ok index after)
    (hending : before.ending.kind = .eof) :
    ∃ (phrase : Phrase) (tail : List Token), phrase.Legal 0 levels ∧
      before.rest = phrase.tokens ++ tail ∧ index = (phrase.lay before.nodes).root ∧
        after = before.pastArguments earlier [phrase] tail := by
  rw [counted_apply] at hrun
  obtain ⟨phrase, tail, hlegal, hrest⟩ := hargument hrun (by simpa using hending)
  rw [State.rest_counting] at hrest
  exact ⟨phrase, tail, hlegal, hrest, by simp,
    State.past_counting (State.ahead_of_phrase hrest) earlier tail⟩

/-- Round by round, an argument and a comma in front of the arguments of the rounds to come. -/
theorem reads_items (hargument : Reads argument 0 levels) {budget : List Token} :
    ∀ {earlier : Array Nat} {values : List Nat} {before after : State},
      items argument .tooManyArguments budget earlier before = .ok values after →
      before.ending.kind = .eof → ∃ (phrases : List Phrase) (inside tail : List Token),
        phrases ≠ [] ∧ Phrase.AllLegal levels phrases ∧ Separated (Phrase.pieces phrases) inside ∧
        before.rest = inside ++ tail ∧
        values = earlier.toList ++ (Phrase.layAll before.nodes phrases).2 ∧
        after = before.pastArguments earlier.size phrases tail := by
  induction budget with
  | nil =>
    intro earlier values before after hrun hending
    obtain ⟨index, between, hitem, ⟨rfl, rfl, -⟩ | ⟨_, _, hbudget, -⟩⟩ := items_eq_ok hrun
    · obtain ⟨phrase, tail, hlegal, hrest, rfl, rfl⟩ := reads_counted hargument hitem hending
      exact ⟨[phrase], phrase.tokens, tail, by simp, .cons hlegal (.nil _), .last _, hrest,
        by simp [Phrase.layAll], rfl⟩
    · cases hbudget
  | cons spare budget ih =>
    intro earlier values before after hrun hending
    obtain ⟨index, between, hitem, hrounds⟩ := items_eq_ok hrun
    obtain ⟨phrase, tail, hlegal, hrest, rfl, rfl⟩ := reads_counted hargument hitem hending
    obtain ⟨rfl, rfl, -⟩ | ⟨_, _, hbudget, hcomma, hmore⟩ := hrounds
    · exact ⟨[phrase], phrase.tokens, tail, by simp, .cons hlegal (.nil _), .last _, hrest,
        by simp [Phrase.layAll], rfl⟩
    · cases hbudget
      obtain ⟨comma, others, htail, hcomma⟩ := State.exists_rest_of_ahead hcomma hending (by decide)
      obtain rfl : tail = comma :: others := htail
      obtain ⟨phrases, inside, last, hne, hall, hseparated, hinside, rfl, rfl⟩ := ih hmore hending
      obtain ⟨second, rest, rfl⟩ := List.exists_cons_of_ne_nil hne
      refine ⟨phrase :: second :: rest, _, last, by simp, .cons hlegal hall,
        .more phrase.tokens ⟨comma, hcomma⟩ hseparated, ?_, ?_, ?_⟩
      · obtain rfl : others = inside ++ last := hinside
        simpa using hrest
      · simp [Phrase.layAll]
      · simp [State.pastArguments_cons _ _ (second :: rest) _ others phrase]

theorem reads_commaSeparated (hargument : Reads argument 0 levels) {values : List Nat}
    {before after : State}
    (hrun : commaSeparated argument .tooManyArguments before = .ok values after)
    (hending : before.ending.kind = .eof) :
    ∃ (phrases : List Phrase) (inside tail : List Token), Phrase.AllLegal levels phrases ∧
      Separated (Phrase.pieces phrases) inside ∧ before.rest = inside ++ tail ∧
      values = (Phrase.layAll before.nodes phrases).2 ∧
      after = before.pastArguments 0 phrases tail := by
  by_cases hclosed : before.ahead.kind = .rightParen
  · rw [commaSeparated_of_closed hclosed] at hrun
    cases hrun
    exact ⟨[], [], before.rest, .nil _, .none, rfl, rfl, (State.pastArguments_nil ..).symm⟩
  · rw [commaSeparated_of_open hclosed] at hrun
    obtain ⟨phrases, inside, tail, -, hlegal, hseparated, hrest, hvalues, hafter⟩ :=
      reads_items hargument hrun hending
    exact ⟨phrases, inside, tail, hlegal, hseparated, hrest, by simpa using hvalues, hafter⟩

theorem calls_of_other {budget : List Token} {callee : Nat} {state : State}
    (hahead : state.ahead.kind ≠ .leftParen) :
    calls argument budget callee state = .ok callee state := by
  cases budget with
  | nil => rfl
  | cons _ budget => simp [calls, bind_apply, eat?_apply, hahead, pure_apply]

theorem calls_of_leftParen {budget tail : List Token} {spare token : Token} {callee : Nat}
    {state : State} (hrest : state.rest = token :: tail) (hkind : token.kind = .leftParen) :
    calls argument (spare :: budget) callee state =
      (do
        let arguments ← commaSeparated argument .tooManyArguments
        let paren ← expect .rightParen "Expect ')' after arguments."
        calls argument budget (← addNode (.call callee arguments paren.line))) (state.to tail) := by
  rw [calls, bind_apply, eat?_apply, State.ahead_of_rest hrest, if_pos hkind, hrest, List.tail_cons]

/-- What has been read becomes the callee of the arguments behind it. -/
theorem Reading.call (hargument : Reads argument 0 levels) {callee : Nat} {values : List Nat}
    {opening closing : Token} {inner tail : List Token} {start before between : State}
    (hending : start.ending.kind = .eof) (hcallee : Reading 8 (levels + 1) start callee before)
    (hrest : before.rest = opening :: inner) (hopening : opening.kind = .leftParen)
    (hinside : commaSeparated argument .tooManyArguments (before.to inner) = .ok values between)
    (hclose : between.rest = closing :: tail) (hclosing : closing.kind = .rightParen) :
    Reading 8 (levels + 1) start between.nodes.size
      ((between.to tail).put (.call callee values closing.line)) := by
  obtain ⟨phrase, others, hlegal, hstart⟩ := hcallee
  obtain rfl : others = opening :: inner := hrest
  obtain ⟨arguments, inside, behind, hall, hseparated, hinner, rfl, rfl⟩ :=
    reads_commaSeparated hargument hinside hending
  refine .of_eq (.call phrase ⟨opening, hopening⟩ arguments inside ⟨closing, hclosing⟩) tail
    ⟨⟨hlegal.place_le, hlegal.ordered, hseparated, hall.ordered⟩, Nat.le_refl _, ?_⟩ ?_ rfl ?_
  · exact Nat.max_lt.2 ⟨hlegal.depth_lt, Nat.lt_succ_of_le hall.depth_le⟩
  · simp_all [Phrase.tokens]
  · simpa using State.past_call start arguments tail inner phrase ⟨opening, hopening⟩ inside
      ⟨closing, hclosing⟩

/-- Round by round, what has been read so far becomes the callee of what follows. -/
theorem reads_calls (hargument : Reads argument 0 levels) {budget : List Token} :
    ∀ {callee index : Nat} {start before after : State},
      calls argument budget callee before = .ok index after → start.ending.kind = .eof →
      Reading 8 (levels + 1) start callee before → Reading 8 (levels + 1) start index after := by
  induction budget with
  | nil =>
    intro callee index start before after hrun _ hcallee
    cases hrun
    exact hcallee
  | cons spare budget ih =>
    intro callee index start before after hrun hending hcallee
    have hbefore : before.ending.kind = .eof := hcallee.ending.symm ▸ hending
    by_cases hopening : before.ahead.kind = .leftParen
    · obtain ⟨opening, inner, hrest, hopening⟩ :=
        State.exists_rest_of_ahead hopening hbefore (by decide)
      rw [calls_of_leftParen hrest hopening, bind_eq_ok] at hrun
      obtain ⟨values, between, hinside, hrun⟩ := hrun
      obtain ⟨closing, closed, hclose, hrun⟩ := bind_eq_ok.1 hrun
      have hbetween : between.ending.kind = .eof := by
        obtain ⟨_, _, _, -, -, -, -, rfl⟩ := reads_commaSeparated hargument hinside hbefore
        exact hbefore
      obtain ⟨tail, hsplit, hclosing, rfl⟩ := expect_eq_ok hclose hbetween (by decide)
      have hread := hcallee.call hargument hending hrest hopening hinside hsplit hclosing
      exact ih hrun hending hread
    · rw [calls_of_other hopening] at hrun
      cases hrun
      exact hcallee

theorem reads_call (hargument : Reads argument 0 levels) : Reads (call argument) 8 (levels + 1) := by
  intro before after index hrun hending
  obtain ⟨callee, between, hcallee, hrun⟩ := bind_eq_ok.1 hrun
  exact reads_calls hargument hrun hending
    ((reads_primary hargument hcallee hending).loosen (by decide))

/-! ### Unary operators -/

theorem unaryRule_of_none {operand : Rule Nat} {state : State}
    (h : UnaryOperator.ofToken? state.ahead.kind = none) :
    unaryRule argument operand state = call argument state := by
  simp [unaryRule, bind_apply, peek_apply, h]

theorem unaryRule_of_some {operand : Rule Nat} {state : State} {token : Token} {tail : List Token}
    {operator : UnaryOperator} (hrest : state.rest = token :: tail)
    (h : UnaryOperator.ofToken? token.kind = some operator) :
    unaryRule argument operand state =
      (do
        let index ← operand
        addNode (.unary operator index token.line)) (state.to tail) := by
  simp [unaryRule, bind_apply, peek_apply, advance_apply, State.ahead_of_rest hrest, h, hrest]

theorem reads_unaryRule {operand : Rule Nat} (hargument : Reads argument 0 levels)
    (hoperand : Reads operand 7 levels) : Reads (unaryRule argument operand) 7 (levels + 1) := by
  intro before after index hrun hending
  cases hsign : UnaryOperator.ofToken? before.ahead.kind with
  | none =>
    rw [unaryRule_of_none hsign] at hrun
    exact (reads_call hargument hrun hending).loosen (by decide)
  | some operator =>
    obtain ⟨tail, hrest⟩ : ∃ tail, before.rest = before.ahead :: tail := by
      refine before.exists_rest_eq_cons hending fun heof => ?_
      simp [UnaryOperator.ofToken?, heof] at hsign
    rw [unaryRule_of_some hrest hsign, bind_eq_ok] at hrun
    obtain ⟨inner, between, hoperandRun, hadd⟩ := hrun
    obtain ⟨phrase, others, hlegal, hinner⟩ := hoperand hoperandRun hending
    cases hadd
    refine .of (.unary before.ahead operator hsign phrase) others
      ⟨⟨hlegal.place_le, hlegal.ordered⟩, Nat.le_refl _, Nat.succ_lt_succ hlegal.depth_lt⟩ ?_
    rw [hrest, Phrase.tokens, List.cons_append, ← hinner, State.rest_to]

/-! ### Chains -/

/-- The operators of a chain are the connectives of one place, and it joins operands by them. -/
structure Joins (operator? : TokenKind → Option α) (join : α → (left right line : Nat) → Node)
    (place : Nat) (connective : α → Connective) : Prop where
  operator : ∀ kind, (operator? kind).map connective =
    (Connective.ofToken? kind).filter (·.place = place)
  node : ∀ operator left right line,
    join operator left right line = (connective operator).node left right line

theorem joins_binary (level : Precedence) :
    Joins (BinaryOperator.ofTokenAt? level) Node.binary level.place .binary where
  operator kind := by
    cases kind with
    | keyword word => cases word <;> cases level <;> rfl
    | _ => cases level <;> rfl
  node _ _ _ _ := rfl

theorem joins_logical (operator : LogicalOperator) :
    Joins (fun kind => if kind = .keyword operator.keyword then some operator else none)
      (fun operator left right _ => .logical operator left right) operator.place .logical where
  operator kind := by
    cases kind with
    | keyword word => cases word <;> cases operator <;> rfl
    | _ => cases operator <;> rfl
  node _ _ _ _ := rfl

section
variable {operator? : TokenKind → Option α} {join : α → (left right line : Nat) → Node}
  {place : Nat} {connective : α → Connective}

theorem Joins.ofToken?_of_some (h : Joins operator? join place connective) {kind : TokenKind}
    {operator : α} (hsome : operator? kind = some operator) :
    Connective.ofToken? kind = some (connective operator) ∧ (connective operator).place = place := by
  have heq := h.operator kind
  rw [hsome, Option.map_some, eq_comm, Option.filter_eq_some_iff] at heq
  simpa using heq

theorem Joins.ne_eof (h : Joins operator? join place connective) {kind : TokenKind} {operator : α}
    (hsome : operator? kind = some operator) : kind ≠ .eof := by
  rintro rfl
  cases (h.ofToken?_of_some hsome).1

variable {operand : Rule Nat}

theorem links_of_none {budget : List Token} {left : Nat} {state : State}
    (h : operator? state.ahead.kind = none) :
    links operator? join operand budget left state = .ok left state := by
  cases budget with
  | nil => rfl
  | cons _ budget => simp [links, bind_apply, peek_apply, h, pure_apply]

theorem links_of_some {budget tail : List Token} {spare token : Token} {left : Nat} {state : State}
    {operator : α} (hrest : state.rest = token :: tail)
    (h : operator? token.kind = some operator) :
    links operator? join operand (spare :: budget) left state =
      (do
        let right ← operand
        links operator? join operand budget (← addNode (join operator left right token.line)))
        (state.to tail) := by
  simp [links, bind_apply, peek_apply, advance_apply, State.ahead_of_rest hrest, h, hrest]

theorem State.past_infixed (state : State) (left right : Phrase) (sign : Token)
    (connective : Connective) (reads : Connective.ofToken? sign.kind = some connective)
    (others tail : List Token) :
    ((state.past left others).past right tail).put
        (connective.node (left.lay state.nodes).root
          (right.lay (left.lay state.nodes).nodes).root sign.line) =
      state.past (.infixed left sign connective reads right) tail := by
  simp [past, put, Phrase.errors, Phrase.lay, Expression.push]

/-- What has been read becomes the left operand of the operator behind it. -/
theorem Reading.infixed (h : Joins operator? join place connective) {left right : Nat}
    {sign : Token} {operator : α} {others : List Token} {start before after : State}
    (hleft : Reading place levels start left before) (hrest : before.rest = sign :: others)
    (hsign : operator? sign.kind = some operator)
    (hright : Reading (place + 1) levels (before.to others) right after) :
    Reading place levels start after.nodes.size (after.put (join operator left right sign.line)) := by
  obtain ⟨first, tail, hfirst, hstart⟩ := hleft
  obtain rfl : tail = sign :: others := hrest
  obtain ⟨second, rest, hsecond, hothers⟩ := hright
  obtain ⟨hreads, hplace⟩ := h.ofToken?_of_some hsign
  rw [h.node]
  refine .of_eq (.infixed first sign (connective operator) hreads second) rest
    ⟨⟨hplace ▸ hfirst.place_le, hplace ▸ hsecond.place_le, hfirst.ordered, hsecond.ordered⟩,
      Nat.le_of_eq hplace.symm, Nat.max_lt.2 ⟨hfirst.depth_lt, hsecond.depth_lt⟩⟩ ?_ rfl ?_
  · rw [hstart, Phrase.tokens, List.append_assoc, List.cons_append, ← hothers]
    rfl
  · simpa using State.past_infixed start first second sign _ hreads others rest

/-- Round by round, what has been read so far becomes the left operand of what follows. -/
theorem reads_links (h : Joins operator? join place connective)
    (hoperand : Reads operand (place + 1) levels) {budget : List Token} :
    ∀ {left index : Nat} {start before after : State},
      links operator? join operand budget left before = .ok index after →
      start.ending.kind = .eof →
      Reading place levels start left before → Reading place levels start index after := by
  induction budget with
  | nil =>
    intro left index start before after hrun _ hleft
    cases hrun
    exact hleft
  | cons spare budget ih =>
    intro left index start before after hrun hending hleft
    have hbefore : before.ending.kind = .eof := hleft.ending.symm ▸ hending
    cases hsign : operator? before.ahead.kind with
    | none =>
      rw [links_of_none hsign] at hrun
      cases hrun
      exact hleft
    | some operator =>
      obtain ⟨others, hrest⟩ := before.exists_rest_eq_cons hbefore (h.ne_eof hsign)
      rw [links_of_some hrest hsign, bind_eq_ok] at hrun
      obtain ⟨right, between, hright, hrun⟩ := hrun
      exact ih hrun hending (hleft.infixed h hrest hsign (hoperand hright hbefore))

theorem reads_chain (h : Joins operator? join place connective)
    (hoperand : Reads operand (place + 1) levels) :
    Reads (chain operator? join operand) place levels := by
  intro before after index hrun hending
  obtain ⟨first, between, hfirst, hrun⟩ := bind_eq_ok.1 hrun
  exact reads_links h hoperand hrun hending
    ((hoperand hfirst hending).loosen (Nat.le_succ place))

end

theorem reads_operation {unary : Rule Nat} (hunary : Reads unary 7 levels) :
    Reads (operation unary) 1 levels := by
  have hproduct := reads_chain (joins_binary .product) hunary
  have hsum := reads_chain (joins_binary .sum) hproduct
  have hcomparison := reads_chain (joins_binary .comparison) hsum
  have hequality := reads_chain (joins_binary .equality) hcomparison
  have hand := reads_chain (joins_logical .and) hequality
  exact reads_chain (joins_logical .or) hand

/-! ### Assignments -/

section
variable {unary value : Rule Nat} {before between : State}

theorem assignmentRule_of_other {target : Nat}
    (hoperation : operation unary before = .ok target between)
    (hahead : between.ahead.kind ≠ .equal) :
    assignmentRule unary value before = .ok target between := by
  simp [assignmentRule, bind_apply, hoperation, eat?_apply, hahead, pure_apply]

theorem assignmentRule_of_equal {target : Nat} {equals : Token} {tail : List Token}
    (hoperation : operation unary before = .ok target between)
    (hrest : between.rest = equals :: tail) (hkind : equals.kind = .equal) :
    assignmentRule unary value before =
      (do
        let index ← value
        match (← get).nodes[target]? with
        | some (.var name) => addNode (.assign name index)
        | _ =>
          report .notAssignable equals
          return target) (between.to tail) := by
  have hequals : eat? .equal between = .ok (some equals) (between.to tail) := by
    rw [eat?_apply, State.ahead_of_rest hrest, if_pos hkind, hrest, List.tail_cons]
  rw [assignmentRule, bind_of_ok hoperation]
  exact bind_of_ok hequals

theorem assignmentRule_of_var {after : State} {target index : Nat} {equals : Token}
    {tail : List Token} {name : Identifier}
    (hoperation : operation unary before = .ok target between)
    (hrest : between.rest = equals :: tail) (hkind : equals.kind = .equal)
    (hvalue : value (between.to tail) = .ok index after)
    (hnode : after.nodes[target]? = some (.var name)) :
    assignmentRule unary value before =
      .ok after.nodes.size (after.put (.assign name index)) := by
  rw [assignmentRule_of_equal hoperation hrest hkind]
  simp [bind_apply, hvalue, get_apply, hnode, addNode_apply]

theorem assignmentRule_of_ne_var {after : State} {target index : Nat} {equals : Token}
    {tail : List Token} {node : Node} (hoperation : operation unary before = .ok target between)
    (hrest : between.rest = equals :: tail) (hkind : equals.kind = .equal)
    (hvalue : value (between.to tail) = .ok index after)
    (hnode : after.nodes[target]? = some node) (hne : ∀ name, node ≠ .var name) :
    assignmentRule unary value before =
      .ok target { after with errors := after.errors.push ⟨.notAssignable, equals⟩ } := by
  rw [assignmentRule_of_equal hoperation hrest hkind]
  cases node with
  | var name => exact absurd rfl (hne name)
  | _ => simp only [bind_apply, hvalue, get_apply, hnode, report_apply, pure_apply]

end

theorem State.past_assign (state : State) (target : Mark .identifier) (equals : Mark .equal)
    (value : Phrase) (others tail : List Token) :
    ((state.past (.var target) others).past value tail).put
        (.assign (.ofToken target.token)
          (value.lay ((Phrase.var target).lay state.nodes).nodes).root) =
      state.past (.assign target equals value) tail := by
  simp [past, put, Phrase.errors, Phrase.lay, Expression.push]

theorem State.past_stray (state : State) (target : Phrase) (equals : Mark .equal) (value : Phrase)
    (others tail : List Token) :
    { (state.past target others).past value tail with
        errors := ((state.past target others).past value tail).errors.push
          ⟨.notAssignable, equals.token⟩ } =
      state.past (.stray target equals value) tail := by
  simp [past, Phrase.lay, Phrase.errors]

/-- An assignment is told from a stray value by the node of what has been read before the `=`. -/
theorem reads_assignmentRule {unary value : Rule Nat} (hunary : Reads unary 7 (levels + 1))
    (hvalue : Reads value 0 levels) : Reads (assignmentRule unary value) 0 (levels + 1) := by
  intro before after index hrun hending
  obtain ⟨root, between, hoperation, -⟩ := bind_eq_ok.1 hrun
  obtain ⟨target, tail, htarget, hrest⟩ := reads_operation hunary hoperation hending
  by_cases hequal : (before.past target tail).ahead.kind = .equal
  case neg =>
    rw [assignmentRule_of_other hoperation hequal] at hrun
    cases hrun
    exact .of target tail (htarget.loosen (by decide)) hrest
  obtain ⟨equals, others, htail, hequal⟩ := State.exists_rest_of_ahead hequal hending (by decide)
  have hsplit := hrun
  rw [assignmentRule_of_equal hoperation htail hequal, bind_eq_ok] at hsplit
  obtain ⟨index, between, hvalueRun, -⟩ := hsplit
  obtain ⟨second, rest, hsecond, hothers⟩ := hvalue hvalueRun hending
  obtain rfl : tail = equals :: others := htail
  obtain rfl : others = second.tokens ++ rest := hothers
  have hdepth : second.depth + 1 < levels + 1 := Nat.succ_lt_succ hsecond.depth_lt
  -- The node is looked up when the value has been read, and more nodes are behind it by then.
  cases hvar : target.isVar with
  | true =>
    obtain ⟨name, rfl⟩ : ∃ name, target = .var name := by
      cases target with
      | var name => exact ⟨name, rfl⟩
      | _ => cases hvar
    have hnode := Phrase.getElem?_of_prefix
      (Phrase.prefix_lay (before.nodes.push (.var (.ofToken name.token))) second)
      Array.getElem?_push_size
    rw [assignmentRule_of_var hoperation rfl hequal hvalueRun hnode] at hrun
    cases hrun
    refine .of_eq (.assign name ⟨equals, hequal⟩ second) rest
      ⟨hsecond.ordered, Nat.le_refl _, hdepth⟩ ?_ rfl ?_
    · rw [hrest]
      rfl
    · simpa using State.past_assign before name ⟨equals, hequal⟩ second _ rest
  | false =>
    obtain ⟨node, hnode, hne⟩ := Phrase.exists_root_ne_var htarget.place_le hvar before.nodes
    have hkept := Phrase.getElem?_of_prefix (Phrase.prefix_lay _ second) hnode
    rw [assignmentRule_of_ne_var hoperation rfl hequal hvalueRun hkept hne] at hrun
    cases hrun
    refine .of_eq (.stray target ⟨equals, hequal⟩ second) rest
      ⟨⟨htarget.place_le, hvar, htarget.ordered, hsecond.ordered⟩, Nat.le_refl _,
        Nat.max_lt.2 ⟨htarget.depth_lt, hdepth⟩⟩ ?_ rfl ?_
    · rw [hrest, Phrase.tokens, List.append_assoc, List.cons_append]
    · simpa using State.past_stray before target ⟨equals, hequal⟩ second _ rest

/-! ### Levels -/

theorem nested_eq_ok {rule : Rule α} {before after : State} {value : α}
    (hrun : nested rule before = .ok value after) :
    ∃ inner, rule { before with nesting := before.nesting + 1 } = .ok value inner ∧
      after = { inner with nesting := inner.nesting - 1 } := by
  rw [nested] at hrun
  split at hrun
  case isTrue => cases hrun
  case isFalse =>
    split at hrun
    case h_1 inner heq =>
      cases hrun
      exact ⟨inner, heq, rfl⟩
    case h_2 => cases hrun

theorem reads_nested {rule : Rule Nat} {place : Nat} (h : Reads rule place levels) :
    Reads (nested rule) place levels := by
  intro before after index hrun hending
  obtain ⟨inner, hinner, rfl⟩ := nested_eq_ok hrun
  obtain ⟨phrase, tail, hlegal, hrest⟩ := h hinner hending
  exact .of phrase tail hlegal hrest

/-- The knot: what may stand inside of an expression is read one level deeper. -/
theorem reads_levels (levels : Nat) :
    Reads (assignment levels) 0 levels ∧ Reads (unary levels) 7 levels := by
  induction levels with
  | zero =>
    refine ⟨?_, ?_⟩ <;>
    · intro before after index hrun
      cases hrun
  | succ levels ih =>
    obtain ⟨hassignment, hunary⟩ := ih
    have hrule := reads_unaryRule hassignment hunary
    exact ⟨reads_nested (reads_assignmentRule hrule hassignment), reads_nested hrule⟩

/-- An expression that is read is the table of a legal phrase of its own. -/
theorem expression_eq_ok {before after : State} {parsed : Expression}
    (hrun : expression levels before = .ok parsed after) (hending : before.ending.kind = .eof) :
    ∃ (phrase : Phrase) (tail : List Token), phrase.Legal 0 levels ∧
      before.rest = phrase.tokens ++ tail ∧ parsed = phrase.expression ∧
      after = { before with rest := tail, errors := before.errors ++ phrase.errors.toArray } := by
  rw [expression, building] at hrun
  split at hrun
  case h_2 => cases hrun
  case h_1 root inner heq =>
    cases hrun
    obtain ⟨phrase, tail, hlegal, hrest⟩ := (reads_levels levels).1 heq hending
    exact ⟨phrase, tail, hlegal, hrest, rfl, rfl⟩

end Grammar

end Lox
