import Lox.Proofs.Grammar.Reading

/-!
# What the rules for expressions accept

The other direction: wherever the tokens begin with a legal phrase and what follows does not go on
with it, the rules read exactly that phrase. Along a chain of operators or calls the left operand is
the part that comes first, so these are followed down the left side of the phrase, keeping count of
the rounds that the loop has left.
-/

namespace Lox

/-- The place at which a token goes on with the expression in front of it. -/
def TokenKind.continues? : TokenKind → Option Nat
  | .equal => some 0
  | .leftParen => some 8
  | kind => (Connective.ofToken? kind).map Connective.place

theorem TokenKind.continues?_of_ofToken? {kind : TokenKind} {connective : Connective}
    (h : Connective.ofToken? kind = some connective) : kind.continues? = some connective.place := by
  cases kind <;> simp_all [TokenKind.continues?, Connective.ofToken?, BinaryOperator.ofToken?]

namespace Grammar

variable {α : Type}

/-- A token at which everything ends that holds together at least this tightly. -/
def Stops (place : Nat) (kind : TokenKind) : Prop :=
  ∀ other, kind.continues? = some other → other < place

theorem Stops.of_none {kind : TokenKind} (place : Nat) (h : kind.continues? = none) :
    Stops place kind := by
  intro other hother
  rw [h] at hother
  cases hother

theorem Stops.loosen {place looser : Nat} {kind : TokenKind} (h : Stops looser kind)
    (hle : looser ≤ place) : Stops place kind :=
  fun other hother => Nat.lt_of_lt_of_le (h other hother) hle

theorem stops_nine (kind : TokenKind) : Stops 9 kind := by
  intro other hother
  unfold TokenKind.continues? at hother
  split at hother
  case h_1 | h_2 =>
    cases hother
    decide
  case h_3 =>
    obtain ⟨connective, -, rfl⟩ := Option.map_eq_some_iff.1 hother
    exact Nat.lt_of_le_of_lt connective.place_le (by decide)

/-- In front of every legal phrase that the tokens begin with and that ends where they stop, the
rule reads that phrase. -/
def Accepts (rule : Rule Nat) (place levels nesting : Nat) : Prop :=
  ∀ (before : State) (phrase : Phrase) (tail : List Token), before.nesting = nesting →
    phrase.Legal place levels → before.rest = phrase.tokens ++ tail →
    Stops place (tail.headD before.ending).kind →
    rule before = .ok (phrase.lay before.nodes).root (before.past phrase tail)

theorem expect_of_rest {kind : TokenKind} {message : String} {state : State} {token : Token}
    {tail : List Token} (hrest : state.rest = token :: tail) (hkind : token.kind = kind) :
    expect kind message state = .ok token (state.to tail) := by
  rw [expect_apply, State.ahead_of_rest hrest, if_pos hkind, hrest, List.tail_cons]

variable {argument : Rule Nat} {levels nesting : Nat}

theorem accepts_primary (hinner : Accepts argument 0 levels nesting) :
    Accepts (primary argument) 9 (levels + 1) nesting := by
  intro before phrase tail hnesting hlegal hrest _
  cases phrase with
  | literal token value reads => exact primary_of_literal hrest reads
  | var name => exact primary_of_identifier hrest name.isKind
  | group opening inner closing =>
    have hlegal : inner.Legal 0 levels :=
      ⟨hlegal.ordered, Nat.zero_le _, Nat.lt_of_succ_lt_succ hlegal.depth_lt⟩
    rw [Phrase.tokens, List.cons_append, List.cons_append, List.append_assoc,
      List.singleton_append] at hrest
    have hread := hinner (before.to (inner.tokens ++ closing.token :: tail)) inner
      (closing.token :: tail) hnesting hlegal rfl (.of_none _ (by simp [closing.isKind]; rfl))
    rw [primary_of_leftParen hrest opening.isKind, bind_apply, hread]
    simp only [bind_apply, expect_of_rest (State.rest_past ..) closing.isKind, addNode_apply]
    rfl
  | unary _ _ _ _ | assign _ _ _ | stray _ _ _ | call _ _ _ _ _ =>
    exact absurd hlegal.place_le (by simp [Phrase.place])
  | infixed left sign connective reads right =>
    exact absurd (Nat.le_trans hlegal.place_le connective.place_le) (by decide)

/-! ### Arguments -/

theorem counted_of_phrase (hargument : Accepts argument 0 levels nesting) (earlier : Nat)
    {before : State} {phrase : Phrase} {tail : List Token} (hnesting : before.nesting = nesting)
    (hlegal : phrase.Legal 0 levels) (hrest : before.rest = phrase.tokens ++ tail)
    (hstops : Stops 0 (tail.headD before.ending).kind) :
    counted argument .tooManyArguments earlier before =
      .ok (phrase.lay before.nodes).root (before.pastArguments earlier [phrase] tail) := by
  rw [counted_apply, hargument _ phrase tail (by simpa using hnesting) hlegal (by simpa using hrest)
    (by simpa using hstops), State.past_counting (State.ahead_of_phrase hrest),
    State.nodes_counting]

/-- Each argument takes a round, and there are at least as many rounds as tokens. -/
theorem items_of_phrases (hargument : Accepts argument 0 levels nesting) (closing : Mark .rightParen)
    {tail : List Token} : ∀ {phrases : List Phrase} {inside budget : List Token}
      {earlier : Array Nat} (before : State),
      phrases ≠ [] → before.nesting = nesting → Phrase.AllLegal levels phrases →
      Separated (Phrase.pieces phrases) inside →
      before.rest = inside ++ closing.token :: tail → inside.length ≤ budget.length →
      items argument .tooManyArguments budget earlier before =
        .ok (earlier.toList ++ (Phrase.layAll before.nodes phrases).2)
          (before.pastArguments earlier.size phrases (closing.token :: tail)) := by
  intro phrases
  induction phrases with
  | nil =>
    intro _ _ _ _ hne
    exact absurd rfl hne
  | cons phrase rest ih =>
    intro inside budget earlier before _ hnesting hall hseparated hrest hbudget
    cases rest with
    | nil =>
      obtain rfl := hseparated.eq_piece
      have hcounted := counted_of_phrase hargument earlier.size hnesting hall.head hrest
        (.of_none 0 (by simp [closing.isKind]; rfl))
      exact items_of_last hcounted (by simp [State.ahead, closing.isKind])
    | cons next others =>
      obtain ⟨comma, inside, hothers, rfl⟩ := hseparated.exists_comma
      rw [List.append_assoc, List.cons_append] at hrest
      have hcounted := counted_of_phrase hargument earlier.size hnesting hall.head hrest
        (.of_none 0 (by simp [comma.isKind]; rfl))
      cases budget with
      | nil => simp at hbudget
      | cons spare budget =>
        have hinside : inside.length ≤ budget.length := by
          simp only [List.length_append, List.length_cons] at hbudget
          omega
        rw [items_of_more hcounted rfl comma.isKind, State.to_pastArguments,
          ih (before.pastArguments earlier.size [phrase] _) (by simp) hnesting hall.tail hothers rfl
            hinside]
        simp [Phrase.layAll, State.pastArguments_cons _ _ (next :: others) _
          (inside ++ closing.token :: tail) phrase]

theorem commaSeparated_of_phrases (hargument : Accepts argument 0 levels nesting)
    {phrases : List Phrase} {inside tail : List Token} (before : State)
    (closing : Mark .rightParen) (hnesting : before.nesting = nesting)
    (hall : Phrase.AllLegal levels phrases) (hseparated : Separated (Phrase.pieces phrases) inside)
    (hrest : before.rest = inside ++ closing.token :: tail) :
    commaSeparated argument .tooManyArguments before =
      .ok (Phrase.layAll before.nodes phrases).2
        (before.pastArguments 0 phrases (closing.token :: tail)) := by
  cases phrases with
  | nil =>
    obtain rfl := hseparated.eq_nil
    rw [List.nil_append] at hrest
    rw [State.pastArguments_nil, ← hrest, State.to_rest]
    exact commaSeparated_of_closed (by rw [State.ahead_of_rest hrest, closing.isKind])
  | cons phrase rest =>
    have hopen : before.ahead.kind ≠ .rightParen := by
      obtain ⟨others, rfl⟩ := hseparated.exists_append
      rw [State.ahead_of_phrase (hrest.trans (List.append_assoc ..))]
      intro h
      simpa [h, TokenKind.opensExpression] using phrase.opensExpression_first
    rw [commaSeparated_of_open hopen]
    exact items_of_phrases hargument closing before (by simp) hnesting hall hseparated hrest
      (by simp [hrest])

/-! ### Calls and unary operators -/

theorem call_of_primary {before between : State} {callee : Nat}
    (hprimary : primary argument before = .ok callee between) :
    call argument before = calls argument between.rest callee between := by
  rw [call, bind_of_ok hprimary, bind_of_ok (get_apply between)]

/-- The calls of a phrase are read one behind the other, with rounds left for what follows. -/
theorem call_eq_calls (hargument : Accepts argument 0 levels nesting) {before : State}
    (hnesting : before.nesting = nesting) : (phrase : Phrase) → (tail : List Token) →
    phrase.Legal 8 (levels + 1) → before.rest = phrase.tokens ++ tail →
    ∃ budget, tail.length ≤ budget.length ∧ call argument before =
      calls argument budget (phrase.lay before.nodes).root (before.past phrase tail)
  | .call callee opening arguments inside closing, tail, hlegal, hrest => by
    obtain ⟨⟨hplace, hcallee, hseparated, harguments⟩, -, hdepth⟩ := hlegal
    obtain ⟨hfirst, hsecond⟩ := Nat.max_lt.1 hdepth
    simp only [Phrase.tokens, List.append_assoc, List.cons_append, List.nil_append] at hrest
    obtain ⟨budget, hbudget, hcall⟩ := call_eq_calls hargument hnesting callee _
      ⟨hcallee, hplace, hfirst⟩ hrest
    cases budget with
    | nil => simp at hbudget
    | cons spare budget =>
      refine ⟨budget, by simp at hbudget; omega, ?_⟩
      have hinside := commaSeparated_of_phrases hargument
        (before.past callee (inside ++ closing.token :: tail)) closing hnesting
        ⟨harguments, Nat.le_of_lt_succ hsecond⟩ hseparated rfl
      rw [hcall, calls_of_leftParen rfl opening.isKind, State.to_past, bind_of_ok hinside,
        bind_of_ok (expect_of_rest (State.rest_pastArguments ..) closing.isKind),
        bind_of_ok (addNode_apply ..), ← State.past_call]
      rfl
  | .literal .., tail, hlegal, hrest | .var _, tail, hlegal, hrest
  | .group .., tail, hlegal, hrest =>
    ⟨tail, Nat.le_refl _, call_of_primary (accepts_primary hargument before _ tail hnesting
      { hlegal with place_le := Nat.le_refl 9 } hrest (stops_nine _))⟩
  | .unary .., _, hlegal, _ | .assign .., _, hlegal, _ | .stray .., _, hlegal, _ =>
    absurd hlegal.place_le (by simp [Phrase.place])
  | .infixed _ _ connective _ _, _, hlegal, _ =>
    absurd (Nat.le_trans hlegal.place_le connective.place_le) (by decide)

theorem accepts_call (hargument : Accepts argument 0 levels nesting) :
    Accepts (call argument) 8 (levels + 1) nesting := by
  intro before phrase tail hnesting hlegal hrest hstops
  obtain ⟨budget, -, hcall⟩ := call_eq_calls hargument hnesting phrase tail hlegal hrest
  refine hcall.trans (calls_of_other fun hopening => ?_)
  exact absurd (hstops 8 (by rw [show (tail.headD before.ending).kind = _ from hopening]; rfl))
    (Nat.lt_irrefl 8)

theorem accepts_unaryRule {operand : Rule Nat} (hargument : Accepts argument 0 levels nesting)
    (hoperand : Accepts operand 7 levels nesting) :
    Accepts (unaryRule argument operand) 7 (levels + 1) nesting := by
  intro before phrase tail hnesting hlegal hrest hstops
  by_cases hplace : 8 ≤ phrase.place
  case pos =>
    have hsign := phrase.ofToken?_first hlegal.ordered hplace
    rw [← State.ahead_of_phrase hrest] at hsign
    rw [unaryRule_of_none hsign]
    exact accepts_call hargument before phrase tail hnesting { hlegal with place_le := hplace } hrest
      (hstops.loosen (by decide))
  cases phrase with
  | unary sign operator reads inner =>
    rw [Phrase.tokens, List.cons_append] at hrest
    have hread := hoperand (before.to (inner.tokens ++ tail)) inner tail hnesting
      ⟨hlegal.ordered.2, hlegal.ordered.1, Nat.lt_of_succ_lt_succ hlegal.depth_lt⟩ rfl hstops
    rw [unaryRule_of_some hrest reads, bind_of_ok hread, addNode_apply]
    rfl
  | literal _ _ _ | var _ | group _ _ _ | call _ _ _ _ _ =>
    exact absurd hplace (by simp [Phrase.place])
  | assign _ _ _ | stray _ _ _ => exact absurd hlegal.place_le (by simp [Phrase.place])
  | infixed _ _ connective _ _ =>
    exact absurd (Nat.le_trans hlegal.place_le connective.place_le) (by decide)

/-! ### Chains -/

section
variable {operator? : TokenKind → Option α} {join : α → (left right line : Nat) → Node}
  {place : Nat} {connective : α → Connective} {operand : Rule Nat}

theorem Joins.exists_of_ofToken? (h : Joins operator? join place connective) {kind : TokenKind}
    {sign : Connective} (hsign : Connective.ofToken? kind = some sign) (hplace : sign.place = place) :
    ∃ operator, operator? kind = some operator ∧ connective operator = sign := by
  have heq := h.operator kind
  rw [hsign, Option.filter_some, if_pos (by simpa using hplace)] at heq
  exact Option.map_eq_some_iff.1 heq

theorem Joins.eq_none_of_stops (h : Joins operator? join place connective) {kind : TokenKind}
    (hstops : Stops place kind) : operator? kind = none := by
  cases hoperator : operator? kind with
  | none => rfl
  | some operator =>
    obtain ⟨hreads, hplace⟩ := h.ofToken?_of_some hoperator
    have hlt := hstops _ (TokenKind.continues?_of_ofToken? hreads)
    exact absurd hlt (by omega)

theorem chain_of_operand {before between : State} {left : Nat}
    (hoperand : operand before = .ok left between) :
    chain operator? join operand before =
      links operator? join operand between.rest left between := by
  rw [chain, bind_of_ok hoperand, bind_of_ok (get_apply between)]

/-- The operands of a phrase are joined from the left, with rounds left for what follows. -/
theorem chain_eq_links (h : Joins operator? join place connective)
    (hoperand : Accepts operand (place + 1) levels nesting) (hpos : 0 < place) (hle : place ≤ 6)
    {before : State} (hnesting : before.nesting = nesting) : (phrase : Phrase) →
    (tail : List Token) → phrase.Legal place levels → before.rest = phrase.tokens ++ tail →
    Stops (place + 1) (tail.headD before.ending).kind →
    ∃ budget, tail.length ≤ budget.length ∧ chain operator? join operand before =
      links operator? join operand budget (phrase.lay before.nodes).root (before.past phrase tail)
  | .infixed left sign operator reads right, tail, hlegal, hrest, hstops => by
    by_cases hplace : place + 1 ≤ operator.place
    case pos =>
      exact ⟨tail, Nat.le_refl _, chain_of_operand
        (hoperand before _ tail hnesting { hlegal with place_le := hplace } hrest hstops)⟩
    have heq : operator.place = place :=
      Nat.le_antisymm (Nat.le_of_not_lt hplace) hlegal.place_le
    obtain ⟨⟨hfirst, hsecond, hleft, hright⟩, -, hdepth⟩ := hlegal
    rw [heq] at hfirst hsecond
    obtain ⟨hleftDepth, hrightDepth⟩ := Nat.max_lt.1 hdepth
    rw [Phrase.tokens, List.append_assoc, List.cons_append] at hrest
    obtain ⟨budget, hbudget, hchain⟩ := chain_eq_links h hoperand hpos hle hnesting left
      (sign :: (right.tokens ++ tail)) ⟨hleft, hfirst, hleftDepth⟩ hrest fun other hother => by
        rw [List.headD_cons, TokenKind.continues?_of_ofToken? reads] at hother
        cases hother
        exact Nat.lt_succ_of_le (Nat.le_of_eq heq)
    cases budget with
    | nil => simp at hbudget
    | cons spare budget =>
      obtain ⟨symbol, hsymbol, rfl⟩ := h.exists_of_ofToken? reads heq
      have hread := hoperand (before.past left (right.tokens ++ tail)) right tail hnesting
        ⟨hright, hsecond, hrightDepth⟩ rfl hstops
      refine ⟨budget, by simp at hbudget; omega, ?_⟩
      rw [hchain, links_of_some rfl hsymbol, State.to_past, bind_of_ok hread,
        bind_of_ok (addNode_apply ..), h.node, ← State.past_infixed]
      rfl
  | .literal .., tail, hlegal, hrest, hstops | .var _, tail, hlegal, hrest, hstops
  | .group .., tail, hlegal, hrest, hstops | .unary .., tail, hlegal, hrest, hstops
  | .call .., tail, hlegal, hrest, hstops =>
    ⟨tail, Nat.le_refl _, chain_of_operand (hoperand before _ tail hnesting
      { hlegal with place_le := by simp only [Phrase.place]; omega } hrest hstops)⟩
  | .assign .., _, hlegal, _, _ | .stray .., _, hlegal, _, _ =>
    absurd (Nat.lt_of_lt_of_le hpos hlegal.place_le) (by simp [Phrase.place])

theorem accepts_chain (h : Joins operator? join place connective)
    (hoperand : Accepts operand (place + 1) levels nesting) (hpos : 0 < place) (hle : place ≤ 6) :
    Accepts (chain operator? join operand) place levels nesting := by
  intro before phrase tail hnesting hlegal hrest hstops
  obtain ⟨budget, -, hchain⟩ := chain_eq_links h hoperand hpos hle hnesting phrase tail hlegal hrest
    (hstops.loosen (Nat.le_succ place))
  exact hchain.trans (links_of_none (h.eq_none_of_stops hstops))

end

theorem accepts_operation {unary : Rule Nat} (hunary : Accepts unary 7 levels nesting) :
    Accepts (operation unary) 1 levels nesting := by
  have hproduct := accepts_chain (joins_binary .product) hunary (by decide) (by decide)
  have hsum := accepts_chain (joins_binary .sum) hproduct (by decide) (by decide)
  have hcomparison := accepts_chain (joins_binary .comparison) hsum (by decide) (by decide)
  have hequality := accepts_chain (joins_binary .equality) hcomparison (by decide) (by decide)
  have hand := accepts_chain (joins_logical .and) hequality (by decide) (by decide)
  exact accepts_chain (joins_logical .or) hand (by decide) (by decide)

/-! ### Assignments and levels -/

theorem accepts_assignmentRule {unary value : Rule Nat}
    (hunary : Accepts unary 7 (levels + 1) nesting) (hvalue : Accepts value 0 levels nesting) :
    Accepts (assignmentRule unary value) 0 (levels + 1) nesting := by
  intro before phrase tail hnesting hlegal hrest hstops
  have hoperation := accepts_operation hunary
  have hequal (equals : Mark .equal) : Stops 1 equals.token.kind := by
    intro other hother
    rw [equals.isKind] at hother
    cases hother
    decide
  have hother (hplace : 1 ≤ phrase.place) : assignmentRule unary value before =
      .ok (phrase.lay before.nodes).root (before.past phrase tail) := by
    have hread := hoperation before phrase tail hnesting { hlegal with place_le := hplace } hrest
      (hstops.loosen (by decide))
    refine assignmentRule_of_other hread fun hahead => ?_
    exact absurd (hstops 0 (by rw [show (tail.headD before.ending).kind = _ from hahead]; rfl))
      (Nat.lt_irrefl 0)
  cases phrase with
  | assign target equals inner =>
    have htarget := hoperation before (.var target) (equals.token :: (inner.tokens ++ tail)) hnesting
      ⟨trivial, by simp [Phrase.place], Nat.succ_pos _⟩ hrest (hequal equals)
    have hread := hvalue (before.past (.var target) (inner.tokens ++ tail)) inner tail hnesting
      ⟨hlegal.ordered, Nat.zero_le _, Nat.lt_of_succ_lt_succ hlegal.depth_lt⟩ rfl hstops
    have hnode := Phrase.getElem?_of_prefix
      (Phrase.prefix_lay (before.nodes.push (.var (.ofToken target.token))) inner)
      Array.getElem?_push_size
    rw [assignmentRule_of_var htarget rfl equals.isKind hread hnode, ← State.past_assign]
    rfl
  | stray target equals inner =>
    obtain ⟨⟨hplace, hvar, htarget, hinner⟩, -, hdepth⟩ := hlegal
    obtain ⟨htargetDepth, hinnerDepth⟩ := Nat.max_lt.1 hdepth
    rw [Phrase.tokens, List.append_assoc, List.cons_append] at hrest
    have hfirst := hoperation before target (equals.token :: (inner.tokens ++ tail)) hnesting
      ⟨htarget, hplace, htargetDepth⟩ hrest (hequal equals)
    have hread := hvalue (before.past target (inner.tokens ++ tail)) inner tail hnesting
      ⟨hinner, Nat.zero_le _, Nat.lt_of_succ_lt_succ hinnerDepth⟩ rfl hstops
    obtain ⟨node, hnode, hne⟩ := Phrase.exists_root_ne_var hplace hvar before.nodes
    have hkept := Phrase.getElem?_of_prefix (Phrase.prefix_lay _ inner) hnode
    rw [assignmentRule_of_ne_var hfirst rfl equals.isKind hread hkept hne, State.past_stray]
    rfl
  | literal _ _ _ | var _ | group _ _ _ | unary _ _ _ _ | call _ _ _ _ _ =>
    exact hother (by simp [Phrase.place])
  | infixed _ _ connective _ _ => exact hother connective.place_pos

theorem nested_of_ok {rule : Rule α} {before inner : State} {value : α}
    (hroom : before.nesting < maxNesting)
    (hrun : rule { before with nesting := before.nesting + 1 } = .ok value inner) :
    nested rule before = .ok value { inner with nesting := inner.nesting - 1 } := by
  simp [nested, Nat.not_le.2 hroom, hrun]

theorem accepts_nested {rule : Rule Nat} {place : Nat}
    (h : Accepts rule place levels (nesting + 1)) (hroom : nesting < maxNesting) :
    Accepts (nested rule) place levels nesting := by
  intro before phrase tail hnesting hlegal hrest hstops
  subst hnesting
  exact nested_of_ok hroom
    (h { before with nesting := before.nesting + 1 } phrase tail rfl hlegal hrest hstops)

theorem accepts_levels (levels nesting : Nat) (hroom : nesting + levels ≤ maxNesting) :
    Accepts (assignment levels) 0 levels nesting ∧ Accepts (unary levels) 7 levels nesting := by
  induction levels generalizing nesting with
  | zero =>
    constructor <;>
    · intro _ _ _ _ hlegal
      exact absurd hlegal.depth_lt (Nat.not_lt_zero _)
  | succ levels ih =>
    obtain ⟨hassignment, hunary⟩ := ih (nesting + 1) (by omega)
    have hrule := accepts_unaryRule hassignment hunary
    exact ⟨accepts_nested (accepts_assignmentRule hrule hassignment) (by omega),
      accepts_nested hrule (by omega)⟩

theorem expression_of_phrase {before : State} {phrase : Phrase} {tail : List Token}
    (hroom : before.nesting + levels ≤ maxNesting) (hlegal : phrase.Legal 0 levels)
    (hrest : before.rest = phrase.tokens ++ tail)
    (hstops : Stops 0 (tail.headD before.ending).kind) :
    expression levels before = .ok phrase.expression
      { before with rest := tail, errors := before.errors ++ phrase.errors.toArray } := by
  have hread := (accepts_levels levels _ hroom).1 { before with nodes := #[] } phrase tail rfl hlegal
    hrest hstops
  rw [expression, building, hread]
  rfl

end Grammar

end Lox
