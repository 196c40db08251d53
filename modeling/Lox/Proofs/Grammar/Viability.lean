import Lox.Proofs.Grammar.Inverse
import Lox.Proofs.Grammar.Kept
import Lox.Proofs.Grammar.Lookahead
import Lox.Proofs.Grammar.Rejection

/-!
# Where an expression cannot go on

Where the rules for expressions are rejected, other than for the depth, all that they have read is
the beginning of a legal phrase, so it could have gone on to become an expression. With the token at
which they are rejected it could not: that token is the last one that was looked at, so the rules
are rejected there whatever follows it.
-/

namespace Lox

variable {α β : Type}

/-! ### What phrases are made of -/

theorem Separated.exists_of_mem {pieces : List (List Token)} {inside : List Token} {token : Token}
    (h : Separated pieces inside) (hmem : token ∈ inside) :
    (∃ comma : Mark .comma, token = comma.token) ∨ ∃ piece ∈ pieces, token ∈ piece := by
  induction h with
  | none => cases hmem
  | last piece => exact .inr ⟨piece, List.mem_cons_self, hmem⟩
  | more piece comma _ ih =>
    rcases List.mem_append.1 hmem with hpiece | hmem
    · exact .inr ⟨piece, List.mem_cons_self, hpiece⟩
    · rcases List.mem_cons.1 hmem with rfl | hmem
      · exact .inl ⟨comma, rfl⟩
      · exact (ih hmem).imp_right fun ⟨other, hother, htoken⟩ =>
          ⟨other, List.mem_cons_of_mem _ hother, htoken⟩

/-- A token that may stand in front of the end, and has its value if it is a literal. -/
def Token.Interior (token : Token) : Prop :=
  token.kind ≠ .eof ∧ token.Valued

instance (token : Token) : Decidable token.Interior :=
  inferInstanceAs (Decidable (_ ∧ _))

theorem Token.interior_of_ne {token : Token} (heof : token.kind ≠ .eof)
    (hnumber : token.kind ≠ .number) (hstring : token.kind ≠ .string) : token.Interior :=
  ⟨heof, fun h => (h.elim hnumber hstring).elim⟩

theorem Mark.interior {kind : TokenKind} (mark : Mark kind)
    (h : kind ≠ .eof ∧ kind ≠ .number ∧ kind ≠ .string) : mark.token.Interior := by
  obtain ⟨heof, hnumber, hstring⟩ := h
  rw [← mark.isKind] at heof hnumber hstring
  exact Token.interior_of_ne heof hnumber hstring

theorem Literal.interior {token : Token} {value : Literal}
    (h : Literal.ofToken? token = some value) : token.Interior := by
  refine ⟨fun heof => by simp [Literal.ofToken?, heof] at h, fun hkind => ?_⟩
  unfold Literal.ofToken? at h
  split at h <;> simp_all [Option.map_eq_some_iff, Option.isSome_iff_exists]
  all_goals exact ⟨_, h.choose_spec.1⟩

theorem UnaryOperator.interior {token : Token} {operator : UnaryOperator}
    (h : ofToken? token.kind = some operator) : token.Interior := by
  apply Token.interior_of_ne <;> intro hkind <;> rw [hkind] at h <;> cases h

theorem Connective.interior {token : Token} {connective : Connective}
    (h : ofToken? token.kind = some connective) : token.Interior := by
  apply Token.interior_of_ne <;> intro hkind <;> rw [hkind] at h <;> cases h

namespace Phrase

mutual

theorem interior_of_mem : (phrase : Phrase) → phrase.Ordered →
    ∀ token ∈ phrase.tokens, token.Interior
  | literal _ _ reads, _ => List.forall_mem_singleton.2 (Literal.interior reads)
  | var name, _ => List.forall_mem_singleton.2 (name.interior (by decide))
  | group opening inner closing, h =>
    List.forall_mem_cons.2 ⟨opening.interior (by decide), List.forall_mem_append.2
      ⟨interior_of_mem inner h, List.forall_mem_singleton.2 (closing.interior (by decide))⟩⟩
  | unary _ _ reads operand, h =>
    List.forall_mem_cons.2 ⟨UnaryOperator.interior reads, interior_of_mem operand h.2⟩
  | infixed left _ _ reads right, h =>
    List.forall_mem_append.2 ⟨interior_of_mem left h.2.2.1, List.forall_mem_cons.2
      ⟨Connective.interior reads, interior_of_mem right h.2.2.2⟩⟩
  | assign target equals value, h =>
    List.forall_mem_cons.2 ⟨target.interior (by decide), List.forall_mem_cons.2
      ⟨equals.interior (by decide), interior_of_mem value h⟩⟩
  | stray target equals value, h =>
    List.forall_mem_append.2 ⟨interior_of_mem target h.2.2.1, List.forall_mem_cons.2
      ⟨equals.interior (by decide), interior_of_mem value h.2.2.2⟩⟩
  | call callee opening arguments inside closing, h => by
    have hinside : ∀ token ∈ inside, token.Interior := by
      intro token hmem
      rcases h.2.2.1.exists_of_mem hmem with ⟨comma, rfl⟩ | ⟨piece, hpiece, htoken⟩
      · exact comma.interior (by decide)
      · exact interior_of_mem_pieces arguments h.2.2.2 piece hpiece token htoken
    exact List.forall_mem_append.2 ⟨List.forall_mem_append.2 ⟨interior_of_mem callee h.2.1,
      List.forall_mem_cons.2 ⟨opening.interior (by decide), hinside⟩⟩,
      List.forall_mem_singleton.2 (closing.interior (by decide))⟩

theorem interior_of_mem_pieces : (phrases : List Phrase) → AllOrdered phrases →
    ∀ piece ∈ pieces phrases, ∀ token ∈ piece, token.Interior
  | [], _ => fun _ hmem => by cases hmem
  | phrase :: rest, h => List.forall_mem_cons.2
      ⟨interior_of_mem phrase h.1, interior_of_mem_pieces rest h.2⟩

end

theorem abandons_of_mem_excess {earlier : Nat} {argument : Phrase} :
    ∀ error ∈ excess earlier argument, error.cause.abandons = false := by
  unfold excess
  split
  · exact List.forall_mem_singleton.2 rfl
  · exact fun _ hmem => by cases hmem

mutual

/-- Reading goes on behind all errors that a phrase leaves behind. -/
theorem abandons_of_mem_errors : (phrase : Phrase) →
    ∀ error ∈ phrase.errors, error.cause.abandons = false
  | literal .. | var _ => fun _ hmem => by cases hmem
  | group _ inner _ => abandons_of_mem_errors inner
  | unary _ _ _ operand => abandons_of_mem_errors operand
  | infixed left _ _ _ right =>
    List.forall_mem_append.2 ⟨abandons_of_mem_errors left, abandons_of_mem_errors right⟩
  | assign _ _ value => abandons_of_mem_errors value
  | stray target _ value => List.forall_mem_append.2 ⟨List.forall_mem_append.2
      ⟨abandons_of_mem_errors target, abandons_of_mem_errors value⟩,
      List.forall_mem_singleton.2 rfl⟩
  | call callee _ arguments _ _ => List.forall_mem_append.2
      ⟨abandons_of_mem_errors callee, abandons_of_mem_argumentErrors arguments 0⟩

theorem abandons_of_mem_argumentErrors : (phrases : List Phrase) → (earlier : Nat) →
    ∀ error ∈ argumentErrors earlier phrases, error.cause.abandons = false
  | [], _ => fun _ hmem => by cases hmem
  | phrase :: rest, earlier => List.forall_mem_append.2 ⟨List.forall_mem_append.2
      ⟨abandons_of_mem_excess, abandons_of_mem_errors phrase⟩,
      abandons_of_mem_argumentErrors rest (earlier + 1)⟩

end

end Phrase

namespace Grammar

/-! ### Beginnings of phrases -/

/-- The tokens are the beginning of a legal phrase. -/
def Viable (place levels : Nat) (front : List Token) : Prop :=
  ∃ phrase : Phrase, phrase.Legal place levels ∧ front <+: phrase.tokens

theorem Viable.loosen {place looser levels : Nat} {front : List Token}
    (h : Viable place levels front) (hle : looser ≤ place) : Viable looser levels front := by
  obtain ⟨phrase, hlegal, hbegins⟩ := h
  exact ⟨phrase, hlegal.loosen hle, hbegins⟩

theorem Viable.of_legal {place levels : Nat} {phrase : Phrase} (h : phrase.Legal place levels) :
    Viable place levels phrase.tokens :=
  ⟨phrase, h, List.prefix_rfl⟩

/-- The tokens are the beginning of one argument or more with commas between them. -/
def ViableArguments (levels : Nat) (front : List Token) : Prop :=
  ∃ (phrases : List Phrase) (inside : List Token), phrases ≠ [] ∧ Phrase.AllLegal levels phrases ∧
    Separated (Phrase.pieces phrases) inside ∧ front <+: inside

/-- Nothing is the beginning of a name. -/
theorem viable_nil (levels : Nat) : Viable 9 (levels + 1) [] :=
  ⟨.var (.plain .identifier "a" 1), ⟨trivial, Nat.le_refl 9, Nat.succ_pos _⟩, List.nil_prefix⟩

section
variable {levels : Nat} {front : List Token}

theorem Viable.group (opening : Mark .leftParen) (h : Viable 0 levels front) :
    Viable 9 (levels + 1) (opening.token :: front) := by
  obtain ⟨phrase, hlegal, hbegins⟩ := h
  refine ⟨.group opening phrase (.plain .rightParen ")" 1),
    ⟨hlegal.ordered, Nat.le_refl 9, Nat.succ_lt_succ hlegal.depth_lt⟩, ?_⟩
  exact (List.prefix_cons_inj _).2 (hbegins.trans (List.prefix_append _ _))

theorem Viable.unary {sign : Token} {operator : UnaryOperator}
    (reads : UnaryOperator.ofToken? sign.kind = some operator) (h : Viable 7 levels front) :
    Viable 7 (levels + 1) (sign :: front) := by
  obtain ⟨phrase, hlegal, hbegins⟩ := h
  exact ⟨.unary sign operator reads phrase,
    ⟨⟨hlegal.place_le, hlegal.ordered⟩, Nat.le_refl 7, Nat.succ_lt_succ hlegal.depth_lt⟩,
    (List.prefix_cons_inj _).2 hbegins⟩

theorem Viable.infixed {left : Phrase} {place : Nat} {sign : Token} {connective : Connective}
    (hleft : left.Legal place levels) (reads : Connective.ofToken? sign.kind = some connective)
    (hplace : connective.place = place) (h : Viable (place + 1) levels front) :
    Viable place levels (left.tokens ++ sign :: front) := by
  obtain ⟨phrase, hlegal, hbegins⟩ := h
  refine ⟨.infixed left sign connective reads phrase, ⟨⟨hplace ▸ hleft.place_le,
    hplace ▸ hlegal.place_le, hleft.ordered, hlegal.ordered⟩, Nat.le_of_eq hplace.symm,
    Nat.max_lt.2 ⟨hleft.depth_lt, hlegal.depth_lt⟩⟩, ?_⟩
  exact (List.prefix_append_right_inj _).2 ((List.prefix_cons_inj _).2 hbegins)

/-- What stands before an `=` need not be a variable for the value to be read. -/
theorem Viable.assigned {target : Phrase} (equals : Mark .equal)
    (htarget : target.Legal 1 (levels + 1)) (h : Viable 0 levels front) :
    Viable 0 (levels + 1) (target.tokens ++ equals.token :: front) := by
  obtain ⟨phrase, hlegal, hbegins⟩ := h
  have htokens : target.tokens ++ equals.token :: front <+:
      target.tokens ++ equals.token :: phrase.tokens :=
    (List.prefix_append_right_inj _).2 ((List.prefix_cons_inj _).2 hbegins)
  have hdepth : phrase.depth + 1 < levels + 1 := Nat.succ_lt_succ hlegal.depth_lt
  cases hvar : target.isVar with
  | false =>
    exact ⟨.stray target equals phrase, ⟨⟨htarget.place_le, hvar, htarget.ordered, hlegal.ordered⟩,
      Nat.zero_le _, Nat.max_lt.2 ⟨htarget.depth_lt, hdepth⟩⟩, htokens⟩
  | true =>
    cases target with
    | var name =>
      exact ⟨.assign name equals phrase, ⟨hlegal.ordered, Nat.zero_le _, hdepth⟩, htokens⟩
    | _ => cases hvar

theorem Viable.call {callee : Phrase} {phrases : List Phrase} {inside : List Token}
    (opening : Mark .leftParen) (hcallee : callee.Legal 8 (levels + 1))
    (hall : Phrase.AllLegal levels phrases) (hseparated : Separated (Phrase.pieces phrases) inside)
    (hbegins : front <+: inside) :
    Viable 8 (levels + 1) (callee.tokens ++ opening.token :: front) := by
  refine ⟨.call callee opening phrases inside (.plain .rightParen ")" 1),
    ⟨⟨hcallee.place_le, hcallee.ordered, hseparated, hall.ordered⟩, Nat.le_refl 8,
      Nat.max_lt.2 ⟨hcallee.depth_lt, Nat.lt_succ_of_le hall.depth_le⟩⟩, ?_⟩
  have htokens : callee.tokens ++ opening.token :: front <+:
      callee.tokens ++ opening.token :: inside :=
    (List.prefix_append_right_inj _).2 ((List.prefix_cons_inj _).2 hbegins)
  exact htokens.trans (List.prefix_append _ _)

theorem Viable.argument (h : Viable 0 levels front) : ViableArguments levels front := by
  obtain ⟨phrase, hlegal, hbegins⟩ := h
  exact ⟨[phrase], phrase.tokens, List.cons_ne_nil _ _, .cons hlegal (.nil levels), .last _, hbegins⟩

theorem ViableArguments.cons {argument : Phrase} (comma : Mark .comma)
    (hargument : argument.Legal 0 levels) (h : ViableArguments levels front) :
    ViableArguments levels (argument.tokens ++ comma.token :: front) := by
  obtain ⟨phrases, inside, hne, hall, hseparated, hbegins⟩ := h
  obtain ⟨next, rest, rfl⟩ := List.exists_cons_of_ne_nil hne
  exact ⟨argument :: next :: rest, _, List.cons_ne_nil _ _, .cons hargument hall,
    .more argument.tokens comma hseparated,
    (List.prefix_append_right_inj _).2 ((List.prefix_cons_inj _).2 hbegins)⟩

end

/-! ### Rejected runs -/

/-- What has been read from one state to another is the beginning of a legal phrase. -/
def Begins (place levels : Nat) (before after : State) : Prop :=
  ∃ front, before.rest = front ++ after.rest ∧ Viable place levels front

theorem Begins.loosen {place looser levels : Nat} {before after : State}
    (h : Begins place levels before after) (hle : looser ≤ place) :
    Begins looser levels before after := by
  obtain ⟨front, hfront, hviable⟩ := h
  exact ⟨front, hfront, hviable.loosen hle⟩

/-- Every run of the rule that is rejected, other than for the depth, has read the beginning of a
legal phrase by then. -/
def FailsWithin (rule : Rule Nat) (place levels : Nat) : Prop :=
  ∀ ⦃before after : State⦄ ⦃error : SyntaxError⦄, rule before = .error (.rejected error) after →
    before.ending.kind = .eof → error.cause ≠ .tooDeep → Begins place levels before after

theorem FailsWithin.loosen {rule : Rule Nat} {place looser levels : Nat}
    (h : FailsWithin rule place levels) (hle : looser ≤ place) : FailsWithin rule looser levels :=
  fun _ _ _ hrun hending hcause => (h hrun hending hcause).loosen hle

/-- Of two rules in a row, either the first fails, or the second behind what the first has read. -/
theorem bind_eq_error {rule : Rule α} {next : α → Rule β} {before after : State}
    {failure : Failure} : (rule >>= next) before = .error failure after ↔
      rule before = .error failure after ∨
        ∃ value between, rule before = .ok value between ∧
          next value between = .error failure after := by
  rw [bind_apply]
  cases rule before <;> simp

theorem expect_eq_rejected {kind : TokenKind} {message : String} {before after : State}
    {error : SyntaxError} (hrun : expect kind message before = .error (.rejected error) after) :
    before = after := by
  rw [expect_apply] at hrun
  split at hrun
  · cases hrun
  · cases hrun
    rfl

variable {levels : Nat} {before after : State} {error : SyntaxError}

/-- Other than in a group, nothing has been read of what should stand alone. -/
theorem primary_eq_rejected {inner : Rule Nat}
    (hrun : primary inner before = .error (.rejected error) after)
    (hahead : before.ahead.kind ≠ .leftParen) : before = after := by
  rw [primary, bind_of_ok (peek_apply before)] at hrun
  cases hkind : before.ahead.kind with
  | leftParen => exact absurd hkind hahead
  | number | string =>
    simp only [hkind] at hrun
    cases hvalue : before.ahead.value <;> simp only [hvalue] at hrun <;> cases hrun
  | keyword word => cases word <;> simp only [hkind] at hrun <;> cases hrun <;> rfl
  | identifier =>
    simp only [hkind] at hrun
    cases hrun
  | _ =>
    simp only [hkind] at hrun
    cases hrun
    rfl

theorem failsWithin_primary {inner : Rule Nat} (hreads : Reads inner 0 levels)
    (hinner : FailsWithin inner 0 levels) : FailsWithin (primary inner) 9 (levels + 1) := by
  intro before after error hrun hending hcause
  by_cases hahead : before.ahead.kind = .leftParen
  case neg =>
    obtain rfl := primary_eq_rejected hrun hahead
    exact ⟨[], rfl, viable_nil levels⟩
  obtain ⟨opening, tail, hrest, hopening⟩ := State.exists_rest_of_ahead hahead hending (by decide)
  rw [primary_of_leftParen hrest hopening] at hrun
  obtain hfail | ⟨index, between, hread, hrun⟩ := bind_eq_error.1 hrun
  · obtain ⟨front, hfront, hviable⟩ := hinner hfail hending hcause
    obtain rfl : tail = front ++ after.rest := hfront
    exact ⟨opening :: front, hrest, hviable.group ⟨opening, hopening⟩⟩
  · obtain ⟨phrase, others, hlegal, hsplit⟩ := hreads hread hending
    obtain rfl : tail = phrase.tokens ++ others := hsplit
    obtain hfail | ⟨_, _, _, hadd⟩ := bind_eq_error.1 hrun
    · obtain rfl := expect_eq_rejected hfail
      exact ⟨opening :: phrase.tokens, hrest, (Viable.of_legal hlegal).group ⟨opening, hopening⟩⟩
    · cases hadd

/-! ### Calls -/

section
variable {argument : Rule Nat} (hreads : Reads argument 0 levels)
  (hargument : FailsWithin argument 0 levels)
include hreads hargument

/-- Round by round, an argument and a comma in front of the arguments of the rounds to come. -/
theorem begins_of_items {budget : List Token} : ∀ {earlier : Array Nat} {before : State},
    items argument .tooManyArguments budget earlier before = .error (.rejected error) after →
    before.ending.kind = .eof → error.cause ≠ .tooDeep →
    ∃ front, before.rest = front ++ after.rest ∧ ViableArguments levels front := by
  have hfirst {earlier : Nat} {before : State}
      (hfail : counted argument .tooManyArguments earlier before = .error (.rejected error) after)
      (hending : before.ending.kind = .eof) (hcause : error.cause ≠ .tooDeep) :
      ∃ front, before.rest = front ++ after.rest ∧ ViableArguments levels front := by
    rw [counted_apply] at hfail
    obtain ⟨front, hfront, hviable⟩ := hargument hfail (by simpa using hending) hcause
    exact ⟨front, by simpa using hfront, hviable.argument⟩
  induction budget with
  | nil =>
    intro earlier before hrun hending hcause
    obtain hfail | ⟨_, _, _, hdone⟩ := bind_eq_error.1 hrun
    · exact hfirst hfail hending hcause
    · cases hdone
  | cons spare budget ih =>
    intro earlier before hrun hending hcause
    obtain hfail | ⟨index, between, hitem, hrun⟩ := bind_eq_error.1 hrun
    · exact hfirst hfail hending hcause
    obtain ⟨phrase, tail, hlegal, hrest, -, rfl⟩ := reads_counted hreads hitem hending
    obtain hfail | ⟨found, closed, hcomma, hrun⟩ := bind_eq_error.1 hrun
    · rw [eat?_apply] at hfail
      split at hfail <;> cases hfail
    obtain ⟨comma, others, rfl, htail, hkind, rfl⟩ | ⟨rfl, -, rfl⟩ :=
      eat?_eq_ok hcomma hending (by decide)
    · obtain ⟨front, hfront, hviable⟩ := ih hrun hending hcause
      obtain rfl : tail = comma :: others := htail
      obtain rfl : others = front ++ after.rest := hfront
      exact ⟨phrase.tokens ++ comma :: front, by simpa using hrest,
        hviable.cons ⟨comma, hkind⟩ hlegal⟩
    · cases hrun

/-- Round by round, what has been read so far becomes the callee of what follows. -/
theorem begins_of_calls {budget : List Token} : ∀ {callee : Nat} {start before : State},
    calls argument budget callee before = .error (.rejected error) after →
    start.ending.kind = .eof → error.cause ≠ .tooDeep →
    Reading 8 (levels + 1) start callee before → Begins 8 (levels + 1) start after := by
  induction budget with
  | nil =>
    intro callee start before hrun
    cases hrun
  | cons spare budget ih =>
    intro callee start before hrun hending hcause hcallee
    have hbefore : before.ending.kind = .eof := hcallee.ending.symm ▸ hending
    by_cases hahead : before.ahead.kind = .leftParen
    case neg =>
      rw [calls_of_other hahead] at hrun
      cases hrun
    obtain ⟨opening, inner, hrest, hopening⟩ :=
      State.exists_rest_of_ahead hahead hbefore (by decide)
    rw [calls_of_leftParen hrest hopening] at hrun
    have hread := hcallee
    obtain ⟨phrase, tail, hlegal, hstart⟩ := hread
    obtain rfl : tail = opening :: inner := hrest
    obtain hfail | ⟨values, between, hinside, hbehind⟩ := bind_eq_error.1 hrun
    · have hopen : ((start.past phrase (opening :: inner)).to inner).ahead.kind ≠ .rightParen := by
        intro hclosed
        rw [commaSeparated_of_closed hclosed] at hfail
        cases hfail
      rw [commaSeparated_of_open hopen] at hfail
      obtain ⟨front, hfront, phrases, inside, -, hall, hseparated, hbegins⟩ :=
        begins_of_items hreads hargument hfail hending hcause
      obtain rfl : inner = front ++ after.rest := hfront
      exact ⟨phrase.tokens ++ opening :: front, by simpa using hstart,
        .call ⟨opening, hopening⟩ hlegal hall hseparated hbegins⟩
    obtain ⟨arguments, inside, others, hall, hseparated, hinner, -, hbetween⟩ :=
      reads_commaSeparated hreads hinside hending
    obtain rfl : inner = inside ++ others := hinner
    obtain hfail | ⟨closing, closed, hclose, hmore⟩ := bind_eq_error.1 hbehind
    · obtain rfl := expect_eq_rejected hfail
      rw [hbetween]
      exact ⟨phrase.tokens ++ opening :: inside, by simpa using hstart,
        .call ⟨opening, hopening⟩ hlegal hall hseparated List.prefix_rfl⟩
    · have hkept : between.ending.kind = .eof := hbetween ▸ hending
      obtain ⟨rest, hsplit, hclosing, rfl⟩ := expect_eq_ok hclose hkept (by decide)
      have hread := hcallee.call hreads hending rfl hopening hinside hsplit hclosing
      exact ih hmore hending hcause hread

theorem failsWithin_call : FailsWithin (call argument) 8 (levels + 1) := by
  intro before after error hrun hending hcause
  obtain hfail | ⟨callee, between, hcallee, hrun⟩ := bind_eq_error.1 hrun
  · exact (failsWithin_primary hreads hargument hfail hending hcause).loosen (by decide)
  · exact begins_of_calls hreads hargument hrun hending hcause
      ((reads_primary hreads hcallee hending).loosen (by decide))

/-! ### Operators and assignments -/

theorem failsWithin_unaryRule {operand : Rule Nat} (hoperand : FailsWithin operand 7 levels) :
    FailsWithin (unaryRule argument operand) 7 (levels + 1) := by
  intro before after error hrun hending hcause
  cases hsign : UnaryOperator.ofToken? before.ahead.kind with
  | none =>
    rw [unaryRule_of_none hsign] at hrun
    exact (failsWithin_call hreads hargument hrun hending hcause).loosen (by decide)
  | some operator =>
    obtain ⟨tail, hrest⟩ := before.exists_rest_eq_cons hending (UnaryOperator.interior hsign).1
    rw [unaryRule_of_some hrest hsign] at hrun
    obtain hfail | ⟨_, _, _, hadd⟩ := bind_eq_error.1 hrun
    · obtain ⟨front, hfront, hviable⟩ := hoperand hfail hending hcause
      obtain rfl : tail = front ++ after.rest := hfront
      exact ⟨before.ahead :: front, hrest, hviable.unary hsign⟩
    · cases hadd

end

section
variable {operator? : TokenKind → Option α} {join : α → (left right line : Nat) → Node}
  {place : Nat} {connective : α → Connective} {operand : Rule Nat}

/-- Round by round, what has been read so far becomes the left operand of what follows. -/
theorem begins_of_links (h : Joins operator? join place connective)
    (hreads : Reads operand (place + 1) levels) (hoperand : FailsWithin operand (place + 1) levels)
    {budget : List Token} : ∀ {left : Nat} {start before : State},
      links operator? join operand budget left before = .error (.rejected error) after →
      start.ending.kind = .eof → error.cause ≠ .tooDeep →
      Reading place levels start left before → Begins place levels start after := by
  induction budget with
  | nil =>
    intro left start before hrun
    cases hrun
  | cons spare budget ih =>
    intro left start before hrun hending hcause hleft
    have hbefore : before.ending.kind = .eof := hleft.ending.symm ▸ hending
    cases hsign : operator? before.ahead.kind with
    | none =>
      rw [links_of_none hsign] at hrun
      cases hrun
    | some operator =>
      obtain ⟨others, hrest⟩ := before.exists_rest_eq_cons hbefore (h.ne_eof hsign)
      generalize before.ahead = sign at hsign hrest
      rw [links_of_some hrest hsign] at hrun
      obtain hfail | ⟨right, between, hright, hrun⟩ := bind_eq_error.1 hrun
      · obtain ⟨hread, hplace⟩ := h.ofToken?_of_some hsign
        obtain ⟨front, hfront, hviable⟩ := hoperand hfail hbefore hcause
        obtain ⟨phrase, tail, hlegal, hstart⟩ := hleft
        obtain rfl : tail = sign :: others := hrest
        obtain rfl : others = front ++ after.rest := hfront
        exact ⟨phrase.tokens ++ sign :: front, by simpa using hstart,
          hviable.infixed hlegal hread hplace⟩
      · exact ih hrun hending hcause
          (hleft.infixed h hrest hsign (hreads hright hbefore))

theorem failsWithin_chain (h : Joins operator? join place connective)
    (hreads : Reads operand (place + 1) levels)
    (hoperand : FailsWithin operand (place + 1) levels) :
    FailsWithin (chain operator? join operand) place levels := by
  intro before after error hrun hending hcause
  obtain hfail | ⟨left, between, hleft, hrun⟩ := bind_eq_error.1 hrun
  · exact (hoperand hfail hending hcause).loosen (Nat.le_succ place)
  · exact begins_of_links h hreads hoperand hrun hending hcause
      ((hreads hleft hending).loosen (Nat.le_succ place))

end

theorem failsWithin_operation {unary : Rule Nat} (hreads : Reads unary 7 levels)
    (hunary : FailsWithin unary 7 levels) : FailsWithin (operation unary) 1 levels := by
  have hlevel {operand : Rule Nat} (level : Precedence)
      (h : Reads operand (level.place + 1) levels ∧ FailsWithin operand (level.place + 1) levels) :
      Reads (binary level operand) level.place levels ∧
        FailsWithin (binary level operand) level.place levels :=
    ⟨reads_chain (joins_binary level) h.1, failsWithin_chain (joins_binary level) h.1 h.2⟩
  have hequality := hlevel .equality (hlevel .comparison (hlevel .sum (hlevel .product
    ⟨hreads, hunary⟩)))
  have hand := reads_chain (joins_logical .and) hequality.1
  exact failsWithin_chain (joins_logical .or) hand
    (failsWithin_chain (joins_logical .and) hequality.1 hequality.2)

theorem failsWithin_assignmentRule {unary value : Rule Nat}
    (hreads : Reads unary 7 (levels + 1)) (hunary : FailsWithin unary 7 (levels + 1))
    (hvalue : FailsWithin value 0 levels) :
    FailsWithin (assignmentRule unary value) 0 (levels + 1) := by
  intro before after error hrun hending hcause
  cases hoperation : operation unary before with
  | error failure between =>
    rw [assignmentRule, bind_apply, hoperation] at hrun
    cases hrun
    exact (failsWithin_operation hreads hunary hoperation hending hcause).loosen (by decide)
  | ok target between =>
    obtain ⟨phrase, tail, hlegal, hrest⟩ := reads_operation hreads hoperation hending
    by_cases hequal : (before.past phrase tail).ahead.kind = .equal
    case neg =>
      rw [assignmentRule_of_other hoperation hequal] at hrun
      cases hrun
    obtain ⟨equals, others, htail, hequal⟩ := State.exists_rest_of_ahead hequal hending (by decide)
    rw [assignmentRule_of_equal hoperation htail hequal] at hrun
    obtain hfail | ⟨index, final, -, hrun⟩ := bind_eq_error.1 hrun
    · obtain ⟨front, hfront, hviable⟩ := hvalue hfail hending hcause
      obtain rfl : tail = equals :: others := htail
      obtain rfl : others = front ++ after.rest := hfront
      exact ⟨phrase.tokens ++ equals :: front, by simpa using hrest,
        hviable.assigned ⟨equals, hequal⟩ hlegal⟩
    · rw [bind_of_ok (get_apply final)] at hrun
      generalize final.nodes[(phrase.lay before.nodes).root]? = node at hrun
      cases node with
      | none => cases hrun
      | some node => cases node <;> cases hrun

/-! ### Levels -/

theorem FailsWithin.nested {rule : Rule Nat} {place : Nat} (h : FailsWithin rule place levels) :
    FailsWithin (nested rule) place levels := by
  intro before after error hrun hending hcause
  rw [Grammar.nested] at hrun
  split at hrun
  case isTrue =>
    cases hrun
    exact absurd rfl hcause
  case isFalse =>
    split at hrun
    case h_1 => cases hrun
    case h_2 failure inner heq =>
      cases hrun
      obtain ⟨front, hfront, hviable⟩ := h heq hending hcause
      exact ⟨front, hfront, hviable⟩

/-- The knot: where no level is free, the rules are rejected for the depth alone. -/
theorem failsWithin_levels (levels : Nat) :
    FailsWithin (assignment levels) 0 levels ∧ FailsWithin (unary levels) 7 levels := by
  induction levels with
  | zero =>
    refine ⟨?_, ?_⟩ <;>
    · intro before after error hrun _ hcause
      cases hrun
      exact absurd rfl hcause
  | succ levels ih =>
    obtain ⟨hassignment, hunary⟩ := ih
    obtain ⟨hreadsAssignment, hreadsUnary⟩ := reads_levels levels
    have hrule := failsWithin_unaryRule hreadsAssignment hassignment hunary
    have hreadsRule := reads_unaryRule hreadsAssignment hreadsUnary
    exact ⟨(failsWithin_assignmentRule hreadsRule hrule hassignment).nested, hrule.nested⟩

theorem begins_of_expression (hrun : expression levels before = .error (.rejected error) after)
    (hending : before.ending.kind = .eof) (hcause : error.cause ≠ .tooDeep) :
    Begins 0 levels before after := by
  rw [expression, building] at hrun
  split at hrun
  case h_1 => cases hrun
  case h_2 failure inner heq =>
    cases hrun
    obtain ⟨front, hfront, hviable⟩ := (failsWithin_levels levels).1 heq hending hcause
    exact ⟨front, hfront, hviable⟩

/-- What is left behind a whole expression might not have been there. -/
theorem begins_of_onlyExpression (hrun : onlyExpression before = .error (.rejected error) after)
    (hending : before.ending.kind = .eof) (hcause : error.cause ≠ .tooDeep) :
    Begins 0 maxNesting before after := by
  obtain hfail | ⟨parsed, between, hread, hrun⟩ := bind_eq_error.1 hrun
  · exact begins_of_expression hfail hending hcause
  obtain ⟨phrase, tail, hlegal, hrest, -, rfl⟩ := expression_eq_ok hread hending
  obtain hfail | ⟨_, _, _, hdone⟩ := bind_eq_error.1 hrun
  · obtain rfl := expect_eq_rejected hfail
    exact ⟨phrase.tokens, hrest, .of_legal hlegal⟩
  · cases hdone

theorem nearsighted_onlyExpression {x : Exchange} : x.Nearsighted onlyExpression :=
  (x.nearsighted_expression maxNesting).bind fun _ =>
    (Exchange.nearsighted_expect _ _).bind fun _ => Exchange.nearsighted_pure _

theorem failsAhead_onlyExpression : FailsAhead onlyExpression :=
  (hereditary_failsAhead.expression maxNesting).bind fun _ =>
    (failsAhead_expect _ _).bind fun _ => hereditary_failsAhead.pure _

/-- A run that is rejected at a token is rejected there whatever stands behind the token. -/
theorem onlyExpression_of_front {front : List Token} {ending : Token} (hending : ending.kind = .eof)
    (hopen : ∀ token ∈ front ++ after.rest, token.kind ≠ .eof)
    (hrun : onlyExpression { rest := front ++ after.rest, ending } = .error (.rejected error) after)
    (more : List Token) : ∃ final,
      onlyExpression (.ofTokens (front ++ after.ahead :: more)) =
        .error (.rejected error) final := by
  obtain ⟨hfront, hbehind⟩ := List.forall_mem_append.1 hopen
  rw [State.ofTokens_append_others hfront (List.cons_ne_nil _ _)]
  cases hrest : after.rest with
  | nil =>
    -- Behind the end nothing is read.
    have hahead : after.ahead = ending := by
      rw [State.ahead, hrest, (failsAhead_onlyExpression.steady.of_error hrun).ending]
      rfl
    have hstate : State.ofTokens (ending :: more) = { rest := [], ending } := by
      simp [State.ofTokens, Token.isEnd, hending]
    rw [hrest] at hrun
    exact ⟨after, by rw [hahead, hstate, hrun]⟩
  | cons token tail =>
    have hkind : token.kind ≠ .eof := hbehind token (hrest ▸ List.mem_cons_self)
    let x : Exchange := ⟨tail, more.takeWhile (!·.isEnd), (State.ofTokens (token :: more)).ending,
      State.ending_kind_ofTokens _⟩
    have hbefore : (x.state { rest := front ++ after.rest, ending }).rest =
        (front ++ [token]) ++ x.other := Exchange.rest_state (front ++ [token]) (by simp [hrest, x])
    have hstate : { State.ofTokens (token :: more) with
        rest := front ++ (State.ofTokens (token :: more)).rest } =
          x.state { rest := front ++ after.rest, ending } := by
      have hstart : (State.ofTokens (token :: more)).rest = token :: x.other := by
        simp [State.ofTokens, Token.isEnd, hkind, x]
      rw [hstart, List.append_cons, ← hbefore]
      rfl
    have hagree : x.Agree onlyExpression onlyExpression { rest := front ++ after.rest, ending } :=
      nearsighted_onlyExpression.agree hending
    rw [Exchange.Agree, endState, hrun] at hagree
    refine ⟨x.state after, ?_⟩
    rw [State.ahead_of_rest hrest, hstate]
    exact hagree ⟨token, [], hrest⟩

end Grammar

open Grammar

namespace Expression

/-- The tokens are read as an expression, except for faults behind which reading goes on. -/
def Acceptable (tokens : List Token) : Prop :=
  (∃ parsed, ofTokens tokens = .ok (.ok parsed)) ∨
    ∃ errors, ofTokens tokens = .ok (.error errors) ∧ ∀ error ∈ errors, error.cause.abandons = false

theorem acceptable_of_legal {phrase : Phrase} {ending : Token}
    (hlegal : phrase.Legal 0 maxNesting) (hending : ending.kind = .eof) :
    Acceptable (phrase.tokens ++ [ending]) := by
  have hopen : ∀ token ∈ phrase.tokens, token.kind ≠ .eof :=
    fun token hmem => (phrase.interior_of_mem hlegal.ordered token hmem).1
  have hread : expression maxNesting { rest := phrase.tokens, ending } = .ok phrase.expression
      { rest := [], ending, errors := #[] ++ phrase.errors.toArray } :=
    expression_of_phrase (Nat.le_of_eq (Nat.zero_add _)) hlegal (List.append_nil _).symm
      (.of_none 0 (by rw [List.headD_nil, hending]; rfl))
  have hrun : ofTokens (phrase.tokens ++ [ending]) = .ok (if phrase.errors.toArray.isEmpty
      then .ok phrase.expression else .error phrase.errors) := by
    rw [ofTokens, State.ofTokens_append hending hopen, onlyExpression, bind_of_ok hread]
    simp [bind_apply, expect_apply, hending, pure_apply, State.ahead]
  rw [Acceptable, hrun]
  split
  · exact .inl ⟨_, rfl⟩
  · exact .inr ⟨_, rfl, phrase.abandons_of_mem_errors⟩

theorem ofTokens_of_rejected {tokens : List Token} {after : State} {error : SyntaxError}
    (h : onlyExpression (.ofTokens tokens) = .error (.rejected error) after) :
    ofTokens tokens = .ok (.error (after.errors.push error).toList) := by
  rw [ofTokens, h]

/-- The error that abandons the expression is the last one, and the run is rejected for it. -/
theorem rejected_of_ofTokens {tokens : List Token} {errors : List SyntaxError} {error : SyntaxError}
    (hrun : ofTokens tokens = .ok (.error errors)) (hlast : errors.getLast? = some error)
    (hcause : error.cause.abandons = true) : ∃ after,
      onlyExpression (.ofTokens tokens) = .error (.rejected error) after ∧
        errors = (after.errors.push error).toList := by
  have hending := State.ending_kind_ofTokens tokens
  unfold ofTokens at hrun
  split at hrun
  case h_1 parsed after heq =>
    obtain ⟨first, between, hread, hrest⟩ := bind_eq_ok.1 heq
    obtain ⟨last, closed, hclose, hdone⟩ := bind_eq_ok.1 hrest
    cases hdone
    obtain ⟨-, -, rfl⟩ := expect_eq_ok_iff.1 hclose
    obtain ⟨phrase, tail, -, -, -, rfl⟩ := expression_eq_ok hread hending
    split at hrun
    · cases hrun
    · cases hrun
      have hmem : error ∈ phrase.errors := by
        simpa [State.ofTokens] using List.mem_of_getLast? hlast
      exact absurd hcause (by simp [phrase.abandons_of_mem_errors error hmem])
  case h_2 rejected after heq =>
    cases hrun
    obtain rfl : rejected = error := by simpa using hlast
    exact ⟨after, heq, rfl⟩
  case h_3 => cases hrun

theorem not_acceptable_of_rejected {tokens : List Token} {after : State} {error : SyntaxError}
    (h : onlyExpression (.ofTokens tokens) = .error (.rejected error) after)
    (hcause : error.cause.abandons = true) : ¬ Acceptable tokens := by
  rw [Acceptable, ofTokens_of_rejected h]
  rintro (⟨parsed, hparsed⟩ | ⟨errors, herrors, hsound⟩)
  · cases hparsed
  · cases herrors
    exact absurd (hsound error (by simp)) (by simp [hcause])

end Expression

open Expression

/-- The last error stands at the first token that cannot go on. Where a list of tokens is not read
as an expression, and not for its depth, what is in front of the token at which the run was rejected
is the beginning of tokens that are read as one, and together with that token it is not. -/
theorem rejected_at_dead_end {tokens : List Token} {ending : Token} {errors : List SyntaxError}
    {error : SyntaxError} (hending : ending.kind = .eof)
    (hinterior : ∀ token ∈ tokens, token.Interior)
    (hrun : Expression.ofTokens (tokens ++ [ending]) = .ok (.error errors))
    (hlast : errors.getLast? = some error)
    (hcause : (∃ expected message, error.cause = .unexpected expected message) ∨
      error.cause = .notExpression) :
    ∃ (index : Nat) (after : State),
      onlyExpression (.ofTokens (tokens ++ [ending])) = .error (.rejected error) after ∧
      (tokens ++ [ending]).drop index = after.rest ++ [ending] ∧
      (tokens ++ [ending])[index]? = some error.token ∧
      (∃ others, (∀ token ∈ others, token.Interior) ∧
        Acceptable ((tokens ++ [ending]).take index ++ others ++ [ending])) ∧
      ∀ more, ¬ Acceptable ((tokens ++ [ending]).take index ++ error.token :: more) := by
  have habandons : error.cause.abandons = true := by
    obtain ⟨expected, message, hcause⟩ | hcause := hcause <;> rw [hcause] <;> rfl
  have hdepth : error.cause ≠ .tooDeep := by
    obtain ⟨expected, message, hcause⟩ | hcause := hcause <;> rw [hcause] <;> exact nofun
  obtain ⟨after, hreject, -⟩ := rejected_of_ofTokens hrun hlast habandons
  have hopen : ∀ token ∈ tokens, token.kind ≠ .eof := fun token hmem => (hinterior token hmem).1
  have hbefore : State.ofTokens (tokens ++ [ending]) = { rest := tokens, ending } :=
    State.ofTokens_append hending hopen
  have hstopped := hreject
  rw [hbefore] at hstopped
  have hvalued : State.Valued { rest := tokens, ending } :=
    ⟨fun token hmem => (hinterior token hmem).2, hending⟩
  obtain ⟨cause, -, hahead⟩ := failsAhead_onlyExpression.failure_eq hvalued hstopped
  obtain rfl : error = ⟨cause, after.ahead⟩ := by simpa using hahead
  have hkept : after.ending = ending := (failsAhead_onlyExpression.steady.of_error hstopped).ending
  obtain ⟨front, hfront, phrase, hlegal, others, hphrase⟩ :=
    begins_of_onlyExpression hstopped hending hdepth
  obtain rfl : tokens = front ++ after.rest := hfront
  have htake : (front ++ after.rest ++ [ending]).take front.length = front := by simp
  refine ⟨front.length, after, hreject, by simp, ?_, ⟨others, ?_, ?_⟩, fun more => ?_⟩
  · rw [List.append_assoc, List.getElem?_append_right (Nat.le_refl _), Nat.sub_self]
    cases hrest : after.rest <;> simp [State.ahead, hrest, hkept]
  · exact fun token hmem => phrase.interior_of_mem hlegal.ordered token
      (hphrase ▸ List.mem_append_right front hmem)
  · rw [htake, hphrase]
    exact acceptable_of_legal hlegal hending
  · rw [htake]
    obtain ⟨final, hagain⟩ := onlyExpression_of_front hending hopen hstopped more
    exact not_acceptable_of_rejected hagain habandons

/-- The tokens of `( a b )`. -/
private def crowded : List Token :=
  [(Mark.plain .leftParen "(" 1).token, (Mark.plain .identifier "a" 1).token,
    (Mark.plain .identifier "b" 1).token, (Mark.plain .rightParen ")" 1).token]

/-- The group could have been closed behind the first of the two names. -/
theorem rejected_at_dead_end_crowded : ∃ error : SyntaxError,
    (Token.atEnd 0 1).kind = .eof ∧ (∀ token ∈ crowded, token.Interior) ∧
      Expression.ofTokens (crowded ++ [Token.atEnd 0 1]) = .ok (.error [error]) ∧
      (∃ expected message, error.cause = .unexpected expected message) ∧
      ∃ index : Nat, (crowded ++ [Token.atEnd 0 1])[index]? = some error.token ∧
        (∃ others, Acceptable
          ((crowded ++ [Token.atEnd 0 1]).take index ++ others ++ [Token.atEnd 0 1])) ∧
        ∀ more, ¬ Acceptable ((crowded ++ [Token.atEnd 0 1]).take index ++ error.token :: more) := by
  have hinterior : ∀ token ∈ crowded, token.Interior := by decide
  have hrun : Expression.ofTokens (crowded ++ [Token.atEnd 0 1]) = .ok (.error
      [⟨.unexpected .rightParen "Expect ')' after expression.",
        (Mark.plain .identifier "b" 1).token⟩]) := rfl
  obtain ⟨index, -, -, -, htoken, ⟨others, -, hviable⟩, hdead⟩ :=
    rejected_at_dead_end rfl hinterior hrun rfl (.inl ⟨_, _, rfl⟩)
  exact ⟨_, rfl, hinterior, hrun, ⟨_, _, rfl⟩, index, htoken, ⟨others, hviable⟩, hdead⟩

end Lox
