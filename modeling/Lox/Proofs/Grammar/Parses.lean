import Lox.Proofs.Grammar.Extent
import Lox.Proofs.Grammar.Inverse
import Lox.Proofs.Syntax.Derivation

/-!
# Rules as relations

A run that records no error only moves forward in the tokens, so all there is to say about it is
which tokens it reads for which value, and in front of which token it stops. `Parses` says that a
rule has exactly such runs: each run without an error is one of them, and wherever the tokens begin
that way the rule runs so. Each combinator of rules has its counterpart among these relations.
-/

namespace Lox.Grammar

variable {α β : Type}

/-- Which tokens are read for a value, and the token ahead of which reading stops. -/
abbrev Shape (α : Type) := α → List Token → Token → Prop

/-- The state of a parser inside of function bodies or not, with so many levels open. -/
structure State.Inside (inBody : Bool) (nesting : Nat) (state : State) : Prop where
  ending_kind : state.ending.kind = .eof
  nesting_eq : state.nesting = nesting
  inBody_iff : inBody = true ↔ 0 < state.functionDepth

theorem State.Inside.to {inBody : Bool} {nesting : Nat} {state : State}
    (h : state.Inside inBody nesting) (tail : List Token) : (state.to tail).Inside inBody nesting :=
  ⟨h.ending_kind, h.nesting_eq, h.inBody_iff⟩

/-- The runs of the rule without an error are exactly those of the shape. -/
structure Parses (inBody : Bool) (nesting : Nat) (rule : Rule α) (shape : Shape α) : Prop where
  steady : Steady rule
  sound : ∀ {before after : State} {value : α}, rule before = .ok value after →
    before.Inside inBody nesting → after.errors = before.errors →
    ∃ tokens tail, shape value tokens (tail.headD before.ending) ∧
      before.rest = tokens ++ tail ∧ after = before.to tail
  complete : ∀ {before : State} {value : α} {tokens tail : List Token},
    before.Inside inBody nesting → before.rest = tokens ++ tail →
    shape value tokens (tail.headD before.ending) → rule before = .ok value (before.to tail)

variable {inBody : Bool} {nesting : Nat}

theorem Parses.congr {rule : Rule α} {shape other : Shape α} (h : Parses inBody nesting rule shape)
    (hiff : ∀ value tokens ahead, shape value tokens ahead ↔ other value tokens ahead) :
    Parses inBody nesting rule other where
  steady := h.steady
  sound hrun hinside hclean := by
    obtain ⟨tokens, tail, hshape, hrest⟩ := h.sound hrun hinside hclean
    exact ⟨tokens, tail, (hiff _ _ _).1 hshape, hrest⟩
  complete hinside hrest hshape := h.complete hinside hrest ((hiff _ _ _).2 hshape)

theorem parses_pure (value : α) :
    Parses inBody nesting (pure value) fun result tokens _ => result = value ∧ tokens = [] where
  steady := steady_pure value
  sound {before _ _} hrun _ _ := by
    cases hrun
    exact ⟨[], before.rest, ⟨rfl, rfl⟩, rfl, rfl⟩
  complete {before _ _ _} _ hrest hshape := by
    obtain ⟨rfl, rfl⟩ := hshape
    rw [List.nil_append] at hrest
    rw [pure_apply, ← hrest, State.to_rest]

theorem parses_reject (cause : SyntaxError.Cause) :
    Parses inBody nesting (reject cause : Rule α) fun _ _ _ => False where
  steady := steady_reject cause
  sound hrun := by cases hrun
  complete _ _ hshape := hshape.elim

theorem Parses.bind {rule : Rule α} {next : α → Rule β} {shape : Shape α} {rest : α → Shape β}
    (first : Parses inBody nesting rule shape)
    (second : ∀ value, Parses inBody nesting (next value) (rest value)) :
    Parses inBody nesting (rule >>= next) fun value tokens ahead =>
      ∃ middle initial final, tokens = initial ++ final ∧
        shape middle initial (final.headD ahead) ∧ rest middle value final ahead where
  steady := first.steady.bind fun value => (second value).steady
  sound {before after value} hrun hinside hclean := by
    obtain ⟨middle, between, hfirst, hsecond⟩ := bind_eq_ok.1 hrun
    obtain ⟨hbetween, hafter⟩ := (first.steady.of_ok hfirst).errors_eq
      ((second middle).steady.of_ok hsecond) hclean
    obtain ⟨initial, tail, hshape, hrest, rfl⟩ := first.sound hfirst hinside hbetween
    obtain ⟨final, last, hnext, htail, rfl⟩ := (second middle).sound hsecond (hinside.to tail) hafter
    obtain rfl : tail = final ++ last := htail
    refine ⟨initial ++ final, last, ⟨middle, initial, final, rfl, ?_, hnext⟩, ?_, rfl⟩
    · cases final <;> exact hshape
    · rw [hrest, List.append_assoc]
  complete {before value tokens tail} hinside hrest hshape := by
    obtain ⟨middle, initial, final, rfl, hfirst, hnext⟩ := hshape
    rw [List.append_assoc] at hrest
    have hinitial : shape middle initial ((final ++ tail).headD before.ending) := by
      cases final <;> exact hfirst
    rw [bind_of_ok (first.complete hinside hrest hinitial)]
    exact (second middle).complete (hinside.to _) rfl hnext

theorem Parses.map {rule : Rule α} {shape : Shape α} (h : Parses inBody nesting rule shape)
    (f : α → β) : Parses inBody nesting (f <$> rule) fun value tokens ahead =>
      ∃ first, shape first tokens ahead ∧ f first = value where
  steady := h.steady.map f
  sound hrun hinside hclean := by
    obtain ⟨first, hfirst, rfl⟩ := map_eq_ok.1 hrun
    obtain ⟨tokens, tail, hshape, hrest⟩ := h.sound hfirst hinside hclean
    exact ⟨tokens, tail, ⟨first, hshape, rfl⟩, hrest⟩
  complete hinside hrest hshape := by
    obtain ⟨first, hfirst, rfl⟩ := hshape
    exact map_eq_ok.2 ⟨first, h.complete hinside hrest hfirst, rfl⟩

theorem parses_expect {kind : TokenKind} (hkind : kind ≠ .eof) (message : String) :
    Parses inBody nesting (expect kind message) fun token tokens _ =>
      ∃ mark : Mark kind, token = mark.token ∧ tokens = [mark.token] where
  steady := steady_expect kind message
  sound hrun hinside _ := by
    obtain ⟨tail, hrest, htoken, rfl⟩ := expect_eq_ok hrun hinside.ending_kind hkind
    exact ⟨[_], tail, ⟨⟨_, htoken⟩, rfl, rfl⟩, hrest, rfl⟩
  complete _ hrest hshape := by
    obtain ⟨mark, rfl, rfl⟩ := hshape
    exact expect_of_rest hrest mark.isKind

theorem parses_eat? {kind : TokenKind} (hkind : kind ≠ .eof) :
    Parses inBody nesting (eat? kind) fun found tokens ahead =>
      (∃ mark : Mark kind, found = some mark.token ∧ tokens = [mark.token]) ∨
        found = none ∧ ahead.kind ≠ kind ∧ tokens = [] where
  steady := steady_eat? kind
  sound {before _ _} hrun hinside _ := by
    obtain ⟨token, tail, rfl, hrest, htoken, rfl⟩ | ⟨rfl, hahead, rfl⟩ :=
      eat?_eq_ok hrun hinside.ending_kind hkind
    · exact ⟨[token], tail, .inl ⟨⟨token, htoken⟩, rfl, rfl⟩, hrest, rfl⟩
    · exact ⟨[], _, .inr ⟨rfl, hahead, rfl⟩, rfl, rfl⟩
  complete {before _ _ tail} _ hrest hshape := by
    rw [eat?_apply]
    obtain ⟨mark, rfl, rfl⟩ | ⟨rfl, hahead, rfl⟩ := hshape
    · rw [State.ahead_of_rest hrest, if_pos mark.isKind, hrest]
      rfl
    · obtain rfl : before.rest = tail := hrest
      rw [if_neg (show before.ahead.kind ≠ kind from hahead), State.to_rest]

theorem Parses.afterExpect {kind : TokenKind} {message : String} {next : Token → Rule β}
    {rest : Token → Shape β} (hkind : kind ≠ .eof)
    (h : ∀ token, Parses inBody nesting (next token) (rest token)) :
    Parses inBody nesting (expect kind message >>= next) fun value tokens ahead =>
      ∃ (mark : Mark kind) (final : List Token), tokens = mark.token :: final ∧
        rest mark.token value final ahead := by
  refine ((parses_expect hkind message).bind h).congr fun value tokens ahead => ⟨?_, ?_⟩
  · rintro ⟨_, _, final, rfl, ⟨mark, rfl, rfl⟩, hrest⟩
    exact ⟨mark, final, rfl, hrest⟩
  · rintro ⟨mark, final, rfl, hrest⟩
    exact ⟨_, _, final, rfl, ⟨mark, rfl, rfl⟩, hrest⟩

theorem Parses.afterEat? {kind : TokenKind} {next : Option Token → Rule β}
    {found : Token → Shape β} {missing : Shape β} (hkind : kind ≠ .eof)
    (hfound : ∀ token, Parses inBody nesting (next (some token)) (found token))
    (hmissing : Parses inBody nesting (next none) missing) :
    Parses inBody nesting (eat? kind >>= next) fun value tokens ahead =>
      (∃ (mark : Mark kind) (final : List Token), tokens = mark.token :: final ∧
          found mark.token value final ahead) ∨
        (tokens.headD ahead).kind ≠ kind ∧ missing value tokens ahead := by
  have hnext (middle : Option Token) : Parses inBody nesting (next middle) fun value tokens ahead =>
      (∃ token, middle = some token ∧ found token value tokens ahead) ∨
        middle = none ∧ missing value tokens ahead := by
    cases middle with
    | none => exact hmissing.congr fun value tokens ahead => by simp
    | some token => exact (hfound token).congr fun value tokens ahead => by simp
  refine ((parses_eat? hkind).bind hnext).congr fun value tokens ahead => ⟨?_, ?_⟩
  · rintro ⟨_, _, final, rfl, ⟨mark, rfl, rfl⟩ | ⟨rfl, hahead, rfl⟩, hrest⟩
    · obtain ⟨token, htoken, hrest⟩ | ⟨hnone, -⟩ := hrest
      · cases htoken
        exact .inl ⟨mark, final, rfl, hrest⟩
      · cases hnone
    · obtain ⟨token, htoken, -⟩ | ⟨-, hrest⟩ := hrest
      · cases htoken
      · exact .inr ⟨hahead, hrest⟩
  · rintro (⟨mark, final, rfl, hrest⟩ | ⟨hahead, hrest⟩)
    · exact ⟨_, _, final, rfl, .inl ⟨mark, rfl, rfl⟩, .inl ⟨_, rfl, hrest⟩⟩
    · exact ⟨_, [], tokens, rfl, .inr ⟨rfl, hahead, rfl⟩, .inr ⟨rfl, hrest⟩⟩

theorem Parses.afterPure {first : α} {next : α → Rule β} {shape : Shape β}
    (h : Parses inBody nesting (next first) shape) :
    Parses inBody nesting (pure first >>= next) shape := h

theorem parses_check (kind : TokenKind) :
    Parses inBody nesting (check kind) fun found tokens ahead =>
      found = (ahead.kind == kind) ∧ tokens = [] where
  steady := steady_check kind
  sound {before _ _} hrun _ _ := by
    cases hrun
    exact ⟨[], before.rest, ⟨rfl, rfl⟩, rfl, rfl⟩
  complete {before _ _ tail} _ hrest hshape := by
    obtain ⟨rfl, rfl⟩ := hshape
    obtain rfl : before.rest = tail := hrest
    rfl

theorem Parses.afterCheck {kind : TokenKind} {next : Bool → Rule β} {present absent : Shape β}
    (htrue : Parses inBody nesting (next true) present)
    (hfalse : Parses inBody nesting (next false) absent) :
    Parses inBody nesting (check kind >>= next) fun value tokens ahead =>
      (tokens.headD ahead).kind = kind ∧ present value tokens ahead ∨
        (tokens.headD ahead).kind ≠ kind ∧ absent value tokens ahead := by
  have hnext (found : Bool) : Parses inBody nesting (next found) fun value tokens ahead =>
      found = true ∧ present value tokens ahead ∨ found = false ∧ absent value tokens ahead := by
    cases found with
    | true => exact htrue.congr fun value tokens ahead => by simp
    | false => exact hfalse.congr fun value tokens ahead => by simp
  refine ((parses_check kind).bind hnext).congr fun value tokens ahead => ⟨?_, ?_⟩
  · rintro ⟨_, _, final, rfl, ⟨rfl, rfl⟩, ⟨hahead, hrest⟩ | ⟨hahead, hrest⟩⟩
    · exact .inl ⟨by simpa using hahead, hrest⟩
    · exact .inr ⟨by simpa using hahead, hrest⟩
  · rintro (⟨hahead, hrest⟩ | ⟨hahead, hrest⟩)
    · exact ⟨_, [], tokens, rfl, ⟨rfl, rfl⟩, .inl ⟨by simpa using hahead, hrest⟩⟩
    · exact ⟨_, [], tokens, rfl, ⟨rfl, rfl⟩, .inr ⟨by simpa using hahead, hrest⟩⟩

/-- What is reported outside of functions is no error only inside of them. -/
theorem Parses.afterReport {cause : SyntaxError.Cause} {token : Token} {next : Rule β}
    {shape : Shape β} (h : Parses inBody nesting next shape) :
    Parses inBody nesting
      (do
        if (← get).functionDepth = 0 then report cause token
        next)
      fun value tokens ahead => inBody = true ∧ shape value tokens ahead where
  steady := by
    refine steady_get.bind fun state => ?_
    split
    · exact (steady_report _ _).bind fun _ => h.steady
    · exact h.steady
  sound {before after value} hrun hinside hclean := by
    rw [bind_of_ok (get_apply before)] at hrun
    by_cases hdepth : before.functionDepth = 0
    · rw [if_pos hdepth, bind_of_ok (report_apply ..)] at hrun
      have hlength := (h.steady.of_ok hrun).errors.length_le
      simp only [hclean, Array.toList_push, List.length_append, List.length_cons] at hlength
      omega
    · rw [if_neg hdepth] at hrun
      obtain ⟨tokens, tail, hshape, hrest⟩ := h.sound hrun hinside hclean
      exact ⟨tokens, tail, ⟨hinside.inBody_iff.2 (Nat.pos_of_ne_zero hdepth), hshape⟩, hrest⟩
  complete {before _ _ _} hinside hrest hshape := by
    obtain ⟨hbody, hshape⟩ := hshape
    rw [bind_of_ok (get_apply before), if_neg (Nat.ne_of_gt (hinside.inBody_iff.1 hbody))]
    exact h.complete hinside hrest hshape

theorem Parses.nested {rule : Rule α} {shape : Shape α}
    (h : Parses inBody (nesting + 1) rule shape) (hroom : nesting < maxNesting) :
    Parses inBody nesting (nested rule) shape where
  steady := h.steady.nested
  sound {before _ _} hrun hinside hclean := by
    obtain ⟨inner, hinner, rfl⟩ := nested_eq_ok hrun
    obtain ⟨tokens, tail, hshape, hrest, rfl⟩ :=
      h.sound hinner ⟨hinside.ending_kind, by rw [hinside.nesting_eq], hinside.inBody_iff⟩ hclean
    exact ⟨tokens, tail, hshape, hrest, rfl⟩
  complete {before _ _ _} hinside hrest hshape := by
    have hdeeper : State.Inside inBody (nesting + 1) { before with nesting := before.nesting + 1 } :=
      ⟨hinside.ending_kind, by rw [hinside.nesting_eq], hinside.inBody_iff⟩
    exact nested_of_ok (hinside.nesting_eq ▸ hroom) (h.complete hdeeper hrest hshape)

theorem Parses.inFunction {rule : Rule α} {shape : Shape α} (h : Parses true nesting rule shape) :
    Parses inBody nesting (inFunction rule) shape where
  steady := h.steady.inFunction
  sound {before after value} hrun hinside hclean := by
    rw [Grammar.inFunction] at hrun
    split at hrun
    case h_2 => cases hrun
    case h_1 inner hinner =>
      cases hrun
      obtain ⟨tokens, tail, hshape, hrest, rfl⟩ := h.sound hinner
        ⟨hinside.ending_kind, hinside.nesting_eq, by simp⟩ hclean
      exact ⟨tokens, tail, hshape, hrest, rfl⟩
  complete {before _ _ _} hinside hrest hshape := by
    have hdeeper : State.Inside true nesting
        { before with functionDepth := before.functionDepth + 1 } :=
      ⟨hinside.ending_kind, hinside.nesting_eq, by simp⟩
    rw [Grammar.inFunction, h.complete hdeeper hrest hshape]
    rfl

theorem Parses.recovering {rule : Rule α} {shape : Shape α} (h : Parses inBody nesting rule shape) :
    Parses inBody nesting (recovering rule) fun found tokens ahead =>
      ∃ value, found = some value ∧ shape value tokens ahead where
  steady := h.steady.recovering
  sound {before after value} hrun hinside hclean := by
    rw [Grammar.recovering] at hrun
    split at hrun
    case h_1 value inner hinner =>
      cases hrun
      obtain ⟨tokens, tail, hshape, hrest, rfl⟩ := h.sound hinner hinside hclean
      exact ⟨tokens, tail, ⟨value, rfl, hshape⟩, hrest, rfl⟩
    case h_2 error inner hinner =>
      cases hrun
      have hlength := (h.steady.of_error hinner).errors.length_le
      simp only [← hclean, Array.toList_push, List.length_append, List.length_cons] at hlength
      omega
    case h_3 => cases hrun
  complete hinside hrest hshape := by
    obtain ⟨value, rfl, hvalue⟩ := hshape
    rw [Grammar.recovering, h.complete hinside hrest hvalue]

/-- A tree in writing, in front of a token that does not go on with it. -/
def Shape.expression (levels : Nat) : Shape Expression := fun value tokens ahead =>
  value.Spelled levels tokens ∧ Stops 0 ahead.kind

theorem parses_expression {levels : Nat} (hroom : nesting + levels ≤ maxNesting) :
    Parses inBody nesting (expression levels) (.expression levels) where
  steady := steady_expression levels
  sound hrun hinside hclean := by
    have hstops := stops_of_expression hrun hinside.ending_kind
    obtain ⟨tree, tokens, tail, hspelled, hrest, rfl, rfl⟩ :=
      expression_spelled hrun hinside.ending_kind hclean
    exact ⟨tokens, tail, ⟨⟨tree, hspelled, rfl⟩, hstops⟩, hrest, rfl⟩
  complete hinside hrest hshape := by
    obtain ⟨⟨tree, hspelled, rfl⟩, hstops⟩ := hshape
    exact expression_of_spelled (hinside.nesting_eq ▸ hroom) hspelled hrest hstops

end Lox.Grammar
