import Lox.Grammar.Statement
import Lox.Proofs.Grammar.Parses

/-!
# What the rules for statements parse

Each rule parses what the grammar of statements says, given that the rules for the parts inside of
it do.
-/

namespace Lox.Grammar

variable {inBody : Bool} {nesting levels : Nat} {expression : Rule Expression}

theorem stops_of_isKind {kind : TokenKind} {token : Token} (hkind : token.kind = kind)
    (hnone : kind.continues? = none) : Stops 0 token.kind :=
  .of_none 0 (hkind ▸ hnone)

theorem parses_varDeclaration (h : Parses inBody nesting expression (.expression levels)) :
    Parses inBody nesting (varDeclaration expression) fun statement tokens _ =>
      Statement.VarWritten levels statement tokens := by
  have hrule : Parses inBody nesting (varDeclaration expression) _ :=
    .afterExpect (by decide) fun name => .afterEat? (by decide)
      (fun _ => (h.map some).bind fun initial => .afterExpect (by decide) fun _ => parses_pure _)
      (.afterPure (.afterExpect (by decide) fun _ => parses_pure _))
  refine hrule.congr fun statement tokens ahead => ⟨?_, ?_⟩
  · rintro ⟨name, _, rfl, ⟨equals, _, rfl, _, spelling, _, rfl, ⟨value, hvalue, rfl⟩,
      semicolon, _, rfl, rfl, rfl⟩ | ⟨-, semicolon, _, rfl, rfl, rfl⟩⟩
    · exact .initialized name equals hvalue.1 semicolon
    · exact .bare name semicolon
  · rintro (⟨name, semicolon⟩ | ⟨name, equals, hspelled, semicolon⟩)
    · exact ⟨name, _, rfl, .inr ⟨by simp [semicolon.isKind], semicolon, _, rfl, rfl, rfl⟩⟩
    · exact ⟨name, _, rfl, .inl ⟨equals, _, rfl, _, _, _, rfl,
        ⟨_, ⟨hspelled, stops_of_isKind semicolon.isKind rfl⟩, rfl⟩, semicolon, _, rfl, rfl, rfl⟩⟩

theorem parses_expressionStatement (h : Parses inBody nesting expression (.expression levels)) :
    Parses inBody nesting (expressionStatement expression) fun statement tokens _ =>
      ∃ (value : Expression) (spelling : List Token) (semicolon : Mark .semicolon),
        value.Spelled levels spelling ∧ tokens = spelling ++ [semicolon.token] ∧
          statement = .expression value := by
  have hrule : Parses inBody nesting (expressionStatement expression) _ :=
    h.bind fun value => .afterExpect (by decide) fun _ => parses_pure _
  refine hrule.congr fun statement tokens ahead => ⟨?_, ?_⟩
  · rintro ⟨value, spelling, _, rfl, hvalue, semicolon, _, rfl, rfl, rfl⟩
    exact ⟨value, spelling, semicolon, hvalue.1, rfl, rfl⟩
  · rintro ⟨value, spelling, semicolon, hspelled, rfl, rfl⟩
    exact ⟨value, spelling, _, rfl, ⟨hspelled, stops_of_isKind semicolon.isKind rfl⟩, semicolon, _,
      rfl, rfl, rfl⟩

/-- A statement behind its first token, in front of no `else` that would be its own. -/
def Shape.behind (inBody : Bool) (levels : Nat) (first : TokenKind) (line : Nat) :
    Shape Statement := fun statement tokens ahead =>
  ∃ dangling, Statement.WrittenBehind inBody levels dangling first line statement tokens ∧
    (dangling = true → ahead.kind ≠ .keyword .elseWord)

/-- A statement, in front of no `else` that would be its own. -/
def Shape.statement (inBody : Bool) (levels : Nat) : Shape Statement := fun statement tokens ahead =>
  ∃ dangling, Statement.Written inBody levels dangling statement tokens ∧
    (dangling = true → ahead.kind ≠ .keyword .elseWord)

theorem parses_printStatement (h : Parses inBody nesting expression (.expression levels))
    (line : Nat) : Parses inBody nesting (printStatement expression)
      (.behind inBody levels (.keyword .printWord) line) := by
  have hrule : Parses inBody nesting (printStatement expression) _ :=
    h.bind fun value => .afterExpect (by decide) fun _ => parses_pure _
  refine hrule.congr fun statement tokens ahead => ⟨?_, ?_⟩
  · rintro ⟨value, spelling, _, rfl, hvalue, semicolon, _, rfl, rfl, rfl⟩
    exact ⟨false, .print hvalue.1 semicolon, by simp⟩
  · rintro ⟨_, hbehind, -⟩
    cases hbehind with
    | print hspelled semicolon =>
      exact ⟨_, _, _, rfl, ⟨hspelled, stops_of_isKind semicolon.isKind rfl⟩, semicolon, _, rfl, rfl,
        rfl⟩

theorem parses_returnStatement (h : Parses inBody nesting expression (.expression levels))
    (keyword : Token) : Parses inBody nesting (returnStatement expression keyword)
      (.behind inBody levels (.keyword .returnWord) keyword.line) := by
  have hrule : Parses inBody nesting (returnStatement expression keyword) _ :=
    .afterReport (.afterCheck
      (.afterPure (.afterExpect (by decide) fun _ => parses_pure _))
      ((h.map some).bind fun value => .afterExpect (by decide) fun _ => parses_pure _))
  refine hrule.congr fun statement tokens ahead => ⟨?_, ?_⟩
  · rintro ⟨rfl, ⟨-, semicolon, _, rfl, rfl, rfl⟩ |
      ⟨-, _, spelling, _, rfl, ⟨value, hvalue, rfl⟩, semicolon, _, rfl, rfl, rfl⟩⟩
    · exact ⟨false, .returnWith .none semicolon, by simp⟩
    · exact ⟨false, .returnWith (.some hvalue.1) semicolon, by simp⟩
  · rintro ⟨_, hbehind, -⟩
    cases hbehind with
    | returnWith hspelled semicolon =>
      cases hspelled with
      | none => exact ⟨rfl, .inl ⟨semicolon.isKind, semicolon, _, rfl, rfl, rfl⟩⟩
      | some hspelled =>
        refine ⟨rfl, .inr ⟨hspelled.headD_ne rfl _ _, _, _, _, rfl,
          ⟨_, ⟨hspelled, stops_of_isKind semicolon.isKind rfl⟩, rfl⟩, semicolon, _, rfl, rfl, rfl⟩⟩

theorem parses_initializer (h : Parses inBody nesting expression (.expression levels)) :
    Parses inBody nesting (initializer expression) fun initial tokens _ =>
      Statement.InitializerWritten levels initial tokens := by
  have hrule : Parses inBody nesting (initializer expression) _ :=
    .afterEat? (by decide) (fun _ => parses_pure none) (.afterEat? (by decide)
      (fun _ => (parses_varDeclaration h).bind fun _ => parses_pure _)
      ((parses_expressionStatement h).bind fun _ => parses_pure _))
  refine hrule.congr fun initial tokens ahead => ⟨?_, ?_⟩
  · rintro (⟨semicolon, _, rfl, rfl, rfl⟩ |
      ⟨-, ⟨keyword, _, rfl, _, inner, _, rfl, hwritten, rfl, rfl⟩ |
        ⟨-, _, _, _, rfl, ⟨value, spelling, semicolon, hspelled, rfl, rfl⟩, rfl, rfl⟩⟩)
    · exact .none semicolon
    · rw [List.append_nil]
      exact .var keyword hwritten
    · rw [List.append_nil]
      exact .expression hspelled semicolon
  · intro hwritten
    cases hwritten with
    | none semicolon => exact .inl ⟨semicolon, _, rfl, rfl, rfl⟩
    | var keyword hwritten =>
      exact .inr ⟨by simp [keyword.isKind], .inl ⟨keyword, _, rfl, _, _, [],
        (List.append_nil _).symm, hwritten, rfl, rfl⟩⟩
    | expression hspelled semicolon =>
      exact .inr ⟨hspelled.headD_ne rfl _ _, .inr ⟨hspelled.headD_ne rfl _ _, _, _, [],
        (List.append_nil _).symm, ⟨_, _, semicolon, hspelled, rfl, rfl⟩, rfl, rfl⟩⟩

/-- A clause of a `for` loop, in front of the token that ends it if there is nothing else. -/
def Shape.clause (levels : Nat) (closing : TokenKind) : Shape (Option Expression) :=
  fun result tokens ahead => result = none ∧ tokens = [] ∧ ahead.kind = closing ∨
    ∃ value, result = some value ∧ Shape.expression levels value tokens ahead

theorem Shape.clause.spelled {closing : TokenKind} {result : Option Expression}
    {tokens : List Token} {ahead : Token} (h : Shape.clause levels closing result tokens ahead) :
    OptionSpelled levels result tokens := by
  obtain ⟨rfl, rfl, -⟩ | ⟨value, rfl, hspelled, -⟩ := h
  · exact .none
  · exact .some hspelled

theorem Shape.clause.of_spelled {closing : TokenKind} {result : Option Expression}
    {tokens : List Token} {ahead : Token} (h : OptionSpelled levels result tokens)
    (hahead : ahead.kind = closing) (hnone : closing.continues? = none) :
    Shape.clause levels closing result tokens ahead := by
  cases h with
  | none => exact .inl ⟨rfl, rfl, hahead⟩
  | some hspelled => exact .inr ⟨_, rfl, hspelled, stops_of_isKind hahead hnone⟩

theorem parses_clause (h : Parses inBody nesting expression (.expression levels))
    {closing : TokenKind} (hclosing : closing.opensExpression = false) :
    Parses inBody nesting (clause expression closing) (.clause levels closing) := by
  have hrule : Parses inBody nesting (clause expression closing) _ :=
    .afterCheck (parses_pure none) (h.bind fun _ => parses_pure _)
  refine hrule.congr fun result tokens ahead => ⟨?_, ?_⟩
  · rintro (⟨hahead, rfl, rfl⟩ | ⟨-, value, spelling, _, rfl, hvalue, rfl, rfl⟩)
    · exact .inl ⟨rfl, rfl, hahead⟩
    · rw [List.append_nil]
      exact .inr ⟨value, rfl, hvalue⟩
  · rintro (⟨rfl, rfl, hahead⟩ | ⟨value, rfl, hvalue⟩)
    · exact .inl ⟨hahead, rfl, rfl⟩
    · refine .inr ⟨?_, value, tokens, [], (List.append_nil _).symm, hvalue, rfl, rfl⟩
      simpa using hvalue.1.headD_ne hclosing [] ahead

theorem forLoop_eq_loop : forLoop = Statement.loop := by
  funext initial condition increment body
  cases initial <;> cases increment <;> rfl

section
variable {statement : Rule Statement}
  (h : Parses inBody nesting expression (.expression levels))
  (hstatement : Parses inBody nesting statement (.statement inBody levels))
include h hstatement

theorem parses_ifStatement (line : Nat) : Parses inBody nesting (ifStatement expression statement)
    (.behind inBody levels (.keyword .ifWord) line) := by
  have hrule : Parses inBody nesting (ifStatement expression statement) _ :=
    .afterExpect (by decide) fun _ => h.bind fun condition => .afterExpect (by decide) fun _ =>
      hstatement.bind fun success => .afterEat? (by decide)
        (fun _ => hstatement.bind fun failure => parses_pure _) (parses_pure _)
  refine hrule.congr fun result tokens ahead => ⟨?_, ?_⟩
  · rintro ⟨opening, _, rfl, condition, test, _, rfl, hcondition, closing, _, rfl, success, first, _,
      rfl, ⟨dangling, hsuccess, hahead⟩, ⟨otherwise, _, rfl, failure, second, _, rfl, hfailure, rfl,
      rfl⟩ | ⟨hother, rfl, rfl⟩⟩
    · obtain rfl : dangling = false := by
        cases dangling with
        | false => rfl
        | true => exact absurd otherwise.isKind (hahead rfl)
      obtain ⟨dangling, hfailure, hahead⟩ := hfailure
      rw [List.append_nil]
      exact ⟨dangling, .ifElse opening hcondition.1 closing hsuccess otherwise hfailure, hahead⟩
    · rw [List.append_nil]
      exact ⟨true, .ifThen opening hcondition.1 closing hsuccess, fun _ => hother⟩
  · rintro ⟨dangling, hbehind, hahead⟩
    cases hbehind with
    | ifThen opening hspelled closing hsuccess =>
      refine ⟨opening, _, rfl, _, _, _, rfl, ⟨hspelled, stops_of_isKind closing.isKind rfl⟩, closing,
        _, rfl, _, _, [], (List.append_nil _).symm, ⟨_, hsuccess, fun _ => hahead rfl⟩,
        .inr ⟨hahead rfl, rfl, rfl⟩⟩
    | ifElse opening hspelled closing hsuccess otherwise hfailure =>
      refine ⟨opening, _, rfl, _, _, _, rfl, ⟨hspelled, stops_of_isKind closing.isKind rfl⟩, closing,
        _, rfl, _, _, _, rfl, ⟨_, hsuccess, by simp⟩, .inl ⟨otherwise, _, rfl, _, _, [],
        (List.append_nil _).symm, ⟨_, hfailure, hahead⟩, rfl, rfl⟩⟩

theorem parses_whileStatement (line : Nat) :
    Parses inBody nesting (whileStatement expression statement)
      (.behind inBody levels (.keyword .whileWord) line) := by
  have hrule : Parses inBody nesting (whileStatement expression statement) _ :=
    .afterExpect (by decide) fun _ => h.bind fun condition => .afterExpect (by decide) fun _ =>
      hstatement.bind fun body => parses_pure _
  refine hrule.congr fun result tokens ahead => ⟨?_, ?_⟩
  · rintro ⟨opening, _, rfl, condition, test, _, rfl, hcondition, closing, _, rfl, body, inside, _,
      rfl, ⟨dangling, hbody, hahead⟩, rfl, rfl⟩
    rw [List.append_nil]
    exact ⟨dangling, .whileLoop opening hcondition.1 closing hbody, hahead⟩
  · rintro ⟨dangling, hbehind, hahead⟩
    cases hbehind with
    | whileLoop opening hspelled closing hbody =>
      exact ⟨opening, _, rfl, _, _, _, rfl, ⟨hspelled, stops_of_isKind closing.isKind rfl⟩, closing,
        _, rfl, _, _, [], (List.append_nil _).symm, ⟨_, hbody, hahead⟩, rfl, rfl⟩

theorem parses_forStatement (line : Nat) :
    Parses inBody nesting (forStatement expression statement)
      (.behind inBody levels (.keyword .forWord) line) := by
  have hrule : Parses inBody nesting (forStatement expression statement) _ :=
    .afterExpect (by decide) fun _ => (parses_initializer h).bind fun initial =>
      (parses_clause h rfl).bind fun condition => .afterExpect (by decide) fun _ =>
        (parses_clause h rfl).bind fun increment => .afterExpect (by decide) fun _ =>
          hstatement.bind fun body => parses_pure _
  refine hrule.congr fun result tokens ahead => ⟨?_, ?_⟩
  · rintro ⟨opening, _, rfl, initial, first, _, rfl, hinitial, condition, second, _, rfl, hcondition,
      semicolon, _, rfl, increment, third, _, rfl, hincrement, closing, _, rfl, body, inside, _, rfl,
      ⟨dangling, hbody, hahead⟩, rfl, rfl⟩
    rw [List.append_nil, forLoop_eq_loop]
    exact ⟨dangling, .forLoop opening hinitial hcondition.spelled semicolon hincrement.spelled
      closing hbody, hahead⟩
  · rintro ⟨dangling, hbehind, hahead⟩
    cases hbehind with
    | forLoop opening hinitial hcondition semicolon hincrement closing hbody =>
      exact ⟨opening, _, rfl, _, _, _, rfl, hinitial, _, _, _, rfl,
        .of_spelled hcondition semicolon.isKind rfl, semicolon, _, rfl, _, _, _, rfl,
        .of_spelled hincrement closing.isKind rfl, closing, _, rfl, _, _, [],
        (List.append_nil _).symm, ⟨_, hbody, hahead⟩, by rw [forLoop_eq_loop], rfl⟩

end

/-! ### Parameters -/

theorem counted_of_lt {α : Type} {item : Rule α} {excess : SyntaxError.Cause} {earlier : Nat}
    {state : State} (h : earlier < maxArity) : counted item excess earlier state = item state := by
  rw [counted_apply, State.counting, if_neg (Nat.not_le.2 h)]

theorem lt_of_counted {α : Type} {item : Rule α} {excess : SyntaxError.Cause} {earlier : Nat}
    {before after : State} {value : α} (h : Steady item)
    (hrun : counted item excess earlier before = .ok value after)
    (hclean : after.errors = before.errors) : earlier < maxArity := by
  refine Nat.lt_of_not_le fun hfull => ?_
  rw [counted_apply, State.counting, if_pos hfull] at hrun
  have hlength := (h.of_ok hrun).errors.length_le
  simp only [hclean, Array.toList_push, List.length_append, List.length_cons] at hlength
  omega

theorem parses_parameter : Parses inBody nesting parameter fun value tokens _ =>
    ∃ mark : Mark .identifier, value = .ofToken mark.token ∧ tokens = [mark.token] := by
  have hrule : Parses inBody nesting parameter _ :=
    .afterExpect (by decide) fun _ => parses_pure _
  refine hrule.congr fun value tokens ahead => ⟨?_, ?_⟩
  · rintro ⟨mark, _, rfl, rfl, rfl⟩
    exact ⟨mark, rfl, rfl⟩
  · rintro ⟨mark, rfl, rfl⟩
    exact ⟨mark, _, rfl, rfl, rfl⟩

/-- Names with commas between them, as many as are allowed. -/
def Shape.parameters : Shape (List Identifier) := fun values tokens ahead =>
  ∃ marks : List (Mark .identifier), values = marks.map (.ofToken ·.token) ∧
    Separated (marks.map ([·.token])) tokens ∧ marks.length ≤ maxArity ∧
    (if marks = [] then ahead.kind = .rightParen else ahead.kind ≠ .comma)

theorem steady_parameter : Steady parameter :=
  (show Parses true 0 parameter _ from parses_parameter).steady

theorem counted_parameter_sound {earlier : Nat} {before after : State} {value : Identifier}
    (hrun : counted parameter .tooManyParameters earlier before = .ok value after)
    (hinside : before.Inside inBody nesting) (hclean : after.errors = before.errors) :
    ∃ (mark : Mark .identifier) (tail : List Token), earlier < maxArity ∧
      value = .ofToken mark.token ∧ before.rest = mark.token :: tail ∧ after = before.to tail := by
  have hlt := lt_of_counted steady_parameter hrun hclean
  rw [counted_of_lt hlt] at hrun
  obtain ⟨_, tail, ⟨mark, rfl, rfl⟩, hrest, rfl⟩ := parses_parameter.sound hrun hinside hclean
  exact ⟨mark, tail, hlt, rfl, hrest, rfl⟩

/-- Round by round, a name and a comma in front of the names of the rounds to come. -/
theorem items_parameter_sound {budget : List Token} : ∀ {earlier : Array Identifier}
    {before after : State} {values : List Identifier},
    items parameter .tooManyParameters budget earlier before = .ok values after →
    before.Inside inBody nesting → after.errors = before.errors →
    before.rest.length ≤ budget.length →
    ∃ (marks : List (Mark .identifier)) (tokens tail : List Token), marks ≠ [] ∧
      values = earlier.toList ++ marks.map (.ofToken ·.token) ∧
      Separated (marks.map ([·.token])) tokens ∧ earlier.size + marks.length ≤ maxArity ∧
      (tail.headD before.ending).kind ≠ .comma ∧ before.rest = tokens ++ tail ∧
      after = before.to tail := by
  induction budget with
  | nil =>
    intro earlier before after values hrun hinside hclean hbudget
    obtain ⟨value, between, hitem, ⟨rfl, rfl, -⟩ | ⟨_, _, hmore, -⟩⟩ := items_eq_ok hrun
    · obtain ⟨mark, tail, -, -, hrest, -⟩ := counted_parameter_sound hitem hinside hclean
      simp [hrest] at hbudget
    · cases hmore
  | cons spare budget ih =>
    intro earlier before after values hrun hinside hclean hbudget
    obtain ⟨value, between, hitem, ⟨rfl, rfl, hahead⟩ | ⟨_, _, hrounds, hcomma, hmore⟩⟩ :=
      items_eq_ok hrun
    · obtain ⟨mark, tail, hlt, rfl, hsplit, rfl⟩ := counted_parameter_sound hitem hinside hclean
      exact ⟨[mark], [mark.token], tail, by simp, by simp, .last _, hlt, hahead (by simp), hsplit,
        rfl⟩
    · cases hrounds
      have hrest := (State.continues_tail between).trans ((steady_parameter.items _ _ _).of_ok hmore)
      obtain ⟨hbetween, hafter⟩ :=
        ((steady_parameter.counted _ _).of_ok hitem).errors_eq hrest hclean
      obtain ⟨mark, tail, hlt, rfl, hsplit, rfl⟩ := counted_parameter_sound hitem hinside hbetween
      obtain ⟨comma, others, htail, hcomma⟩ :=
        State.exists_rest_of_ahead hcomma hinside.ending_kind (by decide)
      obtain rfl : tail = comma :: others := htail
      rw [hsplit, List.length_cons, List.length_cons] at hbudget
      obtain ⟨marks, tokens, last, hne, rfl, hseparated, hfew, hstop, hothers, rfl⟩ :=
        ih hmore (hinside.to _) hafter (by simp at hbudget ⊢; omega)
      obtain rfl : others = tokens ++ last := hothers
      obtain ⟨second, marks, rfl⟩ := List.exists_cons_of_ne_nil hne
      refine ⟨mark :: second :: marks, mark.token :: comma :: tokens, last, by simp, by simp,
        .more [mark.token] ⟨comma, hcomma⟩ hseparated, ?_, hstop, hsplit, rfl⟩
      simp at hfew ⊢
      omega

theorem items_parameter_complete {tail : List Token} : ∀ {marks : List (Mark .identifier)}
    {tokens budget : List Token} {earlier : Array Identifier} {before : State}, marks ≠ [] →
    before.Inside inBody nesting → Separated (marks.map ([·.token])) tokens →
    earlier.size + marks.length ≤ maxArity → (tail.headD before.ending).kind ≠ .comma →
    before.rest = tokens ++ tail → tokens.length ≤ budget.length →
    items parameter .tooManyParameters budget earlier before =
      .ok (earlier.toList ++ marks.map (.ofToken ·.token)) (before.to tail) := by
  intro marks
  induction marks with
  | nil =>
    intro _ _ _ _ hne
    exact absurd rfl hne
  | cons mark rest ih =>
    intro tokens budget earlier before _ hinside hseparated hfew hstop hrest hbudget
    have hitem {others : List Token} (hothers : before.rest = mark.token :: others) :
        counted parameter .tooManyParameters earlier.size before =
          .ok (.ofToken mark.token) (before.to others) := by
      rw [counted_of_lt (by simp at hfew; omega)]
      exact parses_parameter.complete hinside hothers ⟨mark, rfl, rfl⟩
    cases rest with
    | nil =>
      obtain rfl := hseparated.eq_piece
      exact items_of_last (hitem hrest) hstop
    | cons next others =>
      obtain ⟨comma, inside, hothers, rfl⟩ := hseparated.exists_comma
      have hsplit : before.rest = mark.token :: comma.token :: (inside ++ tail) := hrest
      have hlength : inside.length + 2 ≤ budget.length := hbudget
      cases budget with
      | nil => simp at hlength
      | cons spare budget =>
        rw [items_of_more (hitem hsplit) rfl comma.isKind, State.to_to,
          ih (by simp) (hinside.to (inside ++ tail)) hothers (by simp at hfew ⊢; omega) hstop rfl
            (by simp at hlength; omega)]
        simp

theorem parses_parameters : Parses inBody nesting (commaSeparated parameter .tooManyParameters)
    Shape.parameters where
  steady := steady_parameter.commaSeparated _
  sound {before after values} hrun hinside hclean := by
    by_cases hclosed : before.ahead.kind = .rightParen
    · rw [commaSeparated_of_closed hclosed] at hrun
      cases hrun
      exact ⟨[], before.rest, ⟨[], rfl, .none, Nat.zero_le _, hclosed⟩, rfl, rfl⟩
    · rw [commaSeparated_of_open hclosed] at hrun
      obtain ⟨marks, tokens, tail, hne, rfl, hseparated, hfew, hstop, hrest, rfl⟩ :=
        items_parameter_sound hrun hinside hclean (Nat.le_refl _)
      refine ⟨tokens, tail, ⟨marks, by simp, hseparated, by simpa using hfew, ?_⟩, hrest, rfl⟩
      rwa [if_neg hne]
  complete {before values tokens tail} hinside hrest hshape := by
    obtain ⟨marks, rfl, hseparated, hfew, hstop⟩ := hshape
    cases marks with
    | nil =>
      obtain rfl := hseparated.eq_nil
      obtain rfl : before.rest = tail := hrest
      exact commaSeparated_of_closed hstop
    | cons mark rest =>
      rw [if_neg (by simp)] at hstop
      have hopen : before.ahead.kind ≠ .rightParen := by
        obtain ⟨others, rfl⟩ := hseparated.exists_append
        have hfirst : before.rest = mark.token :: (others ++ tail) := hrest
        rw [State.ahead_of_rest hfirst, mark.isKind]
        decide
      rw [commaSeparated_of_open hopen]
      exact items_parameter_complete (by simp) hinside hseparated (by simpa using hfew) hstop hrest
        (by simp [hrest])

end Lox.Grammar
