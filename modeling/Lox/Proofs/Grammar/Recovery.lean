import Lox.Proofs.Grammar.Progress
import Lox.Proofs.Syntax.Starters

/-!
# Where a semicolon is missing

A statement that breaks off before its last semicolon, in front of a word that starts another one,
is rejected at that word. Its levels are all closed again and nothing else was recorded, so the one
error stands at the start of the next statement.

What comes behind is not read as if it stood alone: to get on, the token at which the error was
noticed is skipped first, and that is the word that the next statement starts with.
-/

namespace Lox

theorem Statement.Written.ne_nil {inBody dangling : Bool} {levels : Nat} {statement : Statement}
    {tokens : List Token} (h : Statement.Written inBody levels dangling statement tokens) :
    tokens ≠ [] := by
  obtain ⟨token, rest, rfl, -⟩ := h.exists_first
  simp

namespace Grammar

variable {α β : Type}

/-- In front of what is left then, the rule is rejected for want of a semicolon, with nothing else
changed but the tokens it has read. -/
def FailsAt (tail : List Token) (rule : Rule α) (before : State) : Prop :=
  ∃ message, rule before =
    .error (.rejected ⟨.unexpected .semicolon message, tail.headD before.ending⟩) (before.to tail)

section
variable {tail : List Token} {before : State}

theorem FailsAt.bind {rule : Rule α} (h : FailsAt tail rule before) (next : α → Rule β) :
    FailsAt tail (rule >>= next) before := by
  obtain ⟨message, hrun⟩ := h
  exact ⟨message, by rw [bind_apply, hrun]⟩

theorem FailsAt.after {rule : Rule α} {next : α → Rule β} (between : List Token) (value : α)
    (hrun : rule before = .ok value (before.to between))
    (h : FailsAt tail (next value) (before.to between)) : FailsAt tail (rule >>= next) before := by
  obtain ⟨message, hnext⟩ := h
  exact ⟨message, by rw [bind_of_ok hrun, hnext]; rfl⟩

theorem FailsAt.afterExpect {kind : TokenKind} {message : String} {next : Token → Rule β}
    (mark : Mark kind) (between : List Token) (hrest : before.rest = mark.token :: between)
    (h : FailsAt tail (next mark.token) (before.to between)) :
    FailsAt tail (expect kind message >>= next) before :=
  .after between mark.token (expect_of_rest hrest mark.isKind) h

theorem FailsAt.nested {rule : Rule α}
    (h : FailsAt tail rule { before with nesting := before.nesting + 1 })
    (hroom : before.nesting < maxNesting) : FailsAt tail (nested rule) before := by
  obtain ⟨message, hrun⟩ := h
  exact ⟨message, by simp [Grammar.nested, Nat.not_le.2 hroom, hrun, State.to]⟩

theorem startsStatement_ne {kind other : TokenKind} (h : kind.startsStatement = true)
    (hother : other.startsStatement = false) : kind ≠ other := by
  rintro rfl
  rw [h] at hother
  cases hother

theorem stops_of_startsStatement {kind : TokenKind} (h : kind.startsStatement = true) :
    Stops 0 kind := by
  cases kind with
  | keyword word =>
    cases word with
    | classWord | funWord | varWord | forWord | ifWord | whileWord | printWord | returnWord =>
      exact .of_none 0 rfl
    | _ => cases h
  | _ => cases h

theorem failsAt_semicolon {message : String} {next : Token → Rule β}
    (hstart : (tail.headD before.ending).kind.startsStatement = true) (hrest : before.rest = tail) :
    FailsAt tail (expect .semicolon message >>= next) before := by
  have hahead : before.ahead = tail.headD before.ending := by rw [State.ahead, hrest]
  refine .bind ⟨message, ?_⟩ next
  rw [expect_apply, if_neg (hahead ▸ startsStatement_ne hstart rfl), hahead, ← hrest, State.to_rest]

end

/-! ### Statements that break off -/

/-- What comes last in tokens comes last in their back. -/
theorem exists_cut (front back : List Token) {tokens : List Token} {last : Token}
    (h : front ++ back = tokens ++ [last]) (hback : back ≠ []) :
    ∃ cut, back = cut ++ [last] ∧ tokens = front ++ cut := by
  obtain ⟨cut, final, rfl⟩ := (List.eq_nil_or_concat back).resolve_left hback
  rw [List.concat_eq_append] at h ⊢
  rw [← List.append_assoc] at h
  obtain ⟨rfl, hlast⟩ := List.append_inj' h rfl
  cases hlast
  exact ⟨cut, rfl, rfl⟩

/-- Where a statement breaks off before its last semicolon, the rule fails there. -/
def BreaksOff (nesting levels : Nat) (rule : Rule Statement) : Prop :=
  ∀ {before : State} {dangling : Bool} {statement : Statement} {tokens tail : List Token}
    (semicolon : Mark .semicolon), before.Inside false nesting →
    Statement.Written false levels dangling statement (tokens ++ [semicolon.token]) →
    before.rest = tokens ++ tail → (tail.headD before.ending).kind.startsStatement = true →
    FailsAt tail rule before

section
variable {nesting levels : Nat} {parts : Parts} (h : PartsParse false nesting levels parts)
  {before : State} {tokens tail : List Token} {statement : Statement} {dangling : Bool}
  (semicolon : Mark .semicolon) (hinside : before.Inside false nesting)
  (hrest : before.rest = tokens ++ tail)
  (hstart : (tail.headD before.ending).kind.startsStatement = true)
include h hinside hrest hstart

theorem failsAt_varDeclaration
    (hwritten : Statement.VarWritten levels statement (tokens ++ [semicolon.token])) :
    FailsAt tail (varDeclaration parts.expression) before := by
  generalize hwhole : tokens ++ [semicolon.token] = whole at hwritten
  cases hwritten with
  | bare name last =>
    have hsplit : tokens ++ [semicolon.token] = [name.token] ++ [last.token] := hwhole
    obtain ⟨rfl, -⟩ := List.append_inj' hsplit rfl
    have hne : (before.to tail).ahead.kind ≠ .equal := startsStatement_ne hstart rfl
    refine .afterExpect name tail hrest (.after tail none ?_ ?_)
    · rw [eat?_apply, if_neg hne]
      rfl
    · exact failsAt_semicolon hstart rfl
  | @initialized value spelling name equals hspelled last =>
    have hsplit : tokens ++ [semicolon.token] =
        (name.token :: equals.token :: spelling) ++ [last.token] := hwhole
    obtain ⟨rfl, -⟩ := List.append_inj' hsplit rfl
    have hvalue : parts.expression (before.to (spelling ++ tail)) = .ok value (before.to tail) :=
      h.expression.complete (hinside.to _) rfl ⟨hspelled, stops_of_startsStatement hstart⟩
    refine .afterExpect name (equals.token :: (spelling ++ tail)) hrest
      (.after (spelling ++ tail) (some equals.token) ?_ (.after tail (some value) ?_ ?_))
    · simp [eat?_apply, equals.isKind]
    · rw [map_apply, State.to_to, hvalue]
      rfl
    · exact failsAt_semicolon hstart rfl

/-- The rule for what follows the first token of a statement fails where the statement breaks off,
given that the rule for statements inside of it does. -/
theorem failsAt_ruleBehind (hcut : BreaksOff nesting levels parts.statement) {first : Token}
    {rule : Rule Statement} (hrule : ruleBehind? parts first = some rule)
    (hwritten : Statement.WrittenBehind false levels dangling first.kind first.line statement
      (tokens ++ [semicolon.token])) : FailsAt tail rule before := by
  have hstops := stops_of_startsStatement hstart
  have hexpression {value : Expression} {spelling back : List Token} {place : State}
      (hplace : place.Inside false nesting) (hback : place.rest = spelling ++ back)
      (hspelled : value.Spelled levels spelling) (hahead : Stops 0 (back.headD place.ending).kind) :
      parts.expression place = .ok value (place.to back) :=
    h.expression.complete hplace hback ⟨hspelled, hahead⟩
  generalize hwhole : tokens ++ [semicolon.token] = whole at hwritten
  generalize hkind : first.kind = kind at hwritten
  unfold ruleBehind? at hrule
  cases hwritten with
  | print hspelled last =>
    simp only [hkind, Option.some.injEq] at hrule
    obtain ⟨rfl, -⟩ := List.append_inj' hwhole rfl
    subst hrule
    exact .after _ _ (hexpression hinside hrest hspelled hstops) (failsAt_semicolon hstart rfl)
  | block hall closing =>
    obtain ⟨-, hlast⟩ := List.append_inj' hwhole rfl
    have hclosing := closing.isKind
    rw [← List.singleton_inj.1 hlast, semicolon.isKind] at hclosing
    cases hclosing
  | @ifThen _ _ _ _ condition success test inner opening hspelled closing hsuccess =>
    simp only [hkind, Option.some.injEq] at hrule
    subst hrule
    obtain ⟨cut, rfl, rfl⟩ := exists_cut (opening.token :: (test ++ [closing.token])) inner
      (by simpa using hwhole.symm) hsuccess.ne_nil
    have hclosing : Stops 0 closing.token.kind := stops_of_isKind closing.isKind rfl
    exact .afterExpect opening (test ++ closing.token :: (cut ++ tail)) (by simp [hrest])
      (.after _ _ (hexpression (hinside.to _) rfl hspelled hclosing) (.afterExpect closing _ rfl
        (.bind (hcut semicolon (hinside.to _) hsuccess rfl hstart) _)))
  | @ifElse _ _ _ _ condition success failure test inner other opening hspelled closing hsuccess
      otherwise hfailure =>
    simp only [hkind, Option.some.injEq] at hrule
    subst hrule
    obtain ⟨cut, rfl, rfl⟩ := exists_cut
      (opening.token :: (test ++ closing.token :: (inner ++ [otherwise.token]))) other
      (by simpa using hwhole.symm) hfailure.ne_nil
    have hclosing : Stops 0 closing.token.kind := stops_of_isKind closing.isKind rfl
    have hread := h.statement.complete (hinside.to (inner ++ otherwise.token :: (cut ++ tail))) rfl
      ⟨false, hsuccess, by simp⟩
    refine .afterExpect opening
      (test ++ closing.token :: (inner ++ otherwise.token :: (cut ++ tail))) (by simp [hrest])
      (.after _ _ (hexpression (hinside.to _) rfl hspelled hclosing) (.afterExpect closing _ rfl
        (.after _ _ hread (.after (cut ++ tail) (some otherwise.token) ?_ ?_))))
    · simp [eat?_apply, otherwise.isKind]
    · exact .bind (hcut semicolon (hinside.to _) hfailure rfl hstart) _
  | @whileLoop _ _ _ _ condition body test inner opening hspelled closing hbody =>
    simp only [hkind, Option.some.injEq] at hrule
    subst hrule
    obtain ⟨cut, rfl, rfl⟩ := exists_cut (opening.token :: (test ++ [closing.token])) inner
      (by simpa using hwhole.symm) hbody.ne_nil
    have hclosing : Stops 0 closing.token.kind := stops_of_isKind closing.isKind rfl
    exact .afterExpect opening (test ++ closing.token :: (cut ++ tail)) (by simp [hrest])
      (.after _ _ (hexpression (hinside.to _) rfl hspelled hclosing) (.afterExpect closing _ rfl
        (.bind (hcut semicolon (hinside.to _) hbody rfl hstart) _)))
  | @forLoop _ _ _ _ initial condition increment body first second third inner opening hinitial
      hcondition middle hincrement closing hbody =>
    simp only [hkind, Option.some.injEq] at hrule
    subst hrule
    obtain ⟨cut, rfl, rfl⟩ := exists_cut (opening.token ::
        (first ++ (second ++ middle.token :: (third ++ [closing.token])))) inner
      (by simpa using hwhole.symm) hbody.ne_nil
    have hthird := (parses_clause h.expression rfl).complete
      (hinside.to (third ++ closing.token :: (cut ++ tail))) rfl
      (.of_spelled hincrement closing.isKind rfl)
    have hsecond := (parses_clause h.expression rfl).complete
      (hinside.to (second ++ middle.token :: (third ++ closing.token :: (cut ++ tail)))) rfl
      (.of_spelled hcondition middle.isKind rfl)
    have hfirst := (parses_initializer h.expression).complete
      (hinside.to (first ++ (second ++ middle.token :: (third ++ closing.token :: (cut ++ tail)))))
      rfl hinitial
    exact .afterExpect opening
      (first ++ (second ++ middle.token :: (third ++ closing.token :: (cut ++ tail))))
      (by simp [hrest]) (.after _ _ hfirst (.after _ _ hsecond (.afterExpect middle _ rfl
        (.after _ _ hthird (.afterExpect closing _ rfl
          (.bind (hcut semicolon (hinside.to _) hbody rfl hstart) _))))))

theorem failsAt_statementRule (hcut : BreaksOff nesting levels parts.statement)
    (hwritten : Statement.Written false (levels + 1) dangling statement
      (tokens ++ [semicolon.token])) : FailsAt tail (statementRule parts) before := by
  generalize hwhole : tokens ++ [semicolon.token] = whole at hwritten
  cases hwritten with
  | @expression _ _ value _ hspelled last =>
    obtain ⟨rfl, -⟩ := List.append_inj' hwhole rfl
    obtain ⟨token, rest, hfirst, hopens⟩ := hspelled.exists_first
    have hnone : ruleBehind? parts before.ahead = none := by
      rw [ruleBehind?_eq_none_iff, State.ahead_of_rest (by rw [hrest, hfirst]; rfl)]
      exact TokenKind.opensStatement_of_opensExpression hopens
    have hvalue := h.expression.complete hinside hrest ⟨hspelled, stops_of_startsStatement hstart⟩
    have hfails : FailsAt tail (expressionStatement parts.expression) before :=
      .after tail value hvalue (failsAt_semicolon hstart rfl)
    obtain ⟨message, hrun⟩ := hfails
    exact ⟨message, by rw [statementRule_of_none hnone, hrun]⟩
  | @behind _ _ _ _ inner first hbehind =>
    cases tokens with
    | nil =>
      cases hwhole
      have hopens := hbehind.opensStatement
      rw [semicolon.isKind] at hopens
      cases hopens
    | cons token tokens =>
      cases hwhole
      cases hrule : ruleBehind? parts first with
      | none =>
        rw [ruleBehind?_eq_none_iff, hbehind.opensStatement] at hrule
        cases hrule
      | some rule =>
        have hbetween : before.rest = first :: (tokens ++ tail) := hrest
        obtain ⟨message, hrun⟩ := failsAt_ruleBehind h semicolon (hinside.to (tokens ++ tail)) rfl
          hstart hcut hrule hbehind
        exact ⟨message, by rw [statementRule_of_some hbetween hrule, hrun]; rfl⟩

end

/-! ### Declarations that break off -/

theorem breaksOff_levels (levels : Nat) : ∀ nesting, nesting + levels ≤ maxNesting →
    BreaksOff nesting levels (statement levels) := by
  induction levels with
  | zero =>
    intro nesting _ before dangling found tokens tail semicolon _ hwritten
    generalize tokens ++ [semicolon.token] = whole at hwritten
    cases hwritten
  | succ levels ih =>
    intro nesting hroom before dangling found tokens tail semicolon hinside hwritten hrest hstart
    obtain ⟨hstatement, hfunction⟩ := parses_levels levels false (nesting + 1) (by omega)
    have hparts : PartsParse false (nesting + 1) levels
        ⟨expression levels, statement levels, function levels⟩ :=
      ⟨parses_expression (by omega), hstatement, hfunction⟩
    have hdeeper : State.Inside false (nesting + 1) { before with nesting := before.nesting + 1 } :=
      ⟨hinside.ending_kind, by rw [hinside.nesting_eq], hinside.inBody_iff⟩
    exact (failsAt_statementRule hparts semicolon hdeeper hrest hstart (ih _ (by omega))
      hwritten).nested (hinside.nesting_eq ▸ by omega)

/-- A declaration that breaks off is abandoned, and what follows is skipped up to where parsing goes
on. -/
theorem declaration_of_cut {before : State} {tokens tail : List Token} {found : Statement}
    {dangling : Bool} (semicolon : Mark .semicolon) (hinside : before.Inside false 0)
    (hrest : before.rest = tokens ++ tail)
    (hstart : (tail.headD before.ending).kind.startsStatement = true)
    (hlisted : Statement.Listed false maxNesting dangling found (tokens ++ [semicolon.token])) :
    ∃ message, declaration maxNesting before = .ok none { before with
      rest := synchronize tail
      errors := before.errors.push
        ⟨.unexpected .semicolon message, tail.headD before.ending⟩ } := by
  obtain ⟨hstatement, hfunction⟩ := parses_levels maxNesting false 0 (Nat.le_refl _)
  have hparts : PartsParse false 0 maxNesting
      ⟨expression maxNesting, statement maxNesting, function maxNesting⟩ :=
    ⟨parses_expression (Nat.le_refl _), hstatement, hfunction⟩
  have hfails : FailsAt tail (do
      if (← eat? (.keyword .varWord)).isSome then varDeclaration (expression maxNesting)
      else if (← eat? (.keyword .funWord)).isSome then function maxNesting
      else statement maxNesting) before := by
    generalize hwhole : tokens ++ [semicolon.token] = whole at hlisted
    cases hlisted with
    | @var _ _ _ inner keyword hwritten =>
      have hne : inner ≠ [] := by cases hwritten <;> simp
      obtain ⟨cut, rfl, rfl⟩ := exists_cut [keyword.token] inner hwhole.symm hne
      refine .after (cut ++ tail) (some keyword.token) ?_
        (failsAt_varDeclaration hparts semicolon (hinside.to _) rfl hstart hwritten)
      rw [eat?_apply, State.ahead_of_rest hrest, if_pos keyword.isKind, hrest]
      rfl
    | function keyword hwritten =>
      -- The body of a function ends with its brace.
      cases hwritten with
      | @mk _ parameters inside entries body name opening hseparated hfew closing opened hall
          closed =>
        have hsplit : tokens ++ [semicolon.token] =
            (keyword.token :: name.token :: opening.token ::
              (inside ++ closing.token :: opened.token :: entries)) ++ [closed.token] := by
          simpa using hwhole
        obtain ⟨-, hlast⟩ := List.append_inj' hsplit rfl
        have hclosed := closed.isKind
        rw [← List.singleton_inj.1 hlast, semicolon.isKind] at hclosed
        cases hclosed
    | statement hwritten =>
      rw [← hwhole] at hwritten
      obtain ⟨token, rest, hfirst, hopens⟩ := hwritten.exists_first
      have hahead : before.ahead = token := by
        cases tokens with
        | nil =>
          cases hfirst
          simp [semicolon.isKind, TokenKind.opensExpression, TokenKind.opensStatement] at hopens
        | cons other tokens =>
          cases hfirst
          exact State.ahead_of_rest hrest
      have hskip {word : Keyword} (hword : (TokenKind.opensExpression (.keyword word) ||
          TokenKind.opensStatement (.keyword word)) = false) :
          eat? (.keyword word) before = .ok none (before.to before.rest) := by
        rw [eat?_apply, hahead, if_neg, State.to_rest]
        rintro hkind
        rw [hkind, hword] at hopens
        cases hopens
      exact .after _ _ (hskip rfl) (.after _ _ (hskip rfl)
        (breaksOff_levels maxNesting 0 (Nat.le_refl _) semicolon hinside hwritten hrest hstart))
  obtain ⟨message, hrun⟩ := hfails
  exact ⟨message, by rw [declaration, declarationRule, recovering, hrun]; rfl⟩

/-- The writing of the last of some entries comes last. -/
theorem exists_last_entry {inBody : Bool} {levels : Nat} {statements : List Statement}
    {whole : List Token} (h : Statement.AllListed inBody levels statements whole)
    (hstatements : statements ≠ []) :
    ∃ (earlier : List Statement) (last : Statement) (dangling : Bool) (front back : List Token),
      statements = earlier ++ [last] ∧ whole = front ++ back ∧
        Statement.AllListed inBody levels earlier front ∧
          Statement.Listed inBody levels dangling last back := by
  induction statements generalizing whole with
  | nil => exact absurd rfl hstatements
  | cons statement rest ih =>
    cases h with
    | @cons _ dangling _ _ _ tokens others listed listedRest =>
      cases rest with
      | nil =>
        cases listedRest
        exact ⟨[], statement, dangling, [], tokens, rfl, by simp, .nil, listed⟩
      | cons next more =>
        obtain ⟨earlier, last, ends, front, back, hsplit, rfl, hearlier, hlast⟩ :=
          ih listedRest (by simp)
        exact ⟨statement :: earlier, last, ends, tokens ++ front, back, by simp [hsplit], by simp,
          .cons listed hearlier, hlast⟩

end Grammar

open Grammar

section
variable {tokens others : List Token} {semicolon : Mark .semicolon} {first ending : Token}
  {statements : List Statement}

/-- Entries that break off before their last semicolon are all kept but the last one, and what is
behind them is read from where parsing goes on. -/
theorem ofTokens_of_cut (hstart : first.kind.startsStatement = true) (hending : ending.kind = .eof)
    (htokens : ∀ token ∈ tokens, token.kind ≠ .eof)
    (hothers : ∀ token ∈ first :: others, token.kind ≠ .eof)
    (hall : Statement.AllListed false maxNesting statements (tokens ++ [semicolon.token])) :
    ∃ message, Program.ofTokens (tokens ++ first :: others ++ [ending]) =
      (Program.ofTokens (synchronize (first :: others) ++ [ending])).map fun program =>
        ⟨(statements.map some).dropLast ++ none :: program.declarations,
          ⟨.unexpected .semicolon message, first⟩ :: program.errors⟩ := by
  have hstatements : statements ≠ [] := by
    rintro rfl
    generalize hwhole : tokens ++ [semicolon.token] = whole at hall
    cases hall
    simp at hwhole
  obtain ⟨earlier, last, dangling, front, back, rfl, hsplit, hearlier, hlast⟩ :=
    exists_last_entry hall hstatements
  obtain ⟨token, rest, hback, hopens⟩ := hlast.exists_first
  obtain ⟨cut, rfl, rfl⟩ := exists_cut front back hsplit.symm (by simp [hback])
  -- The cut has a token: no entry starts with a semicolon.
  obtain ⟨more, rfl⟩ : ∃ more, cut = token :: more := by
    cases cut with
    | nil =>
      cases hback
      rw [semicolon.isKind] at hopens
      cases hopens
    | cons other more =>
      cases hback
      exact ⟨more, rfl⟩
  have hahead : ({ rest := token :: more ++ first :: others, ending } : State).ahead.kind ≠ .eof :=
    TokenKind.ne_of_opensEntry hopens rfl
  have hinside (place : List Token) : State.Inside false 0 { rest := place, ending } :=
    ⟨hending, rfl, by simp⟩
  obtain ⟨message, hcut⟩ : ∃ message,
      declaration maxNesting { rest := token :: more ++ first :: others, ending } =
        .ok none { rest := synchronize (first :: others), ending
                   errors := #[⟨.unexpected .semicolon message, first⟩] } :=
    declaration_of_cut semicolon (hinside _) rfl hstart hlast
  refine ⟨message, ?_⟩
  have hskipped : synchronize (first :: others) <:+ others := resumption_suffix first others
  generalize hwhole : front ++ token :: more ++ first :: others = whole
  rw [List.append_assoc] at hwhole
  obtain ⟨rounds, hrounds, hfront⟩ : ∃ rounds : List Token,
      (token :: more ++ first :: others).length ≤ rounds.length ∧
        declarations whole #[] { rest := whole, ending } =
          declarations rounds (#[] ++ (earlier.map some).toArray)
            { rest := token :: more ++ first :: others, ending } :=
    declarations_front #[] (hinside whole) hearlier hwhole.symm
      (TokenKind.ne_of_opensEntry hopens rfl) (by simp [← hwhole])
  cases rounds with
  | nil => simp at hrounds
  | cons spare rounds =>
    have hread : declarations whole #[] { rest := whole, ending } =
        declarations rounds ((earlier.map some).toArray.push none)
          { rest := synchronize (first :: others), ending
            errors := #[⟨.unexpected .semicolon message, first⟩] } := by
      rw [hfront, declarations_of_other hahead, bind_of_ok hcut, Array.empty_append]
    have hlength := hskipped.length_le
    rw [ofTokens_of_declarations hending ?_ ?_ ?_ hread]
    · simp
    · rw [← hwhole, ← List.append_assoc]
      exact List.forall_mem_append.2 ⟨htokens, hothers⟩
    · exact fun token htoken => hothers token (List.mem_cons_of_mem _ (hskipped.subset htoken))
    · simp at hrounds
      omega

end

/-- A program that breaks off before its last semicolon, in front of a program that starts with a
word: the last declaration is lost, with an error at that word, and what is read behind it is not
the second program, but what is left of it where parsing goes on, which is further on. So the
declarations of the second program never come out behind a single error. -/
theorem ofTokens_without_semicolon {tokens others : List Token}
    {semicolon first closing ending : Token} {declarations continued : List (Option Statement)}
    (hsemicolon : semicolon.kind = .semicolon) (hclosing : closing.kind = .eof)
    (hending : ending.kind = .eof) (hstart : first.kind.startsStatement = true)
    (htokens : ∀ token ∈ tokens, token.kind ≠ .eof)
    (hothers : ∀ token ∈ first :: others, token.kind ≠ .eof)
    (hbefore : Program.ofTokens (tokens ++ [semicolon] ++ [closing]) = .ok ⟨declarations, []⟩)
    (hbehind : Program.ofTokens (first :: others ++ [ending]) = .ok ⟨continued, []⟩) :
    (∃ message, Program.ofTokens (tokens ++ first :: others ++ [ending]) =
      (Program.ofTokens (synchronize (first :: others) ++ [ending])).map fun program =>
        ⟨declarations.dropLast ++ none :: program.declarations,
          ⟨.unexpected .semicolon message, first⟩ :: program.errors⟩) ∧
      ∀ error, Program.ofTokens (tokens ++ first :: others ++ [ending]) ≠
        .ok ⟨declarations.dropLast ++ none :: continued, [error]⟩ := by
  have hopen : ∀ token ∈ tokens ++ [semicolon], token.kind ≠ .eof :=
    List.forall_mem_append.2 ⟨htokens, by simp [hsemicolon]⟩
  obtain ⟨statements, rfl, hall⟩ := allListed_of_ofTokens hclosing hopen hbefore
  obtain ⟨further, rfl, hfurther⟩ := allListed_of_ofTokens hending hothers hbehind
  let mark : Mark .semicolon := ⟨semicolon, hsemicolon⟩
  obtain ⟨message, hcut⟩ := ofTokens_of_cut hstart hending htokens hothers
    (show Statement.AllListed false maxNesting statements (tokens ++ [mark.token]) from hall)
  refine ⟨⟨message, hcut⟩, fun error hkept => ?_⟩
  rw [hcut] at hkept
  have hskipped : synchronize (first :: others) <:+ others := resumption_suffix first others
  cases hrest : Program.ofTokens (synchronize (first :: others) ++ [ending]) with
  | error missing =>
    rw [hrest] at hkept
    cases hkept
  | ok program =>
    obtain ⟨found, errors⟩ := program
    rw [hrest] at hkept
    simp only [Except.map, Except.ok.injEq, Program.mk.injEq, List.append_cancel_left_eq,
      List.cons.injEq, true_and] at hkept
    obtain ⟨rfl, -, rfl⟩ := hkept
    -- The word that was skipped is missing in the writing of what was found.
    obtain ⟨again, hagain, hlisted⟩ := allListed_of_ofTokens hending
      (fun token htoken => hothers token (List.mem_cons_of_mem _ (hskipped.subset htoken))) hrest
    rw [List.map_inj_right (fun _ _ => Option.some.inj)] at hagain
    subst hagain
    have hfewer := starters_le_of_suffix hskipped
    have hword := hfurther.starters_eq
    rw [starters_cons, if_pos hstart, ← hlisted.starters_eq] at hword
    omega

/-- The tokens of `x`. -/
private def bareName : List Token := [(Mark.plain .identifier "x" 1).token]

/-- The tokens of `(y) print z;`. -/
private def behindIf : List Token :=
  [(Mark.plain .leftParen "(" 1).token, (Mark.plain .identifier "y" 1).token,
    (Mark.plain .rightParen ")" 1).token, (Mark.plain (.keyword .printWord) "print" 1).token,
    (Mark.plain .identifier "z" 1).token, (Mark.plain .semicolon ";" 1).token]

/-- The branch of an `if` is run without its condition. -/
theorem ofTokens_without_semicolon_if : ∃ message,
    Program.ofTokens (bareName ++ (Mark.plain (.keyword .ifWord) "if" 1).token :: behindIf ++
      [.atEnd 0 1]) = .ok ⟨[none, some (.print ⟨#[.var ⟨"z", 1⟩], 0⟩)],
        [⟨.unexpected .semicolon message, (Mark.plain (.keyword .ifWord) "if" 1).token⟩]⟩ := by
  have hvar (levels : Nat) (name : String) : Expression.Spelled (levels + 1)
      ⟨#[.var ⟨name, 1⟩], 0⟩ [(Mark.plain .identifier name 1).token] :=
    ⟨.var ⟨name, 1⟩, ⟨.var (.plain .identifier name 1), trivial, trivial, Nat.succ_pos _⟩, rfl⟩
  have hprint : Statement.Written false 199 false _ _ :=
    .behind (Mark.plain (.keyword .printWord) "print" 1).token
      (.print (hvar 197 "z") (.plain .semicolon ";" 1))
  have hif : Statement.Written false maxNesting true _ _ :=
    .behind (Mark.plain (.keyword .ifWord) "if" 1).token
      (.ifThen (.plain .leftParen "(" 1) (hvar 198 "y") (.plain .rightParen ")" 1) hprint)
  have hending : (Token.atEnd 0 1).kind = .eof := rfl
  have hothers : ∀ token ∈ (Mark.plain (.keyword .ifWord) "if" 1).token :: behindIf,
      token.kind ≠ .eof := by decide
  have hbehind := ofTokens_of_allListed hending hothers (.cons (.statement hif) .nil)
  obtain ⟨⟨message, hread⟩, -⟩ := ofTokens_without_semicolon rfl rfl hending rfl (by decide)
    hothers (show Program.ofTokens (bareName ++ [(Mark.plain .semicolon ";" 1).token] ++
      [.atEnd 0 1]) = .ok ⟨[some (.expression ⟨#[.var ⟨"x", 1⟩], 0⟩)], []⟩ from rfl) hbehind
  exact ⟨message, hread.trans rfl⟩

/-- The first statement of the second program is lost with what breaks off. -/
theorem ofTokens_without_semicolon_loses : ¬ ∀ (tokens others : List Token)
    (semicolon first closing ending : Token) (declarations continued : List (Option Statement)),
    semicolon.kind = .semicolon → closing.kind = .eof → ending.kind = .eof →
    first.kind.startsStatement = true → (∀ token ∈ tokens, token.kind ≠ .eof) →
    (∀ token ∈ first :: others, token.kind ≠ .eof) →
    Program.ofTokens (tokens ++ [semicolon] ++ [closing]) = .ok ⟨declarations, []⟩ →
    Program.ofTokens (first :: others ++ [ending]) = .ok ⟨continued, []⟩ →
    ∃ cause, Program.ofTokens (tokens ++ first :: others ++ [ending]) =
      .ok ⟨declarations.dropLast ++ none :: continued, [⟨cause, first⟩]⟩ := by
  intro h
  obtain ⟨cause, hread⟩ := h bareName
    [(Mark.plain .identifier "y" 1).token, (Mark.plain .semicolon ";" 1).token]
    (Mark.plain .semicolon ";" 1).token (Mark.plain (.keyword .printWord) "print" 1).token
    (.atEnd 0 1) (.atEnd 0 1) [some (.expression ⟨#[.var ⟨"x", 1⟩], 0⟩)]
    [some (.print ⟨#[.var ⟨"y", 1⟩], 0⟩)] rfl rfl rfl rfl (by decide) (by decide) rfl rfl
  cases hread

end Lox
