import Lox.Proofs.Grammar.Declarations

/-!
# Programs without errors

A list of tokens is read as a program, without an error, just if it is the writing of a list of
entries, and these are the declarations of the program. So nothing of such a list is lost on the
way, and nothing is made up.
-/

namespace Lox

namespace Grammar

variable {budget : List Token} {earlier : Array (Option Statement)} {before : State}

theorem declarations_of_end (h : before.ahead.kind = .eof) :
    declarations budget earlier before = .ok earlier.toList before := by
  cases budget with
  | nil => rfl
  | cons _ budget =>
    rw [declarations, bind_of_ok (peek_apply before), if_pos (by simp [Token.isEnd, h]), pure_apply]

theorem declarations_of_other {spare : Token} (h : before.ahead.kind ≠ .eof) :
    declarations (spare :: budget) earlier before =
      (do
        let found ← declaration maxNesting
        declarations budget (earlier.push found)) before := by
  rw [declarations, bind_of_ok (peek_apply before), if_neg (by simp [Token.isEnd, h])]

theorem steady_declarations (budget : List Token) (earlier : Array (Option Statement)) :
    Steady (declarations budget earlier) := by
  have hdeclaration : Steady (declaration maxNesting) :=
    (show Parses false 0 _ _ from parses_declaration (by decide)).steady
  induction budget generalizing earlier with
  | nil => exact steady_pure _
  | cons _ budget ih =>
    exact steady_peek.bind fun _ => .ite (steady_pure _) (hdeclaration.bind fun _ => ih _)

theorem declarations_sound {budget : List Token} : ∀ {earlier : Array (Option Statement)}
    {before after : State} {values : List (Option Statement)},
    declarations budget earlier before = .ok values after → before.Inside false 0 →
    (∀ token ∈ before.rest, token.kind ≠ .eof) → before.rest.length ≤ budget.length →
    after.errors = before.errors → ∃ statements : List Statement,
      values = earlier.toList ++ statements.map some ∧
        Statement.AllListed false maxNesting statements before.rest := by
  induction budget with
  | nil =>
    intro earlier before after values hrun _ _ hbudget _
    cases hrun
    rw [List.length_eq_zero_iff.1 (Nat.le_zero.1 hbudget)]
    exact ⟨[], by simp, .nil⟩
  | cons spare budget ih =>
    intro earlier before after values hrun hinside hopen hbudget hclean
    cases hrest : before.rest with
    | nil =>
      rw [declarations_of_end (by simp [State.ahead, hrest, hinside.ending_kind])] at hrun
      cases hrun
      exact ⟨[], by simp, .nil⟩
    | cons token others =>
      have hahead : before.ahead.kind ≠ .eof := by
        rw [State.ahead_of_rest hrest]
        exact hopen token (by simp [hrest])
      rw [declarations_of_other hahead] at hrun
      obtain ⟨found, between, hfound, hmore⟩ := bind_eq_ok.1 hrun
      have hparses : Parses false 0 (declaration maxNesting) _ := parses_declaration (by decide)
      obtain ⟨hbetween, hafter⟩ := (hparses.steady.of_ok hfound).errors_eq
        ((steady_declarations _ _).of_ok hmore) hclean
      obtain ⟨tokens, tail, ⟨statement, rfl, dangling, hlisted, -⟩, hsplit, rfl⟩ :=
        hparses.sound hfound hinside hbetween
      -- An entry has a token at least, so the rounds that are left suffice for what is behind it.
      obtain ⟨first, _, rfl, -⟩ := hlisted.exists_first
      have htail : tail.length ≤ budget.length := by
        rw [hsplit] at hbudget
        simp at hbudget
        omega
      obtain ⟨statements, rfl, hall⟩ := ih hmore (hinside.to tail)
        (fun token htoken => hopen token (by rw [hsplit]; exact List.mem_append_right _ htoken))
        htail hafter
      rw [← hrest, hsplit]
      exact ⟨statement :: statements, by simp, .cons hlisted hall⟩

/-- The entries at the front of what is left are read one by one, and reading goes on behind them. -/
theorem declarations_front : ∀ {statements : List Statement} {tokens tail budget : List Token}
    (earlier : Array (Option Statement)) {before : State}, before.Inside false 0 →
    Statement.AllListed false maxNesting statements tokens → before.rest = tokens ++ tail →
    (tail.headD before.ending).kind ≠ .keyword .elseWord →
    tokens.length + tail.length ≤ budget.length →
    ∃ rounds : List Token, tail.length ≤ rounds.length ∧ declarations budget earlier before =
      declarations rounds (earlier ++ (statements.map some).toArray) (before.to tail) := by
  intro statements
  induction statements with
  | nil =>
    intro tokens tail budget earlier before _ hall hrest _ hbudget
    cases hall
    obtain rfl : before.rest = tail := hrest
    exact ⟨budget, by simpa using hbudget, by simp⟩
  | cons statement statements ih =>
    intro tokens tail budget earlier before hinside hall hrest helse hbudget
    cases hall with
    | @cons _ dangling _ _ _ first others hlisted hothers =>
      obtain ⟨token, rest, hfirst, hopens⟩ := hlisted.exists_first
      cases budget with
      | nil => simp [hfirst] at hbudget
      | cons spare budget =>
        have hahead : before.ahead = token := State.ahead_of_rest (by rw [hrest, hfirst]; rfl)
        have hstop := hothers.headD_ne rfl helse
        rw [List.append_assoc] at hrest
        have hparses : Parses false 0 (declaration maxNesting) _ := parses_declaration (by decide)
        have hread := hparses.complete hinside hrest
          ⟨statement, rfl, dangling, hlisted, fun _ => hstop⟩
        have hlength : others.length + tail.length ≤ budget.length := by
          simp [hfirst] at hbudget
          omega
        obtain ⟨rounds, hrounds, hmore⟩ := ih (earlier.push (some statement))
          (hinside.to (others ++ tail)) hothers rfl helse hlength
        refine ⟨rounds, hrounds, ?_⟩
        rw [declarations_of_other (hahead ▸ TokenKind.ne_of_opensEntry hopens rfl), bind_of_ok hread,
          hmore]
        simp

theorem declarations_complete {statements : List Statement} {tokens budget : List Token}
    {earlier : Array (Option Statement)} {before : State} (hinside : before.Inside false 0)
    (hall : Statement.AllListed false maxNesting statements tokens) (hrest : before.rest = tokens)
    (hbudget : tokens.length ≤ budget.length) :
    declarations budget earlier before =
      .ok (earlier.toList ++ statements.map some) (before.to []) := by
  have hend : (before.to []).ahead.kind = .eof := hinside.ending_kind
  obtain ⟨rounds, -, hdone⟩ := declarations_front earlier hinside hall
    ((List.append_nil tokens).symm ▸ hrest) (by simp [hinside.ending_kind]) (by simpa using hbudget)
  rw [hdone, declarations_of_end hend]
  simp

end Grammar

open Grammar

section
variable {tokens : List Token} {ending : Token} (hending : ending.kind = .eof)
  (htokens : ∀ token ∈ tokens, token.kind ≠ .eof)
include hending htokens

theorem allListed_of_ofTokens {declarations : List (Option Statement)}
    (hrun : Program.ofTokens (tokens ++ [ending]) = .ok ⟨declarations, []⟩) :
    ∃ statements : List Statement, declarations = statements.map some ∧
      Statement.AllListed false maxNesting statements tokens := by
  unfold Program.ofTokens at hrun
  rw [State.ofTokens_append hending htokens] at hrun
  split at hrun
  case h_1 values after heq =>
    injection hrun with hrun
    injection hrun with hvalues herrors
    subst hvalues
    obtain ⟨statements, hstatements, hall⟩ := declarations_sound heq
      ⟨hending, rfl, by simp⟩ htokens (by simp) (by simpa using herrors)
    exact ⟨statements, by simpa using hstatements, hall⟩
  case h_2 => simp at hrun
  case h_3 => cases hrun

theorem ofTokens_of_allListed {statements : List Statement}
    (hall : Statement.AllListed false maxNesting statements tokens) :
    Program.ofTokens (tokens ++ [ending]) = .ok ⟨statements.map some, []⟩ := by
  unfold Program.ofTokens
  rw [State.ofTokens_append hending htokens,
    declarations_complete ⟨hending, rfl, by simp⟩ hall rfl (by simp)]
  simp

end

/-- Tokens in front of an end are read as a program without an error just if they are the writing of
its declarations, and then none of these is missing. -/
theorem ofTokens_accepts_grammar {tokens : List Token} {ending : Token}
    (hending : ending.kind = .eof) (htokens : ∀ token ∈ tokens, token.kind ≠ .eof) :
    (∀ statements : List Statement,
        Program.ofTokens (tokens ++ [ending]) = .ok ⟨statements.map some, []⟩ ↔
          Statement.AllListed false maxNesting statements tokens) ∧
      ∀ declarations, Program.ofTokens (tokens ++ [ending]) = .ok ⟨declarations, []⟩ →
        ∃ statements : List Statement, declarations = statements.map some := by
  refine ⟨fun statements => ⟨fun hrun => ?_, ofTokens_of_allListed hending htokens⟩,
    fun declarations hrun => ?_⟩
  · obtain ⟨others, hothers, hall⟩ := allListed_of_ofTokens hending htokens hrun
    rw [List.map_inj_right (fun _ _ => Option.some.inj)] at hothers
    rwa [hothers]
  · obtain ⟨statements, hstatements, -⟩ := allListed_of_ofTokens hending htokens hrun
    exact ⟨statements, hstatements⟩

/-- The tokens of `fun f(a) { for (;;) if (a) return a; else print a; }`. -/
private def endless : List Token :=
  [(Mark.plain (.keyword .funWord) "fun" 1).token, (Mark.plain .identifier "f" 2).token,
    (Mark.plain .leftParen "(" 3).token, (Mark.plain .identifier "a" 4).token,
    (Mark.plain .rightParen ")" 5).token, (Mark.plain .leftBrace "\x7b" 6).token,
    (Mark.plain (.keyword .forWord) "for" 7).token, (Mark.plain .leftParen "(" 8).token,
    (Mark.plain .semicolon ";" 9).token, (Mark.plain .semicolon ";" 10).token,
    (Mark.plain .rightParen ")" 11).token, (Mark.plain (.keyword .ifWord) "if" 12).token,
    (Mark.plain .leftParen "(" 13).token, (Mark.plain .identifier "a" 14).token,
    (Mark.plain .rightParen ")" 15).token, (Mark.plain (.keyword .returnWord) "return" 16).token,
    (Mark.plain .identifier "a" 17).token, (Mark.plain .semicolon ";" 18).token,
    (Mark.plain (.keyword .elseWord) "else" 19).token,
    (Mark.plain (.keyword .printWord) "print" 20).token, (Mark.plain .identifier "a" 21).token,
    (Mark.plain .semicolon ";" 22).token, (Mark.plain .rightBrace "\x7d" 23).token]

theorem ofTokens_accepts_grammar_endless :
    (Token.atEnd 0 24).kind = .eof ∧ (∀ token ∈ endless, token.kind ≠ .eof) ∧
      Program.ofTokens (endless ++ [.atEnd 0 24]) = .ok ⟨[some (.funDecl ⟨"f", 2⟩ [⟨"a", 4⟩]
        [.whileLoop ⟨#[.literal (.bool true)], 0⟩ (.ifElse ⟨#[.var ⟨"a", 14⟩], 0⟩
          (.returnWith (some ⟨#[.var ⟨"a", 17⟩], 0⟩) 16) (.print ⟨#[.var ⟨"a", 21⟩], 0⟩))])], []⟩ := by
  have hending : (Token.atEnd 0 24).kind = .eof := rfl
  have htokens : ∀ token ∈ endless, token.kind ≠ .eof := by decide
  have hvar (levels line : Nat) : Expression.Spelled (levels + 1) ⟨#[.var ⟨"a", line⟩], 0⟩
      [(Mark.plain .identifier "a" line).token] :=
    ⟨.var ⟨"a", line⟩, ⟨.var (.plain .identifier "a" line), trivial, trivial, Nat.succ_pos _⟩, rfl⟩
  refine ⟨hending, htokens, ((ofTokens_accepts_grammar hending htokens).1 [_]).2 ?_⟩
  have hreturn : Statement.Written true 197 false _ _ :=
    .behind (Mark.plain (.keyword .returnWord) "return" 16).token
      (.returnWith (.some (hvar 195 17)) (.plain .semicolon ";" 18))
  have hprint : Statement.Written true 197 false _ _ :=
    .behind (Mark.plain (.keyword .printWord) "print" 20).token
      (.print (hvar 195 21) (.plain .semicolon ";" 22))
  have hif : Statement.Written true 198 false _ _ :=
    .behind (Mark.plain (.keyword .ifWord) "if" 12).token
      (.ifElse (.plain .leftParen "(" 13) (hvar 196 14) (.plain .rightParen ")" 15) hreturn
        (.plain (.keyword .elseWord) "else" 19) hprint)
  have hfor : Statement.Written true 199 false _ _ :=
    .behind (Mark.plain (.keyword .forWord) "for" 7).token
      (.forLoop (.plain .leftParen "(" 8) (.none (.plain .semicolon ";" 9)) .none
        (.plain .semicolon ";" 10) .none (.plain .rightParen ")" 11) hif)
  have hparameters : Separated
      ([Mark.plain .identifier "a" 4].map fun mark : Mark .identifier => [mark.token]) _ := .last _
  exact .cons (.function (.plain (.keyword .funWord) "fun" 1)
    (.mk (.plain .identifier "f" 2) (.plain .leftParen "(" 3) hparameters (by decide)
      (.plain .rightParen ")" 5) (.plain .leftBrace "\x7b" 6) (.cons (.statement hfor) .nil)
      (.plain .rightBrace "\x7d" 23))) .nil

end Lox
