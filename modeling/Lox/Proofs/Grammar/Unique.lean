import Lox.Proofs.Grammar.Programs
import Lox.Proofs.Syntax.Entries

/-!
# What tokens begin with

Tokens begin with one expression at most, and with one statement, since what they begin with is what
the rules read there. So where it is known how tokens were written, a derivation over the same
tokens can only be put together of the same parts, whatever levels it leaves free for them, and the
entries of a block can be taken one by one.
-/

namespace Lox

namespace Grammar

variable {α : Type}

/-- A rule parses one thing at most at the front of tokens. -/
theorem Parses.unique {inBody : Bool} {nesting : Nat} {rule : Rule α} {shape : Shape α}
    (h : Parses inBody nesting rule shape) {ending : Token} (hending : ending.kind = .eof)
    {value other : α} {tokens others tail rest : List Token}
    (hvalue : shape value tokens (tail.headD ending))
    (hother : shape other others (rest.headD ending)) (hsame : tokens ++ tail = others ++ rest) :
    value = other ∧ tokens = others ∧ tail = rest := by
  let before : State :=
    { rest := tokens ++ tail, ending, nesting, functionDepth := if inBody then 1 else 0 }
  have hinside : before.Inside inBody nesting := ⟨hending, rfl, by cases inBody <;> simp [before]⟩
  have hrun := h.complete hinside rfl hvalue
  rw [h.complete hinside hsame hother] at hrun
  injection hrun with hvalues hstates
  obtain rfl : rest = tail := congrArg State.rest hstates
  exact ⟨hvalues.symm, List.append_cancel_right hsame, rfl⟩

end Grammar

open Grammar

variable {levels more : Nat} {tokens others tail rest : List Token}

/-- Tokens up to one that cannot go on with an expression are one expression at most. -/
theorem Expression.Spelled.unique {value other : Expression} {stop last : Token}
    (h : value.Spelled levels tokens) (hother : other.Spelled more others)
    (hlevels : levels ≤ maxNesting) (hmore : more ≤ maxNesting)
    (hstop : stop.kind.continues? = none) (hlast : last.kind.continues? = none)
    (hsame : tokens ++ stop :: tail = others ++ last :: rest) :
    value = other ∧ tokens = others ∧ stop = last ∧ tail = rest := by
  have hparses : Parses true 0 (expression maxNesting) _ := parses_expression (Nat.le_refl _)
  have hshape {found : Expression} {spelling : List Token} {ahead : Token}
      (hfound : found.Spelled maxNesting spelling) (hahead : ahead.kind.continues? = none)
      (behind : List Token) : Shape.expression maxNesting found spelling
        ((ahead :: behind).headD (.atEnd 0 0)) := ⟨hfound, .of_none 0 hahead⟩
  obtain ⟨hvalue, htokens, htail⟩ := hparses.unique rfl (hshape (h.mono hlevels) hstop tail)
    (hshape (hother.mono hmore) hlast rest) hsame
  exact ⟨hvalue, htokens, List.cons.inj htail⟩

namespace Statement

variable {inBody within dangling hanging : Bool} {statement other : Statement} {ending : Token}

theorem VarWritten.unique (h : VarWritten levels statement tokens)
    (hother : VarWritten more other others) (hlevels : levels ≤ maxNesting)
    (hmore : more ≤ maxNesting) (hsame : tokens ++ tail = others ++ rest) :
    statement = other ∧ tokens = others ∧ tail = rest := by
  have hparses : Parses true 0 (varDeclaration (Grammar.expression maxNesting)) _ :=
    parses_varDeclaration (parses_expression (Nat.le_refl _))
  have hending : (Token.atEnd 0 0).kind = .eof := rfl
  exact hparses.unique hending (h.mono hlevels) (hother.mono hmore) hsame

/-- Tokens in front of no `else` begin with one statement at most. -/
theorem Written.unique (h : Written inBody levels dangling statement tokens)
    (hother : Written within more hanging other others) (hlevels : levels ≤ maxNesting)
    (hmore : more ≤ maxNesting) (hending : ending.kind = .eof)
    (htail : (tail.headD ending).kind ≠ .keyword .elseWord)
    (hrest : (rest.headD ending).kind ≠ .keyword .elseWord)
    (hsame : tokens ++ tail = others ++ rest) :
    statement = other ∧ tokens = others ∧ tail = rest := by
  have hparses := (parses_levels maxNesting true 0 (Nat.le_refl _)).1
  exact hparses.unique hending ⟨dangling, h.mono (fun _ => rfl) hlevels, fun _ => htail⟩
    ⟨hanging, hother.mono (fun _ => rfl) hmore, fun _ => hrest⟩ hsame

/-! ### Entries one by one -/

/-- What stands behind the entries of a block or a program. -/
def EntriesEnd (ending : Token) (tail : List Token) : Prop :=
  (tail.headD ending).kind = .rightBrace ∨ (tail.headD ending).kind = .eof

theorem EntriesEnd.opensEntry_eq_false (h : EntriesEnd ending tail) :
    (tail.headD ending).kind.opensEntry = false := by
  obtain h | h := h <;> rw [h] <;> rfl

theorem EntriesEnd.ne_else (h : EntriesEnd ending tail) :
    (tail.headD ending).kind ≠ .keyword .elseWord := by
  obtain h | h := h <;> rw [h] <;> decide

variable {body : List Statement} {inside : List Token}

theorem AllListed.eq_nil_of_end (h : AllListed inBody levels body inside)
    (hrest : EntriesEnd ending rest) (hsame : inside ++ tail = rest) : body = [] ∧ tail = rest := by
  cases h with
  | nil => exact ⟨rfl, hsame⟩
  | cons listed listedRest =>
    obtain ⟨token, more, rfl, hopens⟩ := listed.exists_first
    have hclosed := hrest.opensEntry_eq_false
    rw [← hsame] at hclosed
    exact absurd hopens (by simpa using hclosed)

/-- The first entry is the one that begins with the first token, and other entries are behind it. -/
theorem AllListed.exists_cons {first : Token} (h : AllListed inBody levels body inside)
    (htail : EntriesEnd ending tail) (hopens : first.kind.opensEntry = true)
    (hsame : inside ++ tail = first :: rest) :
    ∃ (statement : Statement) (entries : List Statement) (dangling : Bool) (back behind : List Token),
      body = statement :: entries ∧ Listed inBody levels dangling statement (first :: back) ∧
        AllListed inBody levels entries behind ∧ rest = back ++ (behind ++ tail) := by
  cases h with
  | nil =>
    have hclosed := htail.opensEntry_eq_false
    rw [show tail = first :: rest from hsame, List.headD_cons, hopens] at hclosed
    cases hclosed
  | @cons _ dangling _ statement entries _ behind listed listedRest =>
    obtain ⟨token, back, rfl, -⟩ := listed.exists_first
    rw [List.cons_append, List.cons_append, List.append_assoc] at hsame
    obtain ⟨rfl, rfl⟩ := List.cons.inj hsame
    exact ⟨statement, entries, dangling, back, behind, rfl, listed, listedRest, rfl⟩

section
variable (h : AllListed inBody levels body inside) (hlevels : levels ≤ maxNesting)
  (htail : EntriesEnd ending tail)
include h hlevels htail

theorem AllListed.cons_of_var {declaration : Statement} (keyword : Mark (.keyword .varWord))
    (hwritten : VarWritten maxNesting declaration tokens)
    (hsame : inside ++ tail = keyword.token :: (tokens ++ rest)) :
    ∃ (entries : List Statement) (behind : List Token), body = declaration :: entries ∧
      VarWritten levels declaration tokens ∧ AllListed inBody levels entries behind ∧
        behind ++ tail = rest := by
  have hopens : keyword.token.kind.opensEntry = true := by
    rw [keyword.isKind]
    rfl
  obtain ⟨found, entries, dangling, back, behind, rfl, listed, listedRest, hback⟩ :=
    h.exists_cons htail hopens hsame
  have hfound := listed.varWritten_of_keyword keyword.isKind
  obtain ⟨rfl, rfl, hbehind⟩ :=
    hfound.unique hwritten hlevels (Nat.le_refl _) hback.symm
  exact ⟨entries, behind, rfl, hfound, listedRest, hbehind⟩

theorem AllListed.cons_of_expression {value : Expression} (semicolon : Mark .semicolon)
    (hspelled : value.Spelled maxNesting tokens)
    (hsame : inside ++ tail = tokens ++ semicolon.token :: rest) :
    ∃ (fewer : Nat) (entries : List Statement) (behind : List Token), levels = fewer + 1 ∧
      body = .expression value :: entries ∧ value.Spelled fewer tokens ∧
        AllListed inBody levels entries behind ∧ behind ++ tail = rest := by
  obtain ⟨first, others, hfirst, hopens⟩ := hspelled.exists_first
  have hentry : first.kind.opensEntry = true := by simp [TokenKind.opensEntry, hopens]
  rw [hfirst, List.cons_append] at hsame
  obtain ⟨found, entries, dangling, back, behind, rfl, listed, listedRest, hback⟩ :=
    h.exists_cons htail hentry hsame
  obtain ⟨fewer, other, spelling, last, rfl, rfl, hother, hsplit⟩ :=
    listed.expression_of_opensExpression hopens
  have hwhole : spelling ++ last.token :: (behind ++ tail) = tokens ++ semicolon.token :: rest := by
    rw [hfirst, List.cons_append, hback, List.append_cons, ← hsplit, List.cons_append]
  obtain ⟨rfl, rfl, -, hbehind⟩ := hother.unique hspelled (Nat.le_of_succ_le hlevels)
    (Nat.le_refl _) (by rw [last.isKind]; rfl) (by rw [semicolon.isKind]; rfl) hwhole
  exact ⟨fewer, entries, behind, rfl, rfl, hother, listedRest, hbehind⟩

theorem AllListed.cons_of_initializer {initial : Statement}
    (hwritten : InitializerWritten maxNesting (some initial) tokens)
    (hsame : inside ++ tail = tokens ++ rest) :
    ∃ (entries : List Statement) (behind : List Token), body = initial :: entries ∧
      InitializerWritten levels (some initial) tokens ∧ AllListed inBody levels entries behind ∧
        behind ++ tail = rest := by
  cases hwritten with
  | var keyword written =>
    obtain ⟨entries, behind, rfl, hvar, listed, hbehind⟩ :=
      h.cons_of_var hlevels htail keyword written hsame
    exact ⟨entries, behind, rfl, .var keyword hvar, listed, hbehind⟩
  | expression spelled semicolon =>
    rw [List.append_assoc] at hsame
    obtain ⟨fewer, entries, behind, rfl, rfl, hvalue, listed, hbehind⟩ :=
      h.cons_of_expression hlevels htail semicolon spelled hsame
    exact ⟨entries, behind, rfl, .expression (hvalue.mono (Nat.le_succ _)) semicolon, listed,
      hbehind⟩

theorem AllListed.cons_of_written (hending : ending.kind = .eof)
    (hwritten : Written within maxNesting hanging statement tokens)
    (hrest : (rest.headD ending).kind ≠ .keyword .elseWord)
    (hsame : inside ++ tail = tokens ++ rest) :
    ∃ (entries : List Statement) (dangling : Bool) (behind : List Token),
      body = statement :: entries ∧ Written inBody levels dangling statement tokens ∧
        AllListed inBody levels entries behind ∧ behind ++ tail = rest := by
  obtain ⟨first, others, rfl, hopens⟩ := hwritten.exists_first
  have hentry : first.kind.opensEntry = true := by simp [TokenKind.opensEntry, hopens]
  obtain ⟨found, entries, dangling, back, behind, rfl, listed, listedRest, hback⟩ :=
    h.exists_cons htail hentry hsame
  have hfound := listed.written_of_opens hopens
  have hwhole : first :: back ++ (behind ++ tail) = first :: others ++ rest :=
    congrArg (first :: ·) hback.symm
  have helse : ((behind ++ tail).headD ending).kind ≠ .keyword .elseWord :=
    listedRest.headD_ne rfl htail.ne_else
  obtain ⟨rfl, hsplit, hbehind⟩ :=
    hfound.unique hwritten hlevels (Nat.le_refl _) hending helse hrest hwhole
  exact ⟨entries, dangling, behind, rfl, hsplit ▸ hfound, listedRest, hbehind⟩

end

end Statement

end Lox
