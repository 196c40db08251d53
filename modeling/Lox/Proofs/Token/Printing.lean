import Lox.Proofs.Token.Tiling

/-!
# Lexemes that were printed

Lexemes can be told apart when a separator stands behind each of them. It ends the longest lexeme
there, so every lexeme is found again as it was printed, with the kind and the value that it has
alone. What else is printed in between, a comment or more separators, is skipped.
-/

namespace Lox

/-! ### What is printed between lexemes -/

/-- Separators and complete comments, those in a line with the line feed that ends them. -/
inductive Filler : List Char → Prop where
  | nil : Filler []
  | separator {c : Char} {rest : List Char} (h : isSeparator c = true) (further : Filler rest) :
    Filler (c :: rest)
  | lineComment {body rest : List Char} (h : '\n' ∉ body) (further : Filler rest) :
    Filler ('/' :: '/' :: body ++ '\n' :: rest)
  | blockComment {body rest : List Char} (h : ¬ Closes (body ++ ['*'])) (further : Filler rest) :
    Filler ('/' :: '*' :: body ++ '*' :: '/' :: rest)

/-- A separator, and what else may be printed in front of the next lexeme. -/
inductive Gap : List Char → Prop where
  | of {c : Char} {rest : List Char} (separates : isSeparator c = true) (fills : Filler rest) :
    Gap (c :: rest)

theorem Filler.skipped {gap : List Char} (h : Filler gap) (behind : List Char) :
    Skipped gap behind := by
  induction h with
  | nil => exact .nil behind
  | separator h _ ih => exact .separator h ih
  | lineComment h _ ih => exact .lineComment h (by simp) (.separator rfl ih)
  | blockComment h _ ih => exact .blockComment h ih

theorem Gap.skipped {gap : List Char} (h : Gap gap) (behind : List Char) : Skipped gap behind := by
  obtain ⟨separates, fills⟩ := h
  exact .separator separates (fills.skipped behind)

section
variable {gap behind : List Char} (hskipped : Skipped gap behind)
include hskipped

/-- The next item is found behind what is skipped. -/
theorem Skipped.nextItem {place after : Position} {rest : List Char} {item : Item}
    (h : NextItem (place.past gap) behind item after rest) :
    NextItem place (gap ++ behind) item after rest := by
  induction hskipped generalizing place with
  | nil => exact h
  | separator hseparator _ ih => exact .separator hseparator (ih h)
  | lineComment hbody stops _ ih =>
    rw [Position.past_append] at h
    rw [List.append_assoc]
    exact .lineComment hbody stops (ih h)
  | @blockComment body gap _ hbody _ ih =>
    have hsplit : '/' :: '*' :: body ++ '*' :: '/' :: gap =
        '/' :: '*' :: body ++ ['*', '/'] ++ gap := by simp
    rw [hsplit, Position.past_append] at h
    rw [List.append_assoc, List.cons_append, List.cons_append]
    exact .blockComment hbody (ih h)

theorem Skipped.scans {place : Position} {items : List Item}
    (h : Scans (place.past gap) behind items) : Scans place (gap ++ behind) items := by
  cases h with
  | last next hlast => exact .last (hskipped.nextItem next) hlast
  | more next hlast further => exact .more (hskipped.nextItem next) hlast further

end

/-! ### Lexemes -/

section
variable {kind : TokenKind} {chars : List Char} {value : Option TokenValue} (h : Lexeme kind chars)
include h

theorem Lexeme.not_opensComment : ¬ OpensComment chars := by
  intro hopens
  cases hopens with
  | line | block =>
    rcases h.symbol_or_string rfl with hsymbol | ⟨contents, -, heq⟩
    · cases hsymbol
    · cases heq

theorem Lexeme.longest_alone : Longest kind chars (chars ++ []) where
  lexeme := h
  length_le _ hfront := by simpa using hfront.length_le

variable (denotes : Denotes kind chars value) (place : Position)
include denotes

theorem Lexeme.nextItem_alone :
    NextItem place chars (.ok (.covering place kind chars value)) (place.past chars) [] := by
  have hnext : NextItem place (chars ++ []) _ _ _ :=
    .token (by simpa using h.not_opensComment) h.longest_alone denotes
  rwa [List.append_nil] at hnext

theorem Lexeme.nextItem_gap {gap : List Char} (hgap : Gap gap) (behind : List Char) :
    NextItem place (chars ++ (gap ++ behind)) (.ok (.covering place kind chars value))
      (place.past chars) (gap ++ behind) := by
  obtain ⟨separates, -⟩ := hgap
  exact .token (fun hopens => h.not_opensComment (opensComment_of_append separates hopens h.ne_nil))
    (h.longest_alone.beforeSeparator separates) denotes

end

theorem Scan.ofText_ofList {chars : List Char} {tokens : List Token}
    (h : Scans ⟨0, 1⟩ chars (tokens.map .ok)) : ofText (String.ofList chars) = ⟨tokens, []⟩ := by
  have hitems : items (String.ofList chars) = tokens.map .ok :=
    items_of_scans (by rwa [String.toList_ofList])
  rw [ofText_eq, hitems, ofItems_ok]

/-! ### Printed lexemes -/

/-- A lexeme of any kind, and what is printed behind it. -/
structure Printed where
  lexeme : List Char
  gap : List Char
  isLexeme : ∃ kind, Lexeme kind lexeme
  isGap : Gap gap

namespace Printed

def text (entries : List Printed) : List Char :=
  entries.flatMap fun entry => entry.lexeme ++ entry.gap

/-- The token is the lexeme that was printed. Where it stands aside, it is the one token that there
is when the lexeme is scanned alone. -/
structure Reads (entry : Printed) (token : Token) : Prop where
  lexeme : token.lexeme = String.ofList entry.lexeme
  kind : Lexeme token.kind entry.lexeme
  alone : ∃ alone ending, Scan.ofText (String.ofList entry.lexeme) = ⟨[alone, ending], []⟩ ∧
    ending.isEnd = true ∧ alone.unplaced = token.unplaced

theorem reads_covering (entry : Printed) {kind : TokenKind} {value : Option TokenValue}
    (h : Lexeme kind entry.lexeme) (denotes : Denotes kind entry.lexeme value) (place : Position) :
    entry.Reads (.covering place kind entry.lexeme value) where
  lexeme := rfl
  kind := h
  alone := by
    have hscans : Scans ⟨0, 1⟩ entry.lexeme
        ([.covering ⟨0, 1⟩ kind entry.lexeme value, .atEnd _ _].map .ok) :=
      .more (h.nextItem_alone denotes _) (isLast_covering h) (.last (.ending _) rfl)
    exact ⟨_, _, Scan.ofText_ofList hscans, rfl, rfl⟩

/-- From any place on, the printed lexemes are scanned as one token each. -/
theorem exists_scans_text (entries : List Printed) (place : Position) :
    ∃ tokens ending, Scans place (text entries) ((tokens ++ [ending]).map .ok) ∧
      ending.isEnd = true ∧ List.Forall₂ Reads entries tokens := by
  induction entries generalizing place with
  | nil => exact ⟨[], _, .last (.ending place) rfl, rfl, .nil⟩
  | cons entry entries ih =>
    obtain ⟨kind, hkind⟩ := entry.isLexeme
    obtain ⟨value, hvalue⟩ := hkind.exists_denotes
    obtain ⟨tokens, ending, hscans, hending, hreads⟩ :=
      ih ((place.past entry.lexeme).past entry.gap)
    have hbehind := (entry.isGap.skipped (text entries)).scans hscans
    have hnext := hkind.nextItem_gap hvalue place entry.isGap (text entries)
    rw [← List.append_assoc] at hnext
    exact ⟨.covering place kind entry.lexeme value :: tokens, ending,
      .more hnext (isLast_covering hkind) hbehind, hending,
      .cons (entry.reads_covering hkind hvalue place) hreads⟩

end Printed

/-- Scanning undoes printing. Lexemes of any kinds, each with a separator printed behind it and any
separators and complete comments behind this, are scanned without errors into just these lexemes, in
order, and the end. Each of them has the kind and the value that it has when it is scanned alone. -/
theorem scan_undoes_printing (entries : List Printed) :
    ∃ tokens ending, Scan.ofText (String.ofList (Printed.text entries)) = ⟨tokens ++ [ending], []⟩ ∧
      ending.isEnd = true ∧ List.Forall₂ Printed.Reads entries tokens := by
  obtain ⟨tokens, ending, hscans, hending, hreads⟩ := Printed.exists_scans_text entries ⟨0, 1⟩
  exact ⟨tokens, ending, Scan.ofText_ofList hscans, hending, hreads⟩

/-- A string with the mark of a comment in it, comments of both sorts, and operators that would be one
without what is between them. -/
private def commented : List Printed := [
  ⟨['"', '/', '*', 'é', '"'], [' ', '/', '/', '\n'],
    ⟨.string, @Lexeme.string ['/', '*', 'é'] (by decide)⟩,
    .of rfl (.lineComment List.not_mem_nil .nil)⟩,
  ⟨['<'], ['\t', '/', '*', '*', '/'], ⟨.less, .symbol rfl⟩,
    .of rfl (@Filler.blockComment [] [] (by rw [Closes]; decide) .nil)⟩,
  ⟨['='], ['\n'], ⟨.equal, .symbol rfl⟩, .of rfl .nil⟩]

theorem scan_undoes_printing_commented : ∃ tokens,
    Scan.ofText "\"/*é\" //\n<\t/**/=\n" = ⟨tokens ++ [.atEnd 18 3], []⟩ ∧
      tokens.map (·.kind) = [.string, .less, .equal] ∧
      List.Forall₂ Printed.Reads commented tokens := by
  have htext : String.ofList (Printed.text commented) = "\"/*é\" //\n<\t/**/=\n" := by cbv
  have hscan : Scan.ofText "\"/*é\" //\n<\t/**/=\n" =
      ⟨[⟨.string, "\"/*é\"", some (.text "/*é"), ⟨0, 6⟩, 1⟩, ⟨.less, "<", none, ⟨10, 1⟩, 2⟩,
        ⟨.equal, "=", none, ⟨16, 1⟩, 2⟩] ++ [.atEnd 18 3], []⟩ := by cbv
  obtain ⟨tokens, ending, hfound, -, hreads⟩ := scan_undoes_printing commented
  rw [htext, hscan, Scan.mk.injEq] at hfound
  obtain ⟨rfl, -⟩ := List.append_inj' hfound.1 rfl
  exact ⟨_, hscan, rfl, hreads⟩

end Lox
