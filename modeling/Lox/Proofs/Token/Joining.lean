import Mathlib
import Lox.Proofs.Token.Items

/-!
# Two texts, one behind the other

A line feed between two texts keeps them apart: no lexeme of the first text grows across it, and a
comment in a line ends there at the latest. So unless the first text ends inside a string or a block
comment, the whole has the items of the first text, without its end, and then those of the second
one, each so many bytes and lines further on as there are in front of the second text. The counter of
lines may start over on the way, so it is the numbers that it has for these lines that are found.

What an item is does not depend on its place. `unplaced` forgets the place.
-/

namespace Lox

/-- The token with nothing said about where it stands. -/
def Token.unplaced (token : Token) : Token :=
  { token with span := ⟨0, 0⟩, line := 0 }

/-- What an item is, wherever it stands. -/
def Item.unplaced : Item → Except LexicalError.Cause Token
  | .ok token => .ok token.unplaced
  | .error error => .error error.cause

/-! ### The line counter -/

namespace Position

variable (place : Position) (text : List Char)

theorem next_eq (c : Char) : place.next c =
    ⟨place.offset + c.utf8Size, if c = '\n' then (place.line + 1) % 2 ^ 32 else place.line⟩ :=
  rfl

/-- Behind a text the counter has gone on by one for each line feed, and may have started over. -/
theorem line_past (h : place.line < 2 ^ 32) :
    (place.past text).line = (place.line + text.count '\n') % 2 ^ 32 := by
  induction text generalizing place with
  | nil => exact (Nat.mod_eq_of_lt h).symm
  | cons c text ih =>
    rw [past_cons, List.count_cons]
    by_cases hfeed : c = '\n'
    · have hnext : (place.next c).line = (place.line + 1) % 2 ^ 32 := if_pos hfeed
      have hbound : (place.next c).line < 2 ^ 32 := hnext ▸ Nat.mod_lt _ (Nat.two_pow_pos 32)
      rw [ih _ hbound, hnext, Nat.mod_add_mod, if_pos (beq_iff_eq.2 hfeed)]
      congr 1
      omega
    · have hnext : (place.next c).line = place.line := if_neg hfeed
      rw [ih _ (hnext ▸ h), hnext, if_neg (by simpa using hfeed), Nat.add_zero]

/-- Where there are numbers enough for the lines, the counter tells the line feeds. -/
theorem line_past_of_lt (h : place.line + text.count '\n' < 2 ^ 32) :
    (place.past text).line = place.line + text.count '\n' := by
  rw [line_past place text (Nat.lt_of_le_of_lt (Nat.le_add_right _ _) h), Nat.mod_eq_of_lt h]

end Position

/-! ### Places further on -/

section
variable (bytes lines : Nat)

/-- The place so many bytes and lines further on, with the number that the counter has there. -/
def Position.shifted (place : Position) : Position :=
  ⟨place.offset + bytes, (place.line + lines) % 2 ^ 32⟩

/-- The token so many bytes and lines further on. -/
def Token.shifted (token : Token) : Token :=
  { token with span := ⟨token.span.start + bytes, token.span.length⟩, line := token.line + lines }

def LexicalError.shifted (error : LexicalError) : LexicalError :=
  { error with span := ⟨error.span.start + bytes, error.span.length⟩, line := error.line + lines }

def Item.shifted : Item → Item
  | .ok token => .ok (token.shifted bytes lines)
  | .error error => .error (error.shifted bytes lines)

/-- The token with the number that the counter has for its line. -/
def Token.wrapped (token : Token) : Token :=
  { token with line := token.line % 2 ^ 32 }

def LexicalError.wrapped (error : LexicalError) : LexicalError :=
  { error with line := error.line % 2 ^ 32 }

def Item.wrapped : Item → Item
  | .ok token => .ok token.wrapped
  | .error error => .error error.wrapped

@[simp] theorem isLast_shifted (item : Item) : isLast (item.shifted bytes lines) = isLast item := by
  cases item <;> rfl

@[simp] theorem isLast_wrapped (item : Item) : isLast item.wrapped = isLast item := by
  cases item <;> rfl

@[simp] theorem Item.unplaced_shifted (item : Item) :
    (item.shifted bytes lines).unplaced = item.unplaced := by
  cases item <;> rfl

@[simp] theorem Item.unplaced_wrapped (item : Item) : item.wrapped.unplaced = item.unplaced := by
  cases item <;> rfl

variable (place : Position)

theorem Position.shifted_next (c : Char) :
    (place.next c).shifted bytes lines = (place.shifted bytes lines).next c := by
  simp only [next_eq, shifted, Position.mk.injEq]
  constructor
  · omega
  · split <;> omega

theorem Position.shifted_past (text : List Char) :
    (place.past text).shifted bytes lines = (place.shifted bytes lines).past text := by
  induction text generalizing place with
  | nil => rfl
  | cons c text ih => rw [past_cons, ih, shifted_next, past_cons]

theorem Position.between_shifted (text : List Char) :
    Span.between (place.shifted bytes lines).offset ((place.shifted bytes lines).past text).offset =
      ⟨(Span.between place.offset (place.past text).offset).start + bytes,
        (Span.between place.offset (place.past text).offset).length⟩ := by
  rw [← shifted_past]
  simp only [Span.between, shifted, Nat.add_sub_add_right]

theorem Token.covering_shifted (kind : TokenKind) (chars : List Char) (value : Option TokenValue) :
    covering (place.shifted bytes lines) kind chars value =
      ((covering place kind chars value).shifted bytes lines).wrapped := by
  rw [covering, Position.between_shifted]
  rfl

theorem LexicalError.covering_shifted (cause : LexicalError.Cause) (chars : List Char) :
    covering (place.shifted bytes lines) cause chars =
      ((covering place cause chars).shifted bytes lines).wrapped := by
  rw [covering, Position.between_shifted]
  rfl

end

section
variable {place after : Position} {text rest : List Char} {item : Item}

/-- Further on, a text has the same item further on. -/
theorem NextItem.shifted (h : NextItem place text item after rest) (bytes lines : Nat) :
    NextItem (place.shifted bytes lines) text (item.shifted bytes lines).wrapped
      (after.shifted bytes lines) rest := by
  induction h with
  | separator h _ ih =>
    rw [Position.shifted_next] at ih
    exact .separator h ih
  | lineComment h stops _ ih =>
    rw [Position.shifted_past] at ih
    exact .lineComment h stops ih
  | blockComment h _ ih =>
    rw [Position.shifted_past] at ih
    exact .blockComment h ih
  | token h longest denotes =>
    rw [Item.shifted, Item.wrapped, Position.shifted_past, ← Token.covering_shifted]
    exact .token h longest denotes
  | unclosedString h =>
    rw [Item.shifted, Item.wrapped, Position.shifted_past, ← LexicalError.covering_shifted]
    exact .unclosedString h
  | unclosedComment h =>
    rw [Item.shifted, Item.wrapped, Position.shifted_past, ← LexicalError.covering_shifted]
    exact .unclosedComment h
  | unrecognized hseparator hquote h =>
    rw [Item.shifted, Item.wrapped, Position.shifted_next, ← LexicalError.covering_shifted]
    exact .unrecognized hseparator hquote h
  | ending place =>
    have hending := NextItem.ending (place.shifted bytes lines)
    simpa [Item.shifted, Item.wrapped, Token.shifted, Token.wrapped, Token.atEnd,
      Position.shifted] using hending

theorem Scans.shifted {items : List Item} (h : Scans place text items) (bytes lines : Nat) :
    Scans (place.shifted bytes lines) text
      (items.map fun item => (item.shifted bytes lines).wrapped) := by
  induction h with
  | last next h =>
    exact .last (next.shifted bytes lines) (by rwa [isLast_wrapped, isLast_shifted])
  | more next h _ ih =>
    exact .more (next.shifted bytes lines) (by rwa [isLast_wrapped, isLast_shifted]) ih

/-- What is left behind an item leads to where the whole text does. -/
theorem NextItem.past_rest (h : NextItem place text item after rest) :
    after.past rest = place.past text := by
  induction h with
  | separator _ _ ih | lineComment _ _ _ ih | blockComment _ _ ih => simpa using ih
  | token => exact (Position.past_append _ _ _).symm
  | unclosedString | unclosedComment | unrecognized | ending => rfl

end

/-! ### Lexemes in front of a separator -/

/-- A separator is part of no lexeme but a string. -/
theorem Lexeme.exists_string {kind : TokenKind} {chars : List Char} (h : Lexeme kind chars) {c : Char}
    (hmem : c ∈ chars) (hseparator : isSeparator c = true) :
    kind = .string ∧ ∃ contents, '"' ∉ contents ∧ chars = '"' :: contents ++ ['"'] := by
  have hdigit : c.isDigit = true → False := fun hdigit => by
    simp [isSeparator_of_isWordPart (isWordPart_of_isDigit hdigit)] at hseparator
  cases h with
  | symbol h =>
    have hall : ∀ d ∈ chars, isSeparator d = false := by
      unfold TokenKind.ofSymbol at h
      split at h <;> cases h <;> simp [isSeparator]
    simp [hall c hmem] at hseparator
  | whole h => exact (hdigit (h.2 _ hmem)).elim
  | fractional hdigits hfraction =>
    rcases List.mem_append.1 hmem with hmem | hmem
    · exact (hdigit (hdigits.2 _ hmem)).elim
    · rcases List.mem_cons.1 hmem with rfl | hmem
      · cases hseparator
      · exact (hdigit (hfraction.2 _ hmem)).elim
  | keyword h | identifier h =>
    obtain ⟨hstarts, hparts⟩ := h
    have hpart : isWordPart c = true := by
      rcases List.mem_cons.1 hmem with rfl | hmem
      · exact isWordPart_of_isWordStart hstarts
      · exact hparts _ hmem
    simp [isSeparator_of_isWordPart hpart] at hseparator
  | string h => exact ⟨rfl, _, h, rfl⟩

/-- What begins with neither a letter nor a digit is no word and no number. -/
theorem Lexeme.symbol_or_string {kind : TokenKind} {c : Char} {tail : List Char}
    (h : Lexeme kind (c :: tail)) (hpart : isWordPart c = false) :
    TokenKind.ofSymbol (c :: tail) = some kind ∨
      ∃ contents, '"' ∉ contents ∧ c :: tail = '"' :: contents ++ ['"'] := by
  have hdigit : c.isDigit = true → False := fun hdigit => by
    simp [isWordPart_of_isDigit hdigit] at hpart
  generalize hchars : c :: tail = chars at h
  cases h with
  | symbol h => exact .inl h
  | whole h =>
    subst hchars
    exact (hdigit (h.2 _ List.mem_cons_self)).elim
  | fractional hdigits =>
    obtain ⟨d, rest, rfl, hd, -⟩ := hdigits.exists_cons
    cases hchars
    exact (hdigit hd).elim
  | keyword h | identifier h =>
    cases h with
    | of hstarts =>
      cases hchars
      simp [isWordPart_of_isWordStart hstarts] at hpart
  | string h => exact .inr ⟨_, h, rfl⟩

/-- A lexeme that begins with a quote ends with the next one. -/
theorem Lexeme.exists_string_of_head {kind : TokenKind} {tail : List Char}
    (h : Lexeme kind ('"' :: tail)) : ∃ contents, tail = contents ++ ['"'] := by
  rcases h.symbol_or_string rfl with hsymbol | ⟨contents, -, heq⟩
  · cases hsymbol
  · exact ⟨contents, (List.cons.inj heq).2⟩

section
variable {c : Char} (hseparator : isSeparator c = true) {text more : List Char}
include hseparator

/-- A lexeme does not reach a separator behind the text, unless the text is the beginning of a
string. -/
theorem Lexeme.prefix_or_quoted {kind : TokenKind} {chars : List Char} (h : Lexeme kind chars)
    (hfront : chars <+: text ++ c :: more) :
    chars <+: text ∨ ∃ inside, '"' ∉ inside ∧ text = '"' :: inside := by
  by_cases hlength : chars.length ≤ text.length
  · exact .inl (List.prefix_of_prefix_length_le hfront (List.prefix_append _ _) hlength)
  · obtain ⟨reached, rfl⟩ := List.prefix_of_prefix_length_le (List.prefix_append _ _) hfront
      (Nat.le_of_not_le hlength)
    rw [List.prefix_append_right_inj] at hfront
    cases reached with
    | nil => simp at hlength
    | cons d reached =>
      obtain rfl : d = c := (List.cons_prefix_cons.1 hfront).1
      obtain ⟨-, contents, hquote, hcontents⟩ := h.exists_string (by simp) hseparator
      cases text with
      | nil =>
        cases hcontents
        cases hseparator
      | cons first inside =>
        simp only [List.cons_append, List.cons.injEq] at hcontents
        obtain ⟨rfl, hcontents⟩ := hcontents
        -- What is behind the text is not empty, so the last quote is there.
        have hinside := congrArg List.dropLast hcontents
        rw [List.dropLast_concat, List.dropLast_append_of_ne_nil (by simp)] at hinside
        exact .inr ⟨inside, fun hmem => hquote (hinside ▸ List.mem_append_left _ hmem), rfl⟩

theorem opensComment_of_append (h : OpensComment (text ++ c :: more)) (hne : text ≠ []) :
    OpensComment text := by
  match text, hne with
  | [_], _ => cases h <;> cases hseparator
  | _ :: _ :: text, _ =>
    cases h with
    | line => exact .line text
    | block => exact .block text

/-- A separator behind the text lets its first lexeme grow no longer. -/
theorem Longest.beforeSeparator {kind : TokenKind} {chars : List Char}
    (h : Longest kind chars (chars ++ text)) :
    Longest kind chars (chars ++ (text ++ c :: more)) := by
  refine ⟨h.lexeme, fun {other longer} hother hlonger => ?_⟩
  rw [← List.append_assoc] at hlonger
  rcases hother.prefix_or_quoted hseparator hlonger with hfront | ⟨inside, hquote, hinside⟩
  · exact h.length_le hother hfront
  · -- The longer one would be a string that is open at the separator, but it is closed before.
    have hchars := h.lexeme
    obtain ⟨first, tail, rfl⟩ := List.exists_cons_of_ne_nil h.lexeme.ne_nil
    obtain ⟨rfl, rfl⟩ := List.cons.inj hinside
    obtain ⟨contents, rfl⟩ := hchars.exists_string_of_head
    exact absurd (by simp) hquote

end

theorem kind_ne_eof_of_lexeme {kind : TokenKind} {chars : List Char} (h : Lexeme kind chars) :
    kind ≠ .eof := by
  cases h with
  | symbol h =>
    rintro rfl
    unfold TokenKind.ofSymbol at h
    split at h <;> cases h
  | _ => simp

/-- A token that covers a lexeme is not the end. -/
theorem isLast_covering {kind : TokenKind} {chars : List Char} (h : Lexeme kind chars)
    {place : Position} {value : Option TokenValue} :
    isLast (.ok (.covering place kind chars value)) = false := by
  simpa [isLast, Token.isEnd, Token.covering] using kind_ne_eof_of_lexeme h

/-! ### Items in front of a line feed -/

/-- Something is opened and not closed before the text ends. -/
def LexicalError.Cause.isUnclosed : LexicalError.Cause → Bool
  | .unrecognized _ => false
  | .unclosedString | .unclosedComment => true

theorem head?_append_feed {text : List Char} (h : ∀ c ∈ text.head?, c = '\n') (more : List Char) :
    ∀ c ∈ (text ++ '\n' :: more).head?, c = '\n' := by
  cases text with
  | nil => simp
  | cons d text => simpa using h

section
variable {place after : Position} {text rest : List Char} {item : Item}

/-- An item that is complete stays the next one when a line feed is put behind the text. -/
theorem NextItem.beforeFeed (h : NextItem place text item after rest) (hlast : isLast item = false)
    (hclosed : ∀ error, item = .error error → error.cause.isUnclosed = false) (more : List Char) :
    NextItem place (text ++ '\n' :: more) item after (rest ++ '\n' :: more) := by
  induction h with
  | separator h _ ih => exact .separator h (ih hlast hclosed)
  | lineComment h stops _ ih =>
    rw [List.append_assoc]
    exact .lineComment h (head?_append_feed stops more) (ih hlast hclosed)
  | blockComment h _ ih =>
    simp only [List.append_assoc, List.cons_append]
    exact .blockComment h (ih hlast hclosed)
  | @token _ _ chars rest _ h longest denotes =>
    rw [List.append_assoc]
    refine .token (fun hopens => ?_) (longest.beforeSeparator rfl) denotes
    rw [← List.append_assoc] at hopens
    exact h (opensComment_of_append rfl hopens (by simp [longest.lexeme.ne_nil]))
  | unclosedString => cases hclosed _ rfl
  | unclosedComment => cases hclosed _ rfl
  | @unrecognized _ c rest hseparator hquote h =>
    refine .unrecognized hseparator hquote fun kind chars hlexeme hfront => ?_
    have hbehind : chars <+: c :: rest ++ '\n' :: more := hfront
    rcases hlexeme.prefix_or_quoted rfl hbehind with hfront | ⟨inside, -, heq⟩
    · exact h kind chars hlexeme hfront
    · exact hquote (List.cons.inj heq).1
  | ending => cases hlast

/-- Where nothing is left but what is skipped, the next item is that of the text behind the line
feed. -/
theorem NextItem.acrossFeed (h : NextItem place text item after rest) (hlast : isLast item = true)
    {more behind : List Char} {beyond : Position} {next : Item}
    (hnext : NextItem ((place.past text).next '\n') more next beyond behind) :
    NextItem place (text ++ '\n' :: more) next beyond behind := by
  induction h with
  | separator h _ ih => exact .separator h (ih hlast hnext)
  | lineComment h stops _ ih =>
    rw [Position.past_append] at hnext
    rw [List.append_assoc]
    exact .lineComment h (head?_append_feed stops more) (ih hlast hnext)
  | @blockComment _ _ body text _ _ h _ ih =>
    have hskip : '/' :: '*' :: body ++ '*' :: '/' :: text =
        '/' :: '*' :: body ++ ['*', '/'] ++ text := by simp
    rw [hskip, Position.past_append] at hnext
    simp only [List.append_assoc, List.cons_append]
    exact .blockComment h (ih hlast hnext)
  | token _ longest => simp [isLast_covering longest.lexeme] at hlast
  | unclosedString | unclosedComment | unrecognized => cases hlast
  | ending => exact .separator rfl hnext

/-! ### All items -/

/-- The end comes last, and nowhere else. -/
theorem Scans.exists_ending {items : List Item} (h : Scans place text items) :
    ∃ (found : List Item) (ending : Token), items = found ++ [.ok ending] ∧ ending.isEnd = true ∧
      ∀ item ∈ found, isLast item = false := by
  induction h with
  | @last _ _ _ _ item _ h =>
    cases item with
    | error error => cases h
    | ok ending => exact ⟨[], ending, rfl, h, by simp⟩
  | @more _ _ _ _ item _ _ h _ ih =>
    obtain ⟨found, ending, rfl, hending, hfound⟩ := ih
    exact ⟨item :: found, ending, rfl, hending, List.forall_mem_cons.2 ⟨h, hfound⟩⟩

/-- The items of the second text take the place of the end of the first one. -/
theorem Scans.joined {more : List Char} {items further : List Item} (h : Scans place text items)
    (hclosed : ∀ error, .error error ∈ items → error.cause.isUnclosed = false)
    (hfurther : Scans ((place.past text).next '\n') more further) :
    Scans place (text ++ '\n' :: more) (items.dropLast ++ further) := by
  induction h with
  | last next h =>
    cases hfurther with
    | last first hlast => exact .last (next.acrossFeed h first) hlast
    | more first hlast hrest => exact .more (next.acrossFeed h first) hlast hrest
  | @more _ _ _ _ item items next h hrest ih =>
    rw [← next.past_rest] at hfurther
    have hfirst := next.beforeFeed h (fun error heq => hclosed error (heq ▸ List.mem_cons_self)) more
    have hne : items ≠ [] := by
      obtain ⟨found, ending, rfl, -⟩ := hrest.exists_ending
      simp
    rw [List.dropLast_cons_of_ne_nil hne]
    exact .more hfirst h (ih (fun error hmem => hclosed error (List.mem_cons_of_mem _ hmem)) hfurther)

end

theorem items_of_scans {text : String} {found : List Item}
    (h : Scans ⟨0, 1⟩ text.toList found) : items text = found := by
  obtain ⟨others, hothers, hlength⟩ := exists_scans text.toList ⟨0, 1⟩
  have htake {found : List Item} (h : Scans ⟨0, 1⟩ text.toList found) (count : Nat) :
      (Scanner.ofText text).take count = found.take count :=
    Scanner.take_of_scans h (Scanner.stands_ofText text) rfl count
  have hall := (htake h (max found.length others.length)).symm.trans (htake hothers _)
  rw [List.take_of_length_le (Nat.le_max_left _ _), List.take_of_length_le (Nat.le_max_right _ _)]
    at hall
  rw [items, htake hothers, List.take_of_length_le (by rwa [← String.length_toList]), hall]

/-- What holds of every next item holds of all items of a text. -/
theorem Scans.forall_mem {good : Item → Prop} {place : Position} {text : List Char}
    {items : List Item} (h : Scans place text items)
    (hnext : ∀ {place after : Position} {text rest : List Char} {item : Item},
      NextItem place text item after rest → good item) : ∀ item ∈ items, good item := by
  induction h with
  | last next => exact List.forall_mem_singleton.2 (hnext next)
  | more next _ _ ih => exact List.forall_mem_cons.2 ⟨hnext next, ih⟩

theorem forall_mem_items {good : Item → Prop} {text : String}
    (hnext : ∀ {place after : Position} {text rest : List Char} {item : Item},
      NextItem place text item after rest → good item) : ∀ item ∈ items text, good item := by
  obtain ⟨found, hfound, -⟩ := exists_scans text.toList ⟨0, 1⟩
  rw [items_of_scans hfound]
  exact hfound.forall_mem hnext

/-! ### Scans -/

namespace Scan

/-- The tokens and the errors among items. -/
def ofItems (items : List Item) : Scan where
  tokens := items.filterMap Except.toOption
  errors := items.filterMap fun item => match item with
    | .ok _ => none
    | .error error => some error

theorem ofText_eq (text : String) : ofText text = ofItems (items text) := rfl

theorem ofItems_cons_ok (token : Token) (items : List Item) :
    ofItems (.ok token :: items) = { ofItems items with tokens := token :: (ofItems items).tokens } :=
  rfl

theorem ofItems_cons_error (error : LexicalError) (items : List Item) :
    ofItems (.error error :: items) =
      { ofItems items with errors := error :: (ofItems items).errors } :=
  rfl

theorem ofItems_ok (tokens : List Token) : ofItems (tokens.map .ok) = ⟨tokens, []⟩ := by
  induction tokens with
  | nil => rfl
  | cons token tokens ih => rw [List.map_cons, ofItems_cons_ok, ih]

theorem ofItems_append (items further : List Item) :
    ofItems (items ++ further) =
      ⟨(ofItems items).tokens ++ (ofItems further).tokens,
        (ofItems items).errors ++ (ofItems further).errors⟩ := by
  simp [ofItems]

theorem mem_tokens_ofItems {items : List Item} {token : Token} :
    token ∈ (ofItems items).tokens ↔ .ok token ∈ items := by
  induction items with
  | nil => simp [ofItems]
  | cons item items ih => cases item <;> simp [ofItems_cons_ok, ofItems_cons_error, ih]

theorem mem_errors_ofItems {items : List Item} {error : LexicalError} :
    error ∈ (ofItems items).errors ↔ .error error ∈ items := by
  induction items with
  | nil => simp [ofItems]
  | cons item items ih => cases item <;> simp [ofItems_cons_ok, ofItems_cons_error, ih]

theorem mem_items_of_mem_tokens {text : String} {token : Token} (h : token ∈ (ofText text).tokens) :
    .ok token ∈ items text :=
  mem_tokens_ofItems.1 h

/-- What a scan finds, wherever it stands. -/
structure Matches (scan other : Scan) : Prop where
  tokens : scan.tokens.map Token.unplaced = other.tokens.map Token.unplaced
  errors : scan.errors.map LexicalError.cause = other.errors.map LexicalError.cause

theorem matches_ofItems {items others : List Item}
    (h : items.map Item.unplaced = others.map Item.unplaced) :
    (ofItems items).Matches (ofItems others) := by
  induction items generalizing others with
  | nil =>
    obtain rfl := List.map_eq_nil_iff.1 h.symm
    exact ⟨rfl, rfl⟩
  | cons item items ih =>
    obtain ⟨other, others, rfl⟩ := List.exists_cons_of_length_eq_add_one
      (by simpa using (congrArg List.length h).symm)
    obtain ⟨hitem, hitems⟩ := List.cons.inj h
    obtain ⟨htokens, herrors⟩ := ih hitems
    cases item with
    | ok token =>
      cases other with
      | ok found => exact ⟨by simpa [ofItems_cons_ok, htokens] using Except.ok.inj hitem, herrors⟩
      | error found => cases hitem
    | error error =>
      cases other with
      | ok found => cases hitem
      | error found =>
        exact ⟨htokens, by simpa [ofItems_cons_error, herrors] using Except.error.inj hitem⟩

theorem exists_tokens_of_ending {found : List Item} (h : ∀ item ∈ found, isLast item = false)
    (ending : Token) :
    (ofItems (found ++ [.ok ending])).tokens = (ofItems found).tokens ++ [ending] ∧
      (ofItems (found ++ [.ok ending])).errors = (ofItems found).errors ∧
        ∀ token ∈ (ofItems found).tokens, token.isEnd = false := by
  rw [ofItems_append]
  exact ⟨rfl, List.append_nil _, fun token hmem => h _ (mem_tokens_ofItems.1 hmem)⟩

/-- The end comes last among the tokens of a text, and nowhere else. -/
theorem exists_ending (text : String) : ∃ tokens ending,
    (ofText text).tokens = tokens ++ [ending] ∧ ending.isEnd = true ∧
      ∀ token ∈ tokens, token.isEnd = false := by
  obtain ⟨items, hitems, -⟩ := exists_scans text.toList ⟨0, 1⟩
  obtain ⟨found, ending, rfl, hending, hfound⟩ := hitems.exists_ending
  obtain ⟨htokens, -, hopen⟩ := exists_tokens_of_ending hfound ending
  rw [ofText_eq, items_of_scans hitems]
  exact ⟨_, ending, htokens, hending, hopen⟩

end Scan

/-- Behind a text and a line feed, one is as many bytes and lines further on as there are in them. -/
theorem Position.past_next_feed (text : String) :
    (past ⟨0, 1⟩ text.toList).next '\n' =
      shifted (text.utf8ByteSize + 1) (1 + text.toList.count '\n') ⟨0, 1⟩ := by
  have hsize := utf8ByteSize_ofList text.toList
  rw [String.ofList_toList] at hsize
  have hfeed : '\n'.utf8Size = 1 := rfl
  have hline := line_past ⟨0, 1⟩ text.toList (by decide)
  simp only [next_eq, offset_past, hline, shifted, if_true, hsize, hfeed, Position.mk.injEq]
  omega

/-- Behind a text in which all is closed that is opened, and a line feed, a text has the items that
it has alone, further on. The counter of lines may have started over there. -/
theorem exists_items_joined {text : String}
    (hclosed : ∀ error ∈ (Scan.ofText text).errors, error.cause.isUnclosed = false) (more : String) :
    ∃ (found : List Item) (ending : Token), items text = found ++ [.ok ending] ∧
      ending.isEnd = true ∧ (∀ item ∈ found, isLast item = false) ∧
        items (text ++ "\n" ++ more) = found ++ (items more).map fun item =>
          (item.shifted (text.utf8ByteSize + 1) (1 + text.toList.count '\n')).wrapped := by
  obtain ⟨all, hall, -⟩ := exists_scans text.toList ⟨0, 1⟩
  obtain ⟨further, hfurther, -⟩ := exists_scans more.toList ⟨0, 1⟩
  obtain ⟨found, ending, rfl, hending, hfound⟩ := hall.exists_ending
  rw [Scan.ofText_eq, items_of_scans hall] at hclosed
  have hshifted := hfurther.shifted (text.utf8ByteSize + 1) (1 + text.toList.count '\n')
  rw [← Position.past_next_feed] at hshifted
  have hjoined := hall.joined (fun error hmem => hclosed error (Scan.mem_errors_ofItems.2 hmem))
    hshifted
  have htext : (text ++ "\n" ++ more).toList = text.toList ++ '\n' :: more.toList := by simp
  rw [← htext, List.dropLast_concat] at hjoined
  exact ⟨found, ending, items_of_scans hall, hending, hfound,
    by rw [items_of_scans hjoined, items_of_scans hfurther]⟩

namespace Scan

/-- Behind a text without errors and a line feed, a text is scanned as it is alone, and its tokens
take the place of the end of the first text. -/
theorem ofText_joined {text : String} (hclean : (ofText text).errors = []) (more : String) :
    ∃ tokens ending, (ofText text).tokens = tokens ++ [ending] ∧ ending.isEnd = true ∧
      (∀ token ∈ tokens, token.isEnd = false) ∧
        ∃ behind : Scan, behind.Matches (ofText more) ∧
          ofText (text ++ "\n" ++ more) = { behind with tokens := tokens ++ behind.tokens } := by
  have hclosed : ∀ error ∈ (ofText text).errors, error.cause.isUnclosed = false := by
    simp [hclean]
  obtain ⟨found, ending, hitems, hending, hfound, hjoined⟩ := exists_items_joined hclosed more
  obtain ⟨htokens, herrors, hopen⟩ := exists_tokens_of_ending hfound ending
  rw [ofText_eq, hitems] at hclean ⊢
  refine ⟨_, ending, htokens, hending, hopen, ofItems ((items more).map fun item =>
    (item.shifted (text.utf8ByteSize + 1) (1 + text.toList.count '\n')).wrapped),
    matches_ofItems ?_, ?_⟩
  · rw [List.map_map]
    refine List.map_congr_left fun item _ => ?_
    rw [Function.comp_apply, Item.unplaced_wrapped, Item.unplaced_shifted]
  · rw [ofText_eq, hjoined, ofItems_append, ← herrors, hclean, List.nil_append]

end Scan

end Lox
