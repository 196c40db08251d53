import Lox.Proofs.Token.Reader

/-!
# A reader goes on without faults

What a reader finds by cutting it out of the text is what the scanner has kept, so round by round the
two do the same. The invariant that carries this says where the reader stands: in front of the unread
text are the characters that are held back, in front of these is the lexeme at hand, and there is one
only where nothing is held back. That leaves room for the two characters that are ever put back, and
the second one of them is met only behind a point, which is a lexeme by itself.
-/

namespace Lox

namespace Position

/-- A character at a place. -/
abbrev locate (place : Position) (c : Char) : Located :=
  ⟨c, place.offset, place.line⟩

/-- The place behind the characters that a text begins with. -/
def behind (front : List Char) : Position :=
  past ⟨0, 1⟩ front

theorem behind_append (front inside : List Char) :
    behind (front ++ inside) = (behind front).past inside :=
  past_append ..

theorem offset_behind (front : List Char) : (behind front).offset = Text.byteSize front :=
  (offset_past ⟨0, 1⟩ front).trans (Nat.zero_add _)

end Position

/-- The item with its numbers read in another way. -/
def Item.readBy (read : String → Option Float) : Item → Item
  | .ok token =>
    match token.value with
    | some (.number _) => .ok { token with value := (read token.lexeme).map .number }
    | _ => .ok token
  | .error error => .error error

/-- A number of more digits is a number. -/
theorem Lexeme.snoc {chars : List Char} {c : Char} (h : Lexeme .number chars)
    (hc : c.isDigit = true) : Lexeme .number (chars ++ [c]) := by
  cases h with
  | symbol h => exact absurd rfl (TokenKind.ne_of_ofSymbol h).1
  | whole h => exact .whole (h.snoc hc)
  | fractional h hfraction =>
    rw [List.append_assoc]
    exact .fractional h (hfraction.snoc hc)

namespace Phase

open Position

/-! ### What is cut out of the text -/

section
variable {text : String} {front inside rest : List Char} {c : Char}
  (h : text.toList = front ++ inside ++ rest)
include h

theorem cut_of_append :
    cut text (behind front).offset ((behind front).past inside).offset =
      .ok (String.ofList inside) := by
  rw [← behind_append, offset_behind, offset_behind, cut, Text.slice?_of_append h]

theorem cut_between {span : Span}
    (hspan : span = .between (behind front).offset ((behind front).past inside).offset) :
    cut text span.start span.stop = .ok (String.ofList inside) := by
  have hstop : span.stop = ((behind front).past inside).offset := by
    rw [hspan, Span.stop, Span.between, offset_past]
    exact Nat.add_sub_cancel' (Nat.le_add_right _ _)
  rw [hstop, hspan]
  exact cut_of_append h

/-- The token of a lexeme in the text is the one that covers it. -/
theorem token_of_append (kind : TokenKind) (value : Option TokenValue) :
    token text kind (.between (behind front).offset ((behind front).past inside).offset)
      (behind front).line value = .ok (.ok (.covering (behind front) kind inside value)) := by
  rw [token, cut_between h rfl]
  rfl

theorem spelled_of_append :
    spelled text ((behind front).locate c) ((behind front).past inside).offset =
      .ok (Mode.token (.ofWord (String.ofList inside)) ((behind front).locate c)
        (String.ofList inside)) := by
  have hcut := cut_between h rfl
  have htoken := token_of_append h (.ofWord (String.ofList inside)) none
  rw [← Mode.token_eq_covering _ _ c] at htoken
  rw [spelled]
  show (cut text _ _ >>= _) = _
  rw [locate, hcut]
  exact htoken

theorem numeral_of_append {read : String → Option Float}
    (hread : (read (String.ofList inside)).isSome) (hlexeme : Lexeme .number inside) :
    numeral text read ((behind front).locate c) ((behind front).past inside).offset =
      .ok (Item.readBy read (Mode.numeral ((behind front).locate c) (String.ofList inside))) := by
  have hcut := cut_between h rfl
  obtain ⟨value, hvalue⟩ := Option.isSome_iff_exists.1 hread
  obtain ⟨kept, hkept⟩ := hlexeme.exists_read?
  have htoken := token_of_append h .number (some (.number value))
  have hitem : Mode.numeral ((behind front).locate c) (String.ofList inside) =
      .ok (.covering (behind front) .number inside (some (.number kept))) := by
    rw [Mode.numeral, hkept]
    exact Mode.token_eq_covering _ _ c inside _
  rw [hitem]
  simp only [Item.readBy, Token.covering, hvalue, Option.map_some]
  simp only [numeral, hcut, bind, Except.bind, hvalue]
  exact htoken

end

section
variable {text : String} {front rest : List Char} {c : Char}

theorem symbol_of_append (h : text.toList = front ++ [c] ++ rest) (kind : TokenKind) :
    symbol text kind ((behind front).locate c) =
      .ok (Mode.symbol kind ((behind front).locate c)) := by
  have htoken := token_of_append h kind none
  rw [← Mode.symbol_eq_covering] at htoken
  exact htoken

theorem token_of_pair {first : Char} (h : text.toList = front ++ [first] ++ ([c] ++ rest))
    (kind : TokenKind) :
    token text kind (.between (behind front).offset ((behind (front ++ [first])).locate c).stop)
      (behind front).line =
        .ok (Mode.token kind ((behind front).locate first) (String.ofList [first, c])) := by
  have hpair : text.toList = front ++ [first, c] ++ rest := by simpa using h
  have htoken := token_of_append hpair kind none
  rw [← Mode.token_eq_covering _ _ first] at htoken
  rw [behind_append]
  exact htoken

theorem quoted_of_append {contents : List Char} {first : Char}
    (h : text.toList = front ++ first :: contents ++ ([c] ++ rest)) :
    quoted text ((behind front).locate first) ((behind (front ++ first :: contents)).locate c) =
      .ok (.ok (.covering (behind front) .string (first :: contents ++ [c])
        (some (.text (String.ofList contents))))) := by
  have hinside : text.toList = front ++ (first :: contents ++ [c]) ++ rest := by simpa using h
  have hcontents : text.toList = front ++ [first] ++ contents ++ ([c] ++ rest) := by simpa using h
  have hcut := cut_of_append hcontents
  have htoken := token_of_append hinside .string (some (.text (String.ofList contents)))
  rw [behind_append] at hcut
  rw [past_append] at htoken
  rw [quoted, behind_append]
  show (cut text ((behind front).past [first]).offset
    (((behind front).past [first]).past contents).offset >>= _) = _
  rw [hcut]
  exact htoken

end

/-! ### Phases and modes -/

/-- The mode remembers what the phase finds in the text: it is in front of the place where the
reader is, and behind all that is complete. -/
inductive Tracks (front : List Char) : (inside : List Char) → Phase → Mode → Prop where
  | between : Tracks front [] .between .between
  | operator (c : Char) (alone paired : TokenKind) :
    Tracks front [c] (.operator ((behind front).locate c) alone paired)
      (.operator ((behind front).locate c) alone paired)
  | slash (c : Char) :
    Tracks front [c] (.slash ((behind front).locate c)) (.slash ((behind front).locate c))
  | lineComment (inside : List Char) : Tracks front inside .lineComment .lineComment
  | blockComment (inside : List Char) (start : Located) (star : Bool) :
    Tracks front inside (.blockComment start star) (.blockComment start star)
  | string (contents : List Char) :
    Tracks front ('"' :: contents) (.string ((behind front).locate '"'))
      (.string ((behind front).locate '"') (String.ofList contents))
  | number (c : Char) {inside : List Char} {fractional : Bool} (lexeme : Lexeme .number inside)
      (whole : fractional = false → Digits inside) :
    Tracks front inside (.number ((behind front).locate c) fractional)
      (.number ((behind front).locate c) (String.ofList inside) fractional)
  | numberDot (c : Char) {digits : List Char} (whole : Digits digits) :
    Tracks front (digits ++ ['.'])
      (.numberDot ((behind front).locate c) (((behind front).past digits).locate '.'))
      (.numberDot ((behind front).locate c) (String.ofList digits)
        (((behind front).past digits).locate '.'))
  | word (c : Char) (inside : List Char) :
    Tracks front inside (.word ((behind front).locate c))
      (.word ((behind front).locate c) (String.ofList inside))

/-- The characters that are put back together: none, any one, or a point and any one. -/
inductive Returned : List Char → Prop where
  | none : Returned []
  | one (c : Char) : Returned [c]
  | two (c : Char) : Returned ['.', c]

/-- A turn of a reader does what the step of a scanner does, and behind either one all that was read
so far is complete, in hand, or put back. -/
inductive Agrees (read : String → Option Float) (passed : List Char) : Turn → Step → Prop where
  | goOn {front inside : List Char} {phase : Phase} {mode : Mode} (split : front ++ inside = passed)
      (tracks : Tracks front inside phase mode) : Agrees read passed (.goOn phase) (.continue mode)
  | emit {front back : List Char} (item : Item) (split : front ++ back = passed)
      (returned : Returned back) :
    Agrees read passed (.emit (item.readBy read) (Scanner.locate (behind front) back))
      (.yield item (Scanner.locate (behind front) back))

section
variable {text : String} {read : String → Option Float} {front inside rest : List Char}
  {phase : Phase} {mode : Mode}

theorem Agrees.complete {item shown : Item} (h : shown = item.readBy read) :
    Agrees read front (.emit shown []) (.yield item []) :=
  h ▸ @emit read front front [] item (List.append_nil _) .none

theorem Agrees.before {c : Char} {item shown : Item} (h : shown = item.readBy read) :
    Agrees read (front ++ [c]) (.emit shown [(behind front).locate c])
      (.yield item [(behind front).locate c]) :=
  h ▸ @emit read (front ++ [c]) front [c] item rfl (.one c)

/-- Between two lexemes all that was read is complete, and nothing is put back. -/
theorem agrees_enter {c : Char} (h : text.toList = front ++ [c] ++ rest) :
    ∃ turn, enter text ((behind front).locate c) = .ok turn ∧
      Agrees read (front ++ [c]) turn (Mode.enter ((behind front).locate c)) := by
  unfold enter Mode.enter
  by_cases hseparator : isSeparator c = true
  · rw [if_pos hseparator, if_pos hseparator]
    exact ⟨_, rfl, .goOn (List.append_nil _) .between⟩
  rw [if_neg hseparator, if_neg hseparator]
  by_cases hword : isWordStart c = true
  · rw [if_pos hword, if_pos hword, String.singleton_eq_ofList]
    exact ⟨_, rfl, .goOn rfl (.word c [c])⟩
  rw [if_neg hword, if_neg hword]
  by_cases hdigit : c.isDigit = true
  · have hdigits : Digits [c] := ⟨List.cons_ne_nil c [], by simpa using hdigit⟩
    rw [if_pos hdigit, if_pos hdigit, String.singleton_eq_ofList]
    exact ⟨_, rfl, .goOn rfl (.number c (.whole hdigits) fun _ => hdigits)⟩
  rw [if_neg hdigit, if_neg hdigit]
  by_cases hquote : c = '"'
  · rw [if_pos hquote, if_pos hquote, hquote]
    exact ⟨_, rfl, .goOn rfl (.string [])⟩
  rw [if_neg hquote, if_neg hquote]
  by_cases hslash : c = '/'
  · rw [if_pos hslash, if_pos hslash]
    exact ⟨_, rfl, .goOn rfl (.slash c)⟩
  rw [if_neg hslash, if_neg hslash]
  cases TokenKind.ofSymbol? c with
  | some kind =>
    have hsymbol := symbol_of_append h kind
    simp only [hsymbol]
    exact ⟨_, rfl, .complete rfl⟩
  | none =>
    cases TokenKind.ofOperator? c with
    | some kinds => exact ⟨_, rfl, .goOn rfl (.operator c kinds.1 kinds.2)⟩
    | none => exact ⟨_, rfl, .complete rfl⟩

theorem agrees_operator {c first : Char} {alone paired : TokenKind}
    (h : text.toList = front ++ [first] ++ ([c] ++ rest)) :
    ∃ turn, (operator ((behind front).locate first) alone paired).take text read
        ((behind (front ++ [first])).locate c) = .ok turn ∧
      Agrees read (front ++ [first] ++ [c]) turn
        ((Mode.operator ((behind front).locate first) alone paired).read
          ((behind (front ++ [first])).locate c)) := by
  rw [take, Mode.read]
  by_cases hequal : c = '='
  · rw [if_pos hequal, if_pos hequal, token_of_pair h]
    exact ⟨_, rfl, .complete rfl⟩
  · rw [if_neg hequal, if_neg hequal, symbol_of_append h]
    exact ⟨_, rfl, .before rfl⟩

theorem agrees_slash {c first : Char} (h : text.toList = front ++ [first] ++ ([c] ++ rest)) :
    ∃ turn, (slash ((behind front).locate first)).take text read
        ((behind (front ++ [first])).locate c) = .ok turn ∧
      Agrees read (front ++ [first] ++ [c]) turn
        ((Mode.slash ((behind front).locate first)).read
          ((behind (front ++ [first])).locate c)) := by
  rw [take, Mode.read]
  by_cases hline : c = '/'
  · rw [if_pos hline, if_pos hline]
    exact ⟨_, rfl, .goOn (List.append_nil _) (.lineComment [])⟩
  rw [if_neg hline, if_neg hline]
  by_cases hblock : c = '*'
  · rw [if_pos hblock, if_pos hblock]
    exact ⟨_, rfl, .goOn (List.append_nil _) (.blockComment [] _ false)⟩
  rw [if_neg hblock, if_neg hblock, symbol_of_append h]
  exact ⟨_, rfl, .before rfl⟩

theorem agrees_string {c : Char} {contents : List Char}
    (h : text.toList = front ++ '"' :: contents ++ ([c] ++ rest)) :
    ∃ turn, (string ((behind front).locate '"')).take text read
        ((behind (front ++ '"' :: contents)).locate c) = .ok turn ∧
      Agrees read (front ++ '"' :: contents ++ [c]) turn
        ((Mode.string ((behind front).locate '"') (String.ofList contents)).read
          ((behind (front ++ '"' :: contents)).locate c)) := by
  rw [take, Mode.read]
  by_cases hquote : c = '"'
  · have hlexeme : "\"" ++ String.ofList contents ++ "\"" =
        String.ofList ('"' :: contents ++ [c]) := by
      rw [hquote, String.ofList_append, String.ofList_cons]
      rfl
    rw [if_pos hquote, if_pos hquote, quoted_of_append h, hlexeme, Mode.token_eq_covering]
    exact ⟨_, rfl, .complete rfl⟩
  · rw [if_neg hquote, if_neg hquote, Scanner.push_ofList]
    exact ⟨_, rfl, .goOn (List.append_assoc ..).symm (.string (contents ++ [c]))⟩

theorem agrees_word {c first : Char} {inside : List Char}
    (h : text.toList = front ++ inside ++ ([c] ++ rest)) :
    ∃ turn, (word ((behind front).locate first)).take text read
        ((behind (front ++ inside)).locate c) = .ok turn ∧
      Agrees read (front ++ inside ++ [c]) turn
        ((Mode.word ((behind front).locate first) (String.ofList inside)).read
          ((behind (front ++ inside)).locate c)) := by
  rw [take, Mode.read]
  by_cases hpart : isWordPart c = true
  · rw [if_pos hpart, if_pos hpart, Scanner.push_ofList]
    exact ⟨_, rfl, .goOn (List.append_assoc ..).symm (.word first (inside ++ [c]))⟩
  · have hword := spelled_of_append (c := first) h
    rw [← behind_append] at hword
    rw [if_neg hpart, if_neg hpart, hword]
    exact ⟨_, rfl, .before rfl⟩

variable (hread : ∀ chars, Lexeme .number chars → (read (String.ofList chars)).isSome)
include hread

theorem agrees_number {c first : Char} {fractional : Bool} (hlexeme : Lexeme .number inside)
    (hwhole : fractional = false → Digits inside)
    (h : text.toList = front ++ inside ++ ([c] ++ rest)) :
    ∃ turn, (number ((behind front).locate first) fractional).take text read
        ((behind (front ++ inside)).locate c) = .ok turn ∧
      Agrees read (front ++ inside ++ [c]) turn
        ((Mode.number ((behind front).locate first) (String.ofList inside) fractional).read
          ((behind (front ++ inside)).locate c)) := by
  rw [take, Mode.read]
  by_cases hdigit : c.isDigit = true
  · rw [if_pos hdigit, if_pos hdigit, Scanner.push_ofList]
    have hlonger (hopen : fractional = false) := (hwhole hopen).snoc hdigit
    exact ⟨_, rfl, .goOn (List.append_assoc ..).symm
      (.number first (hlexeme.snoc hdigit) hlonger)⟩
  rw [if_neg hdigit, if_neg hdigit]
  by_cases hpoint : (c = '.' && !fractional) = true
  · rw [if_pos hpoint, if_pos hpoint]
    simp only [Bool.and_eq_true, decide_eq_true_eq, Bool.not_eq_true'] at hpoint
    obtain ⟨rfl, hopen⟩ := hpoint
    rw [behind_append]
    exact ⟨_, rfl, .goOn (List.append_assoc ..).symm (.numberDot first (hwhole hopen))⟩
  · have hnumeral := numeral_of_append (c := first) h (hread _ hlexeme) hlexeme
    rw [← behind_append] at hnumeral
    rw [if_neg hpoint, if_neg hpoint, hnumeral]
    exact ⟨_, rfl, .before rfl⟩

theorem agrees_numberDot {c first : Char} {digits : List Char} (hwhole : Digits digits)
    (h : text.toList = front ++ (digits ++ ['.']) ++ ([c] ++ rest)) :
    ∃ turn, (numberDot ((behind front).locate first) (((behind front).past digits).locate '.')).take
        text read ((behind (front ++ (digits ++ ['.']))).locate c) = .ok turn ∧
      Agrees read (front ++ (digits ++ ['.']) ++ [c]) turn
        ((Mode.numberDot ((behind front).locate first) (String.ofList digits)
          (((behind front).past digits).locate '.')).read
            ((behind (front ++ (digits ++ ['.']))).locate c)) := by
  rw [take, Mode.read]
  by_cases hdigit : c.isDigit = true
  · have hfraction : Digits [c] := ⟨List.cons_ne_nil c [], by simpa using hdigit⟩
    rw [if_pos hdigit, if_pos hdigit, Scanner.push_ofList, Scanner.push_ofList]
    have hfractional : Lexeme .number (digits ++ ['.'] ++ [c]) := by
      rw [List.append_assoc]
      exact .fractional hwhole hfraction
    exact ⟨_, rfl, .goOn (List.append_assoc ..).symm (.number first hfractional (Bool.noConfusion ·))⟩
  · have hdigits : text.toList = front ++ digits ++ (['.', c] ++ rest) := by simpa using h
    have hlexeme := Lexeme.whole hwhole
    have hnumeral := numeral_of_append (c := first) hdigits (hread _ hlexeme) hlexeme
    have hback : [((behind front).past digits).locate '.',
        (behind (front ++ (digits ++ ['.']))).locate c] =
          Scanner.locate (behind (front ++ digits)) ['.', c] := by
      rw [← List.append_assoc, behind_append (front ++ digits), behind_append]
      rfl
    rw [if_neg hdigit, if_neg hdigit, hnumeral, hback]
    exact ⟨_, rfl, .emit _ (by simp) (.two c)⟩

theorem agrees_take {c : Char} (htracks : Tracks front inside phase mode)
    (h : text.toList = front ++ inside ++ ([c] ++ rest)) :
    ∃ turn, phase.take text read ((behind (front ++ inside)).locate c) = .ok turn ∧
      Agrees read (front ++ inside ++ [c]) turn
        (mode.read ((behind (front ++ inside)).locate c)) := by
  cases htracks with
  | between =>
    rw [List.append_nil] at h ⊢
    exact agrees_enter (h.trans (List.append_assoc ..).symm)
  | operator first alone paired => exact agrees_operator h
  | slash first => exact agrees_slash h
  | lineComment =>
    rw [take, Mode.read]
    by_cases hfeed : c = '\n'
    · rw [if_pos hfeed, if_pos hfeed]
      exact ⟨_, rfl, .goOn (List.append_nil _) .between⟩
    · rw [if_neg hfeed, if_neg hfeed]
      exact ⟨_, rfl, .goOn (List.append_nil _) (.lineComment [])⟩
  | blockComment _ start star =>
    rw [take, Mode.read]
    by_cases hclosed : (star && c = '/') = true
    · rw [if_pos hclosed, if_pos hclosed]
      exact ⟨_, rfl, .goOn (List.append_nil _) .between⟩
    · rw [if_neg hclosed, if_neg hclosed]
      exact ⟨_, rfl, .goOn (List.append_nil _) (.blockComment [] start _)⟩
  | string contents => exact agrees_string h
  | number first lexeme whole => exact agrees_number hread lexeme whole h
  | numberDot first whole => exact agrees_numberDot hread whole h
  | word first inside => exact agrees_word h

theorem agrees_close (htracks : Tracks front inside phase mode)
    (h : text.toList = front ++ inside) :
    ∃ turn, phase.close text read (behind (front ++ inside)) = .ok turn ∧
      Agrees read (front ++ inside) turn (mode.finish (behind (front ++ inside))) := by
  have hend : text.toList = front ++ inside ++ [] := h.trans (List.append_nil _).symm
  cases htracks with
  | between => exact ⟨_, rfl, .complete rfl⟩
  | operator first alone paired =>
    rw [close, symbol_of_append hend]
    exact ⟨_, rfl, .complete rfl⟩
  | slash first =>
    rw [close, symbol_of_append hend]
    exact ⟨_, rfl, .complete rfl⟩
  | lineComment => exact ⟨_, rfl, .goOn (List.append_nil _) .between⟩
  | blockComment _ start star => exact ⟨_, rfl, .complete rfl⟩
  | string contents => exact ⟨_, rfl, .complete rfl⟩
  | number first lexeme whole =>
    have hnumeral := numeral_of_append (c := first) hend (hread _ lexeme) lexeme
    rw [← behind_append] at hnumeral
    rw [close, hnumeral]
    exact ⟨_, rfl, .complete rfl⟩
  | @numberDot first digits whole =>
    have hdigits : text.toList = front ++ digits ++ ['.'] := by simpa using h
    have hlexeme := Lexeme.whole whole
    have hnumeral := numeral_of_append (c := first) hdigits (hread _ hlexeme) hlexeme
    rw [close, hnumeral, ← behind_append, ← List.append_assoc]
    exact ⟨_, rfl, .before rfl⟩
  | word first inside =>
    have hword := spelled_of_append (c := first) hend
    rw [← behind_append] at hword
    rw [close, hword]
    exact ⟨_, rfl, .complete rfl⟩

end

end Phase

/-- Numbers that are read as the scanner reads them have the values that its items have. -/
theorem readBy_read? (text : String) : ∀ item ∈ items text, item.readBy Number.read? = item := by
  refine forall_mem_items ?_
  intro place after text rest item next
  induction next with
  | separator _ _ ih | lineComment _ _ _ ih | blockComment _ _ ih => exact ih
  | token _ _ denotes =>
    cases denotes with
    | number reads => simp [Item.readBy, Token.covering, reads]
    | string | plain => rfl
  | unclosedString | unclosedComment | unrecognized | ending => rfl

/-! ### Rounds -/

namespace Scanner

/-- The items that are handed out next, when reading goes on from a mode. -/
def handOut : (count : Nat) → Mode → Scanner → List Item
  | 0, _, _ => []
  | count + 1, mode, scanner =>
    (scanner.advance mode).1 :: handOut count .between (scanner.advance mode).2

theorem handOut_of_goes {scanner rest : Scanner} {mode next : Mode}
    (h : scanner.round mode = .inl (next, rest)) (count : Nat) :
    handOut count mode scanner = handOut count next rest := by
  cases count with
  | zero => rfl
  | succ count =>
    have hadvance : scanner.advance mode = rest.advance next := by rw [advance_eq_round, h]
    rw [handOut, handOut, hadvance]

theorem handOut_of_yields {scanner rest : Scanner} {mode : Mode} {item : Item}
    (h : scanner.round mode = .inr (item, rest)) (count : Nat) :
    handOut (count + 1) mode scanner = item :: handOut count .between rest := by
  have hadvance : scanner.advance mode = (item, rest) := by rw [advance_eq_round, h]
  rw [handOut, hadvance]

theorem answers_replicate (scanner : Scanner) (count : Nat) :
    scanner.answers (List.replicate count .nextToken) =
      (handOut count .between scanner).map some := by
  induction count generalizing scanner with
  | zero => rfl
  | succ count ih => exact congrArg (List.cons _) (ih _)

end Scanner

namespace Reader

open Position Phase

/-- The characters that are held back are those in front of the unread text, in their order. -/
def HoldsBehind (text : String) (reader : Reader) : Prop :=
  ∃ front back, text.toList = front ++ back ++ reader.unread ∧
    reader.held.toList = Scanner.locate (behind front) back ∧
    reader.position = behind (front ++ back)

/-- What a reader relies on. -/
structure Sound (text : String) (read : String → Option Float) (reader : Reader) : Prop where
  holds : reader.HoldsBehind text
  /-- Once the next character was taken, the ones that are still held are in their place. -/
  holds_next : ∀ {c : Option Located} {further : Reader}, reader.next = .ok (c, further) →
    further.HoldsBehind text
  /-- Where the position makes a difference, nothing is held back and nothing is left. -/
  ends : ∀ {c : Option Located} {further : Reader}, reader.next = .ok (c, further) →
    (∃ position other, further.phase.turn text read c position ≠
      further.phase.turn text read c other) → further.held = .none ∧ further.unread = []

/-- The reader is where the scanner is. Something is held back only between two lexemes, and two
characters only if the first of them is a point. -/
inductive Follows (text : String) : Reader → Mode → Scanner → Prop where
  | inside {front inside unread : List Char} {phase : Phase} {mode : Mode} {finished : Bool}
      (split : text.toList = front ++ inside ++ unread) (tracks : Tracks front inside phase mode) :
    Follows text ⟨phase, .none, unread, behind (front ++ inside)⟩ mode
      ⟨[], unread, behind (front ++ inside), finished⟩
  | one {front unread : List Char} {finished : Bool} (c : Char)
      (split : text.toList = front ++ [c] ++ unread) :
    Follows text ⟨.between, .one ((behind front).locate c), unread, behind (front ++ [c])⟩ .between
      ⟨[(behind front).locate c], unread, behind (front ++ [c]), finished⟩
  | two {front unread : List Char} {finished : Bool} (c : Char)
      (split : text.toList = front ++ ['.', c] ++ unread) :
    Follows text
      ⟨.between, .two ((behind front).locate '.') (((behind front).past ['.']).locate c), unread,
        behind (front ++ ['.', c])⟩ .between
      ⟨[(behind front).locate '.', ((behind front).past ['.']).locate c], unread,
        behind (front ++ ['.', c]), finished⟩

/-- A round of the reader has come to what a round of the scanner has come to. -/
inductive Meets (text : String) (read : String → Option Float) :
    Option Item × Reader → (Mode × Scanner) ⊕ (Item × Scanner) → Prop where
  | goes {further : Reader} {next : Mode} {rest : Scanner} (follows : Follows text further next rest) :
    Meets text read (none, further) (.inl (next, rest))
  | yields {further : Reader} {item : Item} {rest : Scanner}
      (follows : Follows text further .between rest) :
    Meets text read (some (item.readBy read), further) (.inr (item, rest))

section
variable {text : String} {read : String → Option Float} {reader : Reader} {mode : Mode}
  {scanner : Scanner}

theorem follows_ofText (text : String) :
    Follows text (ofText text) .between (Scanner.ofText text) :=
  @Follows.inside text [] [] text.toList .between .between false rfl .between

theorem Follows.holds (h : Follows text reader mode scanner) : reader.HoldsBehind text := by
  cases h with
  | @inside front inside _ _ _ _ split =>
    exact ⟨front ++ inside, [], by simpa using split, rfl, by rw [List.append_nil]⟩
  | one c split => exact ⟨_, [c], split, rfl, rfl⟩
  | two c split => exact ⟨_, ['.', c], split, rfl, rfl⟩

/-- What is put back finds room where nothing is held. -/
theorem meets_perform {passed unread : List Char} {turn : Turn} {step : Step} {phase : Phase}
    {finished : Bool} (h : Agrees read passed turn step) (htext : text.toList = passed ++ unread) :
    ∃ result, perform ⟨phase, .none, unread, behind passed⟩ turn = .ok result ∧
      Meets text read result (Scanner.perform step ⟨[], unread, behind passed, finished⟩) := by
  cases h with
  | goOn split tracks =>
    subst split
    exact ⟨_, rfl, .goes (.inside htext tracks)⟩
  | @emit front back item split returned =>
    subst split
    cases returned with
    | none =>
      have hfollows (finished : Bool) : Follows text ⟨.between, .none, unread, behind (front ++ [])⟩
          .between ⟨[], unread, behind (front ++ []), finished⟩ := .inside htext .between
      exact ⟨_, rfl, .yields (hfollows finished)⟩
    | one c => exact ⟨_, rfl, .yields (.one c htext)⟩
    | two c => exact ⟨_, rfl, .yields (.two c htext)⟩

/-- In a text that is not too long, the next character is where the text goes on. -/
theorem next_cons {front unread : List Char} {phase : Phase} {c : Char}
    (hsize : text.utf8ByteSize < 2 ^ 32) (htext : text.toList = front ++ [c] ++ unread) :
    next ⟨phase, .none, c :: unread, behind front⟩ =
      .ok (some ((behind front).locate c), ⟨phase, .none, unread, behind (front ++ [c])⟩) := by
  have hbound : ((behind front).next c).offset < 2 ^ 32 := by
    have hoffset : ((behind front).next c).offset = Text.byteSize (front ++ [c]) := by
      rw [← offset_behind, behind_append]
      rfl
    rw [hoffset]
    exact Nat.lt_of_le_of_lt (Text.cuts_of_append htext).stop_le hsize
  rw [next]
  simp only [hbound, if_true, behind_append]
  rfl

theorem round_eq {c : Option Located} {further : Reader} {turn : Turn}
    (hnext : reader.next = .ok (c, further))
    (hturn : further.phase.turn text read c further.position = .ok turn) :
    reader.round text read = further.perform turn := by
  rw [round, hnext]
  show (further.phase.turn text read c further.position >>= _) = _
  rw [hturn]
  rfl

theorem rounds_succ {count : Nat} {item : Option Item} {further last : Reader} {found : List Item}
    (hround : reader.round text read = .ok (item, further))
    (hrounds : further.rounds text read count = .ok (found, last)) :
    reader.rounds text read (count + 1) = .ok (item.toList ++ found, last) := by
  rw [rounds, hround]
  show (further.rounds text read count >>= _) = _
  rw [hrounds]
  rfl

theorem exists_round {count : Nat} {last : Reader} {found : List Item}
    (h : reader.rounds text read (count + 1) = .ok (found, last)) : ∃ item further rest,
      reader.round text read = .ok (item, further) ∧
        further.rounds text read count = .ok (rest, last) ∧ found = item.toList ++ rest := by
  cases hround : reader.round text read with
  | error => simp [rounds, hround, bind, Except.bind] at h
  | ok result =>
    obtain ⟨item, further⟩ := result
    cases hrounds : further.rounds text read count with
    | error => simp [rounds, hround, hrounds, bind, Except.bind] at h
    | ok result =>
      obtain ⟨rest, last⟩ := result
      rw [rounds_succ hround hrounds] at h
      cases h
      exact ⟨item, further, rest, rfl, hrounds, rfl⟩

theorem rounds_add {count more : Nat} {further last : Reader} {found others : List Item}
    (hrounds : reader.rounds text read count = .ok (found, further))
    (hmore : further.rounds text read more = .ok (others, last)) :
    reader.rounds text read (count + more) = .ok (found ++ others, last) := by
  induction count generalizing reader found with
  | zero =>
    cases hrounds
    rw [Nat.zero_add]
    exact hmore
  | succ count ih =>
    obtain ⟨item, next, rest, hround, hrest, rfl⟩ := exists_round hrounds
    rw [Nat.succ_add_eq_add_succ, Nat.add_succ, List.append_assoc]
    exact rounds_succ hround (ih hrest)

variable (hsize : text.utf8ByteSize < 2 ^ 32)
  (hread : ∀ chars, Lexeme .number chars → (read (String.ofList chars)).isSome)
include hsize hread

/-- Round by round, the reader does without a fault what the scanner does. -/
theorem meets_round (h : Follows text reader mode scanner) :
    ∃ result, reader.round text read = .ok result ∧ Meets text read result (scanner.round mode) := by
  cases h with
  | @inside front inside unread phase mode finished split tracks =>
    cases unread with
    | nil =>
      obtain ⟨turn, hturn, hagrees⟩ := agrees_close hread tracks (split.trans (List.append_nil _))
      have hround : round text read ⟨phase, .none, [], behind (front ++ inside)⟩ = _ :=
        round_eq rfl hturn
      rw [hround]
      exact meets_perform hagrees split
    | cons c unread =>
      have htaken : text.toList = front ++ inside ++ [c] ++ unread := by simpa using split
      obtain ⟨turn, hturn, hagrees⟩ := agrees_take hread tracks split
      have hround : Scanner.round mode ⟨[], c :: unread, behind (front ++ inside), finished⟩ =
          Scanner.perform (mode.read ((behind (front ++ inside)).locate c))
            ⟨[], unread, behind (front ++ inside ++ [c]), finished⟩ := by
        rw [behind_append (front ++ inside)]
        rfl
      rw [round_eq (next_cons hsize htaken) hturn, hround]
      exact meets_perform hagrees htaken
  | @one front unread finished c split =>
    obtain ⟨turn, hturn, hagrees⟩ : ∃ turn, enter text ((behind front).locate c) = .ok turn ∧
        Agrees read (front ++ [c]) turn _ := agrees_enter split
    have hround : round text read
        ⟨.between, .one ((behind front).locate c), unread, behind (front ++ [c])⟩ = _ :=
      round_eq rfl hturn
    rw [hround]
    exact meets_perform hagrees split
  | @two front unread finished c split =>
    -- The point is complete by itself, so what is held behind it is in front of the next lexeme.
    have hpoint : text.toList = front ++ ['.'] ++ ([c] ++ unread) := by simpa using split
    have hturn : Phase.take text read ((behind front).locate '.') .between =
        .ok (.emit (Mode.symbol .dot ((behind front).locate '.')) []) := by
      show (symbol text .dot _ >>= _) = _
      rw [symbol_of_append hpoint]
      rfl
    have hround : round text read ⟨.between, .two ((behind front).locate '.')
        (((behind front).past ['.']).locate c), unread, behind (front ++ ['.', c])⟩ = _ :=
      round_eq rfl hturn
    have hfollows : Follows text ⟨.between, .one ((behind (front ++ ['.'])).locate c), unread,
        behind (front ++ ['.'] ++ [c])⟩ .between ⟨[(behind (front ++ ['.'])).locate c], unread,
          behind (front ++ ['.'] ++ [c]), finished⟩ :=
      .one c (by simpa using split)
    rw [behind_append front, List.append_assoc] at hfollows
    have hmeets : Meets text read
        (some ((Mode.symbol .dot ((behind front).locate '.')).readBy read), _) (.inr (_, _)) :=
      .yields hfollows
    rw [hround]
    exact ⟨_, rfl, hmeets⟩

omit hread in
/-- Taking a character leaves those that are held in their place, and there is none to take only where
nothing is held and the text has ended. -/
theorem Follows.next (h : Follows text reader mode scanner) {c : Option Located} {further : Reader}
    (hnext : reader.next = .ok (c, further)) : further.HoldsBehind text ∧
      (c = none → further.held = .none ∧ further.unread = []) := by
  have hholds := h.holds
  cases h with
  | @inside front inside unread phase _ _ split tracks =>
    cases unread with
    | nil =>
      cases hnext
      exact ⟨hholds, fun _ => ⟨rfl, rfl⟩⟩
    | cons d unread =>
      have htaken : text.toList = front ++ inside ++ [d] ++ unread := by simpa using split
      rw [next_cons hsize htaken] at hnext
      cases hnext
      exact ⟨⟨front ++ inside ++ [d], [], by simpa using htaken, rfl, by simp⟩, nofun⟩
  | @one front unread _ d split =>
    cases hnext
    exact ⟨⟨front ++ [d], [], by simpa using split, rfl, by simp⟩, nofun⟩
  | @two front unread _ d split =>
    cases hnext
    have hplace := congrArg (fun place : Position => [place.locate d]) (behind_append front ['.'])
    exact ⟨⟨front ++ ['.'], [d], by simpa using split, hplace.symm, by simp⟩, nofun⟩

omit hread in
theorem Follows.sound (h : Follows text reader mode scanner) : reader.Sound text read where
  holds := h.holds
  holds_next hnext := (h.next hsize hnext).1
  ends := by
    rintro c further hnext ⟨position, other, hne⟩
    refine (h.next hsize hnext).2 ?_
    cases c with
    | none => rfl
    | some c => exact absurd rfl hne

/-- However many rounds there are, they come without a fault to the items that the scanner hands out,
and to a reader that is sound. -/
theorem rounds_follow (count : Nat) (h : Follows text reader mode scanner) :
    ∃ found last, reader.rounds text read count = .ok (found, last) ∧ last.Sound text read ∧
      found = (scanner.handOut found.length mode).map (Item.readBy read) := by
  induction count generalizing reader mode scanner with
  | zero => exact ⟨[], reader, rfl, h.sound hsize, rfl⟩
  | succ count ih =>
    obtain ⟨⟨item, further⟩, hround, hmeets⟩ := meets_round hsize hread h
    generalize hresult : scanner.round mode = result at hmeets
    cases hmeets with
    | goes follows =>
      obtain ⟨found, last, hrounds, hsound, hfound⟩ := ih follows
      refine ⟨found, last, rounds_succ hround hrounds, hsound, ?_⟩
      rw [Scanner.handOut_of_goes hresult]
      exact hfound
    | yields follows =>
      obtain ⟨found, last, hrounds, hsound, hfound⟩ := ih follows
      refine ⟨_ :: found, last, rounds_succ hround hrounds, hsound, ?_⟩
      rw [List.length_cons, Scanner.handOut_of_yields hresult, List.map_cons, ← hfound]

/-- After some rounds an item is complete, since each round reads a character or notices that there is
none. -/
theorem exists_item (h : Follows text reader mode scanner) :
    ∃ count item last rest, reader.rounds text read count = .ok ([item], last) ∧
      Follows text last .between rest := by
  induction hmeasure : 2 * scanner.remaining + mode.rank using Nat.strong_induction_on
    generalizing reader mode scanner with
  | h measure ih =>
    obtain ⟨⟨item, further⟩, hround, hmeets⟩ := meets_round hsize hread h
    generalize hresult : scanner.round mode = result at hmeets
    cases hmeets with
    | goes follows =>
      have hless := (Scanner.round_eq_inl hresult).1
      obtain ⟨count, item, last, rest, hrounds, hlast⟩ := ih _ (hmeasure ▸ hless) follows rfl
      exact ⟨count + 1, item, last, rest, rounds_succ hround hrounds, hlast⟩
    | yields follows => exact ⟨1, _, further, _, rounds_succ hround rfl, follows⟩

/-- Any number of items is complete after some rounds. -/
theorem exists_items (number : Nat) (h : Follows text reader .between scanner) :
    ∃ count found last, reader.rounds text read count = .ok (found, last) ∧
      found.length = number := by
  induction number generalizing reader scanner with
  | zero => exact ⟨0, [], reader, rfl, rfl⟩
  | succ number ih =>
    obtain ⟨count, item, further, rest, hrounds, hfurther⟩ := exists_item hsize hread h
    obtain ⟨more, found, last, hmore, hlength⟩ := ih hfurther
    exact ⟨count + more, _, last, rounds_add hrounds hmore, congrArg (· + 1) hlength⟩

end

end Reader

/-- Whatever is asked of a reader in a text of less than 2 ^ 32 bytes, no fault comes of it, as long
as digits, and digits with a point between them, are read as numbers. After any number of rounds the
characters that are held back are those in front of the unread text, in their order, and where the
position that was reached is used nothing is held back. The items that have become complete are those
that the scanner hands out, call by call, and there are as many as are asked for. -/
theorem reader_never_faults (text : String) (read : String → Option Float)
    (hsize : text.utf8ByteSize < 2 ^ 32)
    (hread : ∀ chars, Lexeme .number chars → (read (String.ofList chars)).isSome) :
    (∀ count, ∃ found reader,
      (Reader.ofText text).rounds text read count = .ok (found, reader) ∧
        reader.Sound text read ∧
        found.map some =
          ((Scanner.ofText text).answers (List.replicate found.length .nextToken)).map
            (Option.map (Item.readBy read))) ∧
      ∀ number, ∃ count found reader,
        (Reader.ofText text).rounds text read count = .ok (found, reader) ∧
          found.length = number := by
  have hstart := Reader.follows_ofText text
  refine ⟨fun count => ?_, fun number => Reader.exists_items hsize hread number hstart⟩
  obtain ⟨found, reader, hrounds, hsound, hfound⟩ := Reader.rounds_follow hsize hread count hstart
  refine ⟨found, reader, hrounds, hsound, ?_⟩
  rw [Scanner.answers_replicate, List.map_map]
  conv_lhs => rw [hfound]
  rw [List.map_map]
  rfl

/-- A point that is read twice: it is put back with the letter behind it. -/
theorem reader_never_faults_point :
    "1.x".utf8ByteSize < 2 ^ 32 ∧
      (∀ chars, Lexeme .number chars → (Number.read? (String.ofList chars)).isSome) ∧
      (∀ count, ∃ found reader,
        (Reader.ofText "1.x").rounds "1.x" Number.read? count = .ok (found, reader) ∧
          reader.Sound "1.x" Number.read? ∧
          found.map some =
            ((Scanner.ofText "1.x").answers (List.replicate found.length .nextToken)).map
              (Option.map (Item.readBy Number.read?))) ∧
      ∀ number, ∃ count found reader,
        (Reader.ofText "1.x").rounds "1.x" Number.read? count = .ok (found, reader) ∧
          found.length = number := by
  have hsize : "1.x".utf8ByteSize < 2 ^ 32 := by decide
  have hread (chars : List Char) (h : Lexeme .number chars) :
      (Number.read? (String.ofList chars)).isSome :=
    Option.isSome_iff_exists.2 h.exists_read?
  exact ⟨hsize, hread, reader_never_faults "1.x" Number.read? hsize hread⟩

example (value : Float) : ((Reader.ofText "1.x").rounds "1.x" (fun _ => some value) 3).map
    (fun (found, reader) => (found.length, reader.held.toList)) =
    .ok (1, [⟨'.', 1, 1⟩, ⟨'x', 2, 1⟩]) := by cbv

end Lox
