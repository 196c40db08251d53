import Lox.Proofs.Token.Standing

/-!
# What the modes of the scanner do

Each mode is described by the characters that it takes in and by where it stops. A mode takes in
characters one by one, so what it has read of a lexeme is what it began with and all of these, and
the place is past them.
-/

namespace Lox

/-! ### Classes of characters -/

theorem isWordPart_of_isWordStart {c : Char} (h : isWordStart c = true) : isWordPart c = true := by
  simp only [isWordStart, isWordPart, Char.isAlphanum, Bool.or_eq_true] at h ⊢
  exact h.imp_left .inl

theorem isWordPart_of_isDigit {c : Char} (h : c.isDigit = true) : isWordPart c = true := by
  simp [isWordPart, Char.isAlphanum, h]

theorem isSeparator_of_isWordPart {c : Char} (h : isWordPart c = true) : isSeparator c = false := by
  rw [Bool.eq_false_iff]
  intro hseparator
  simp only [isSeparator, Bool.or_eq_true, decide_eq_true_eq] at hseparator
  obtain ((rfl | rfl) | rfl) | rfl := hseparator <;> exact absurd h (by decide)

/-- Digits come before all letters. -/
theorem not_le_of_isDigit {c limit : Char} (h : c.isDigit = true)
    (hlimit : '9'.toNat < limit.toNat) : ¬ limit.val ≤ c.val := by
  intro hle
  have hdigit := (Char.isDigit_iff_toNat.1 h).2
  exact Nat.not_le_of_lt hlimit (Nat.le_trans (UInt32.le_iff_toNat_le.1 hle) hdigit)

theorem isWordStart_of_isDigit {c : Char} (h : c.isDigit = true) : isWordStart c = false := by
  have hupper : c.isUpper = false :=
    decide_eq_false fun hupper => not_le_of_isDigit h (by decide) hupper.1
  have hlower : c.isLower = false := by
    show (decide (c.val ≥ 'a'.val) && decide (c.val ≤ 'z'.val)) = false
    rw [decide_eq_false (not_le_of_isDigit h (by decide)), Bool.false_and]
  have hletter : c.isAlpha = false := by
    show (c.isUpper || c.isLower) = false
    rw [hupper, hlower, Bool.or_false]
  have hunderscore : c ≠ '_' := by
    rintro rfl
    exact absurd h (by decide)
  simp [isWordStart, hletter, hunderscore]

namespace Mode

variable {c : Located}

theorem enter_separator (h : isSeparator c.value = true) : enter c = .continue .between := by
  simp [enter, h]

theorem enter_wordStart (h : isWordStart c.value = true) :
    enter c = .continue (.word c (String.ofList [c.value])) := by
  have hseparator := isSeparator_of_isWordPart (isWordPart_of_isWordStart h)
  rw [← String.singleton_eq_ofList]
  simp [enter, hseparator, h]

theorem enter_digit (h : c.value.isDigit = true) :
    enter c = .continue (.number c (String.ofList [c.value]) false) := by
  have hseparator := isSeparator_of_isWordPart (isWordPart_of_isDigit h)
  rw [← String.singleton_eq_ofList]
  simp [enter, hseparator, isWordStart_of_isDigit h, h]

theorem token_eq_covering (place : Position) (kind : TokenKind) (c : Char) (chars : List Char)
    (value : Option TokenValue) :
    token kind ⟨c, place.offset, place.line⟩ (String.ofList chars) value =
      .ok (.covering place kind chars value) := by
  simp [token, Token.covering, Span.between, utf8ByteSize_ofList, Position.offset_past]

theorem symbol_eq_covering (place : Position) (kind : TokenKind) (c : Char) :
    symbol kind ⟨c, place.offset, place.line⟩ = .ok (.covering place kind [c] none) := by
  rw [symbol, String.singleton_eq_ofList, token_eq_covering]

end Mode

namespace Scanner

variable {start : Located} {part text : List Char}

/-! ### Modes that go on -/

/-- A mode that only remembers what it reads takes in all characters that leave it as it is. -/
theorem goes_of_forall (mode : List Char → Mode) :
    ∀ {part : List Char}, (∀ c ∈ part, ∀ (read : List Char) (place : Position),
        (mode read).read ⟨c, place.offset, place.line⟩ = .continue (mode (read ++ [c]))) →
      ∀ (read : List Char) (place : Position),
        Goes (mode read) place (part ++ text) (mode (read ++ part)) (place.past part) text := by
  intro part
  induction part with
  | nil =>
    intro _ read place
    rw [List.append_nil]
    exact .refl _ _ _
  | cons c part ih =>
    intro h read place
    obtain ⟨hc, hpart⟩ := List.forall_mem_cons.1 h
    have hfirst : Goes (mode read) place (c :: (part ++ text)) _ _ _ := goes_of_read (hc read place)
    have hrest := hfirst.trans (ih hpart (read ++ [c]) (place.next c))
    rwa [List.append_assoc, List.singleton_append] at hrest

theorem push_ofList (read : List Char) (c : Char) :
    (String.ofList read).push c = String.ofList (read ++ [c]) := by
  rw [String.push_eq_append, String.singleton_eq_ofList, ← String.ofList_append]

variable {read : List Char} {place : Position}

theorem goes_word (h : ∀ c ∈ part, isWordPart c = true) :
    Goes (.word start (String.ofList read)) place (part ++ text)
      (.word start (String.ofList (read ++ part))) (place.past part) text := by
  refine goes_of_forall (fun read => .word start (String.ofList read)) (fun c hc read place => ?_) _ _
  rw [Mode.read, if_pos (h c hc), push_ofList]

theorem goes_number {fractional : Bool} (h : ∀ c ∈ part, c.isDigit = true) :
    Goes (.number start (String.ofList read) fractional) place (part ++ text)
      (.number start (String.ofList (read ++ part)) fractional) (place.past part) text := by
  refine goes_of_forall (fun read => .number start (String.ofList read) fractional)
    (fun c hc read place => ?_) _ _
  rw [Mode.read, if_pos (h c hc), push_ofList]

theorem goes_string (h : '"' ∉ part) :
    Goes (.string start (String.ofList read)) place (part ++ text)
      (.string start (String.ofList (read ++ part))) (place.past part) text := by
  refine goes_of_forall (fun read => .string start (String.ofList read))
    (fun c hc read place => ?_) _ _
  have hquote : c ≠ '"' := fun hquote => h (hquote ▸ hc)
  rw [Mode.read, if_neg hquote, push_ofList]

theorem goes_lineComment (h : '\n' ∉ part) :
    Goes .lineComment place (part ++ text) .lineComment (place.past part) text := by
  refine goes_of_forall (fun _ => .lineComment) (fun c hc read place => ?_) [] _
  have hfeed : c ≠ '\n' := fun hfeed => h (hfeed ▸ hc)
  rw [Mode.read, if_neg hfeed]

/-- A block comment goes on as long as it is not closed, a star at its end being remembered. -/
theorem goes_blockComment : ∀ {part : List Char} {star : Bool} {place : Position},
    ¬ Closes (if star then '*' :: part else part) →
    Goes (.blockComment start star) place (part ++ text)
      (.blockComment start (part.foldl (fun _ c => c == '*') star)) (place.past part) text := by
  intro part
  induction part with
  | nil => exact fun _ => .refl _ _ _
  | cons c part ih =>
    intro star place hopen
    have hread : (Mode.blockComment start star).read ⟨c, place.offset, place.line⟩ =
        .continue (.blockComment start (c == '*')) := by
      rw [Mode.read, if_neg]
      simp only [Bool.and_eq_true, decide_eq_true_eq, not_and]
      rintro rfl rfl
      exact hopen ⟨[], part, rfl⟩
    have hfirst : Goes (.blockComment start star) place (c :: (part ++ text)) _ _ _ :=
      goes_of_read hread
    -- A star that is remembered is part of what could close the comment, and nothing before it is.
    have hlater : (if c == '*' then '*' :: part else part) <:+ c :: part := by
      by_cases hc : c = '*'
      · simp [hc]
      · simp [hc]
    have hearlier : c :: part <:+ if star then '*' :: c :: part else c :: part := by
      cases star <;> simp
    exact hfirst.trans (ih fun hcloses => hopen (hcloses.trans (hlater.trans hearlier).isInfix))

/-! ### Lexemes -/

theorem emits_of_enter {c : Char} {item : Item}
    (h : Mode.enter ⟨c, place.offset, place.line⟩ = .yield item []) :
    Emits .between place (c :: text) item (place.next c) text :=
  have hemits : Emits .between place (c :: text) item (place.next c) ([] ++ text) :=
    emits_of_read h rfl
  hemits

theorem emits_word {c : Char} (hstart : isWordStart c = true)
    (hpart : ∀ d ∈ part, isWordPart d = true) (hstop : ∀ d ∈ text.head?, isWordPart d = false) :
    Emits .between place (c :: part ++ text)
      (.ok (.covering place (.ofWord (String.ofList (c :: part))) (c :: part) none))
      (place.past (c :: part)) text := by
  have henter : Goes .between place (c :: part ++ text) _ _ _ :=
    goes_of_read (Mode.enter_wordStart hstart)
  refine (henter.trans (goes_word hpart)).emits ?_
  rw [← Mode.token_eq_covering]
  refine emits_of_stop (fun d hd => ?_) fun _ => rfl
  simp [Mode.read, hstop d hd]

theorem emits_number {lexeme : String} {fractional : Bool}
    (hdigit : ∀ d ∈ text.head?, d.isDigit = false)
    (hdot : fractional = true ∨ ∀ d ∈ text.head?, d ≠ '.') :
    Emits (.number start lexeme fractional) place text (Mode.numeral start lexeme) place text := by
  refine emits_of_stop (fun d hd => ?_) fun _ => rfl
  obtain rfl | hdot := hdot
  · simp [Mode.read, hdigit d hd]
  · simp [Mode.read, hdigit d hd, hdot d hd]

/-- A point that no digit follows is put back, with what was read behind it. -/
theorem emits_numberDot {lexeme : String} (hdigit : ∀ d ∈ text.head?, d.isDigit = false) :
    Emits (.numberDot start lexeme ⟨'.', place.offset, place.line⟩) (place.next '.') text
      (Mode.numeral start lexeme) place ('.' :: text) := by
  cases text with
  | nil =>
    have hback : Emits (.numberDot start lexeme ⟨'.', place.offset, place.line⟩) (place.next '.') []
        (Mode.numeral start lexeme) place ['.'] := emits_of_finish rfl rfl
    exact hback
  | cons d text =>
    have hback : Emits (.numberDot start lexeme ⟨'.', place.offset, place.line⟩) (place.next '.')
        (d :: text) (Mode.numeral start lexeme) place (['.', d] ++ text) :=
      emits_of_read (by simp [Mode.read, hdigit d rfl, locate]) rfl
    exact hback

theorem goes_digits {c : Char} (hdigit : c.isDigit = true) (hpart : ∀ d ∈ part, d.isDigit = true) :
    Goes .between place (c :: part ++ text)
      (.number ⟨c, place.offset, place.line⟩ (String.ofList (c :: part)) false)
      (place.past (c :: part)) text := by
  have henter : Goes .between place (c :: part ++ text) _ _ _ :=
    goes_of_read (Mode.enter_digit hdigit)
  exact henter.trans (goes_number hpart)

theorem goes_point {lexeme : String} :
    Goes (.number start lexeme false) place ('.' :: text)
      (.numberDot start lexeme ⟨'.', place.offset, place.line⟩) (place.next '.') text :=
  goes_of_read rfl

/-- Digits go on as far as they can, and a point behind them is theirs only in front of a digit. -/
theorem emits_whole {c : Char} (hdigit : c.isDigit = true) (hpart : ∀ d ∈ part, d.isDigit = true)
    (hstop : ∀ d ∈ text.head?, d.isDigit = false)
    (hpoint : ∀ rest, text = '.' :: rest → ∀ d ∈ rest.head?, d.isDigit = false) :
    Emits .between place (c :: part ++ text)
      (Mode.numeral ⟨c, place.offset, place.line⟩ (String.ofList (c :: part)))
      (place.past (c :: part)) text := by
  refine (goes_digits hdigit hpart).emits ?_
  by_cases hdot : ∀ d ∈ text.head?, d ≠ '.'
  · exact emits_number hstop (.inr hdot)
  · obtain ⟨rest, rfl⟩ : ∃ rest, text = '.' :: rest := by
      cases text with
      | nil => simp at hdot
      | cons d rest => exact ⟨rest, by simpa using hdot⟩
    exact goes_point.emits (emits_numberDot (hpoint rest rfl))

theorem emits_fractional {c d : Char} {fraction : List Char} (hdigit : c.isDigit = true)
    (hpart : ∀ d ∈ part, d.isDigit = true) (hfirst : d.isDigit = true)
    (hfraction : ∀ d ∈ fraction, d.isDigit = true) (hstop : ∀ d ∈ text.head?, d.isDigit = false) :
    Emits .between place (c :: part ++ '.' :: d :: fraction ++ text)
      (Mode.numeral ⟨c, place.offset, place.line⟩ (String.ofList (c :: part ++ '.' :: d :: fraction)))
      (place.past (c :: part ++ '.' :: d :: fraction)) text := by
  have hread (start dot : Located) (place : Position) (hdot : dot.value = '.') :
      (Mode.numberDot start (String.ofList (c :: part)) dot).read ⟨d, place.offset, place.line⟩ =
        .continue (.number start (String.ofList (c :: part ++ ['.', d])) true) := by
    rw [Mode.read, if_pos hfirst, push_ofList, push_ofList, hdot, List.append_assoc]
    rfl
  have hpoint : Goes .between place (c :: part ++ '.' :: (d :: fraction ++ text)) _ _ _ :=
    (goes_digits hdigit hpart).trans goes_point
  have hfurther := (hpoint.trans (goes_of_read (hread _ _ _ rfl))).trans (goes_number hfraction)
  simpa using hfurther.emits (emits_number hstop (.inl rfl))

theorem emits_string (h : '"' ∉ part) :
    Emits .between place ('"' :: part ++ ['"'] ++ text)
      (.ok (.covering place .string ('"' :: part ++ ['"']) (some (.text (String.ofList part)))))
      (place.past ('"' :: part ++ ['"'])) text := by
  have henter : Goes .between place ('"' :: (part ++ '"' :: text)) (.string _ (String.ofList [])) _ _ :=
    goes_of_read rfl
  have hlexeme : "\"" ++ String.ofList part ++ "\"" = String.ofList ('"' :: part ++ ['"']) := by
    rw [String.ofList_append, String.ofList_cons]
    rfl
  have hclose : Emits (.string ⟨'"', place.offset, place.line⟩ (String.ofList part))
      ((place.next '"').past part) ('"' :: text) _ (((place.next '"').past part).next '"')
      ([] ++ text) :=
    emits_of_read (by rw [Mode.read, if_pos rfl, hlexeme, Mode.token_eq_covering]; rfl) rfl
  simpa using (henter.trans (goes_string h)).emits hclose

theorem emits_unclosedString (h : '"' ∉ part) :
    Emits .between place ('"' :: part) (.error (.covering place .unclosedString ('"' :: part)))
      (place.past ('"' :: part)) [] := by
  have henter : Goes .between place ('"' :: (part ++ [])) (.string _ (String.ofList [])) _ _ :=
    goes_of_read rfl
  have hend : Emits (.string ⟨'"', place.offset, place.line⟩ (String.ofList ([] ++ part)))
      ((place.next '"').past part) [] (.error (.covering place .unclosedString ('"' :: part)))
      ((place.next '"').past part) [] := emits_of_finish rfl rfl
  simpa using (henter.trans (goes_string h)).emits hend

/-! ### Comments -/

theorem goes_separator {c : Char} (h : isSeparator c = true) :
    Goes .between place (c :: text) .between (place.next c) text :=
  goes_of_read (Mode.enter_separator h)

theorem goes_slash {c : Char} {mode : Mode} (h : (Mode.slash ⟨'/', place.offset, place.line⟩).read
      ⟨c, (place.next '/').offset, (place.next '/').line⟩ = .continue mode) :
    Goes .between place ('/' :: c :: text) mode ((place.next '/').next c) text :=
  have henter : Goes .between place ('/' :: c :: text) (.slash _) _ _ := goes_of_read rfl
  henter.trans (goes_of_read h)

/-- A line comment is left at the end of the line, or of the text. -/
theorem emits_lineEnd {item : Item} {after : Position} {rest : List Char}
    (hstop : ∀ c ∈ text.head?, c = '\n') (h : Emits .between place text item after rest) :
    Emits .lineComment place text item after rest := by
  intro scanner hstands
  obtain ⟨further, hadvance, hfurther⟩ := h scanner hstands
  refine ⟨further, ?_, hfurther⟩
  cases text with
  | nil => rw [advance_of_none hstands.take?_nil.1, ← hadvance]; rfl
  | cons c text =>
    obtain rfl := hstop c rfl
    obtain ⟨next, htake, -⟩ := hstands.take?_cons
    rw [advance_of_some htake] at hadvance ⊢
    exact hadvance

theorem emits_lineComment {item : Item} {after : Position} {rest : List Char} (h : '\n' ∉ part)
    (hstop : ∀ c ∈ text.head?, c = '\n')
    (hnext : Emits .between (place.past ('/' :: '/' :: part)) text item after rest) :
    Emits .between place ('/' :: '/' :: part ++ text) item after rest :=
  have hopen : Goes .between place ('/' :: '/' :: (part ++ text)) .lineComment _ _ := goes_slash rfl
  (hopen.trans (goes_lineComment h)).emits (emits_lineEnd hstop hnext)

theorem goes_blockComment_of_closes (h : ¬ Closes (part ++ ['*'])) :
    Goes .between place ('/' :: '*' :: part ++ '*' :: '/' :: text) .between
      (place.past ('/' :: '*' :: part ++ ['*', '/'])) text := by
  have hopen : Goes .between place ('/' :: '*' :: (part ++ ['*'] ++ '/' :: text))
      (.blockComment _ false) _ _ := goes_slash rfl
  have hinside := hopen.trans (goes_blockComment h)
  rw [List.foldl_append] at hinside
  simpa using hinside.trans (goes_of_read rfl)

theorem emits_unclosedComment (h : ¬ Closes part) :
    Emits .between place ('/' :: '*' :: part)
      (.error (.covering place .unclosedComment ('/' :: '*' :: part)))
      (place.past ('/' :: '*' :: part)) [] := by
  have hopen : Goes .between place ('/' :: '*' :: (part ++ [])) (.blockComment _ false) _ _ :=
    goes_slash rfl
  have hend (star : Bool) : Emits (.blockComment ⟨'/', place.offset, place.line⟩ star)
      (((place.next '/').next '*').past part) []
      (.error (.covering place .unclosedComment ('/' :: '*' :: part)))
      (((place.next '/').next '*').past part) [] := emits_of_finish rfl rfl
  simpa using (hopen.trans (goes_blockComment h)).emits (hend _)

/-! ### Symbols -/

section
variable {c : Char} {alone paired : TokenKind}
  (henter : Mode.enter ⟨c, place.offset, place.line⟩ =
    .continue (.operator ⟨c, place.offset, place.line⟩ alone paired))
include henter

theorem emits_alone (hstop : ∀ d ∈ text.head?, d ≠ '=') :
    Emits .between place (c :: text) (.ok (.covering place alone [c] none)) (place.next c) text := by
  have hoperator : Goes .between place (c :: text) _ _ _ := goes_of_read henter
  refine hoperator.emits ?_
  rw [← Mode.symbol_eq_covering]
  exact emits_of_stop (fun d hd => by simp [Mode.read, hstop d hd]) fun _ => rfl

theorem emits_paired :
    Emits .between place (c :: '=' :: text) (.ok (.covering place paired [c, '='] none))
      ((place.next c).next '=') text := by
  have hoperator : Goes .between place (c :: '=' :: text) _ _ _ := goes_of_read henter
  have hpair : Emits (.operator ⟨c, place.offset, place.line⟩ alone paired) (place.next c)
      ('=' :: text) (.ok (.covering place paired [c, '='] none)) ((place.next c).next '=')
      ([] ++ text) :=
    emits_of_read (by rw [Mode.read, if_pos rfl, Mode.token_eq_covering]; rfl) rfl
  exact hoperator.emits hpair

end

theorem emits_slash (hopen : ¬ OpensComment ('/' :: text)) :
    Emits .between place ('/' :: text) (.ok (.covering place .slash ['/'] none))
      (place.next '/') text := by
  have hslash : Goes .between place ('/' :: text) (.slash _) _ _ := goes_of_read rfl
  refine hslash.emits ?_
  rw [← Mode.symbol_eq_covering]
  refine emits_of_stop (fun d hd => ?_) fun _ => rfl
  obtain ⟨rest, rfl⟩ := List.head?_eq_some_iff.1 hd
  have hline : d ≠ '/' := fun h => hopen (h ▸ .line rest)
  have hblock : d ≠ '*' := fun h => hopen (h ▸ .block rest)
  simp [Mode.read, hline, hblock]

/-- A symbol is read as a whole where neither another one nor a comment goes on with it. -/
theorem emits_symbol {kind : TokenKind} {chars : List Char}
    (h : TokenKind.ofSymbol chars = some kind) (hopen : ¬ OpensComment (chars ++ text))
    (hstop : ∀ d ∈ text.head?, TokenKind.ofSymbol (chars ++ [d]) = none) :
    Emits .between place (chars ++ text) (.ok (.covering place kind chars none)) (place.past chars)
      text := by
  have hequal {c : Char} (hsome : (TokenKind.ofSymbol [c, '=']).isSome = true)
      (hchars : chars = [c]) : ∀ d ∈ text.head?, d ≠ '=' := by
    rintro d hd rfl
    have hnone := hstop _ hd
    rw [hchars, List.singleton_append] at hnone
    simp [hnone] at hsome
  unfold TokenKind.ofSymbol at h
  split at h <;> cases h
  case h_11 => exact emits_slash hopen
  case h_12 | h_14 | h_16 | h_18 => exact emits_alone rfl (hequal rfl rfl)
  case h_13 | h_15 | h_17 | h_19 => exact emits_paired rfl
  all_goals exact emits_of_enter (by rw [← Mode.symbol_eq_covering]; rfl)

end Scanner

end Lox
