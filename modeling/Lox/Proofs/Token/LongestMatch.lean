import Lox.Proofs.Token.Modes
import Lox.Proofs.Token.Numeral

/-!
# The scanner takes the longest lexeme

The modes of the scanner look at one character at a time and may have to put some back. What they
come to nevertheless is what looking at the whole text would give: separators and comments are
skipped, and then the longest lexeme is taken. So the items that the scanner yields one after the
other are those of the text, and there is only one list of items that a text can have.
-/

namespace Lox

namespace Keyword

theorem ofSpelling?_spelling (word : Keyword) : ofSpelling? word.spelling = some word := by
  cases word <;> decide

end Keyword

namespace TokenKind

theorem ofWord_spelling (word : Keyword) : ofWord word.spelling = .keyword word := by
  rw [ofWord, Keyword.ofSpelling?_spelling]

theorem ofWord_of_free {spelling : String} (h : ∀ word : Keyword, word.spelling ≠ spelling) :
    ofWord spelling = .identifier := by
  have hnone : Keyword.ofSpelling? spelling = none :=
    List.find?_eq_none.2 fun word _ => by simpa using h word
  rw [ofWord, hnone]

/-- A character that is no symbol alone begins none either. -/
theorem ne_of_ofSymbol_eq_none {c : Char} (h : ofSymbol [c] = none) :
    ofSymbol? c = none ∧ ofOperator? c = none ∧ c ≠ '/' := by
  refine ⟨?_, ?_, ?_⟩
  · unfold ofSymbol?
    split <;> first | rfl | simp [ofSymbol] at h
  · unfold ofOperator?
    split <;> first | rfl | simp [ofSymbol] at h
  · rintro rfl
    simp [ofSymbol] at h

end TokenKind

theorem Word.exists_lexeme {chars : List Char} (h : Word chars) : ∃ kind, Lexeme kind chars := by
  by_cases hword : ∃ word : Keyword, word.spelling = String.ofList chars
  · obtain ⟨word, hspells⟩ := hword
    exact ⟨_, .keyword h hspells⟩
  · exact ⟨_, .identifier h fun word hspells => hword ⟨word, hspells⟩⟩

theorem Denotes.eq_none {kind : TokenKind} {chars : List Char} {value : Option TokenValue}
    (h : Denotes kind chars value) (hnumber : kind ≠ .number) (hstring : kind ≠ .string) :
    value = none := by
  cases h with
  | number => exact absurd rfl hnumber
  | string => exact absurd rfl hstring
  | plain => rfl

theorem Denotes.eq_text {contents : List Char} {value : Option TokenValue}
    (h : Denotes .string ('"' :: contents ++ ['"']) value) :
    value = some (.text (String.ofList contents)) := by
  generalize hchars : '"' :: contents ++ ['"'] = chars at h
  cases h with
  | string others =>
    obtain rfl : contents = others := by simpa using hchars
    rfl
  | plain _ hstring => exact absurd rfl hstring

theorem Digits.snoc {digits : List Char} {c : Char} (h : Digits digits) (hc : c.isDigit = true) :
    Digits (digits ++ [c]) :=
  ⟨by simp, List.forall_mem_append.2 ⟨h.2, List.forall_mem_singleton.2 hc⟩⟩

theorem Mode.numeral_eq_covering {chars : List Char} {number : Float}
    (reads : Number.read? (String.ofList chars) = some number) (place : Position) (c : Char) :
    numeral ⟨c, place.offset, place.line⟩ (String.ofList chars) =
      .ok (.covering place .number chars (some (.number number))) := by
  rw [numeral, reads, Option.map_some, token_eq_covering]

section
variable {kind : TokenKind} {chars text : List Char}

/-- What goes on behind the longest lexeme makes no longer one of it. -/
theorem Longest.not_lexeme (h : Longest kind chars (chars ++ text)) {other : TokenKind}
    {more rest : List Char} (hmore : more ≠ []) (htext : text = more ++ rest) :
    ¬ Lexeme other (chars ++ more) := by
  intro hlexeme
  have hlength := h.length_le hlexeme ⟨rest, by rw [htext, List.append_assoc]⟩
  have hpos := List.length_pos_iff.2 hmore
  rw [List.length_append] at hlength
  omega

theorem Longest.not_lexeme_head (h : Longest kind chars (chars ++ text)) {other : TokenKind} :
    ∀ d ∈ text.head?, ¬ Lexeme other (chars ++ [d]) := by
  intro d hd
  obtain ⟨rest, htext⟩ := List.head?_eq_some_iff.1 hd
  exact h.not_lexeme (by simp) htext

end

namespace Scanner

variable {place : Position} {kind : TokenKind} {chars text : List Char} {value : Option TokenValue}
  {number : Float}

theorem emits_longestWord (hword : Word chars) (longest : Longest kind chars (chars ++ text)) :
    Emits .between place (chars ++ text)
      (.ok (.covering place (.ofWord (String.ofList chars)) chars none)) (place.past chars) text := by
  obtain ⟨hstart, hpart⟩ := hword
  refine emits_word hstart hpart fun d hd => Bool.eq_false_iff.2 fun hd' => ?_
  have hlonger : Word (_ :: _ ++ [d]) :=
    .of hstart (List.forall_mem_append.2 ⟨hpart, List.forall_mem_singleton.2 hd'⟩)
  obtain ⟨other, hlexeme⟩ := hlonger.exists_lexeme
  exact longest.not_lexeme_head d hd hlexeme

/-- The digits of the longest number go no further, and what follows them is no fraction. -/
theorem emits_longestWhole (h : Digits chars) (longest : Longest kind chars (chars ++ text))
    (reads : Number.read? (String.ofList chars) = some number) :
    Emits .between place (chars ++ text)
      (.ok (.covering place .number chars (some (.number number)))) (place.past chars) text := by
  obtain ⟨c, part, rfl, hdigit, hpart⟩ := h.exists_cons
  have hstop : ∀ d ∈ text.head?, d.isDigit = false := by
    refine fun d hd => Bool.eq_false_iff.2 fun hd' => ?_
    exact longest.not_lexeme_head d hd (.whole (h.snoc hd'))
  have hpoint : ∀ rest, text = '.' :: rest → ∀ d ∈ rest.head?, d.isDigit = false := by
    intro rest htext d hd
    refine Bool.eq_false_iff.2 fun hd' => ?_
    obtain ⟨others, rfl⟩ := List.head?_eq_some_iff.1 hd
    have hfraction : Digits [d] := ⟨by simp, List.forall_mem_singleton.2 hd'⟩
    exact longest.not_lexeme (by simp) htext (.fractional h hfraction)
  rw [← Mode.numeral_eq_covering reads place c]
  exact emits_whole hdigit hpart hstop hpoint

theorem emits_longestFractional {fraction : List Char} (h : Digits chars)
    (hfraction : Digits fraction)
    (longest : Longest kind (chars ++ '.' :: fraction) (chars ++ '.' :: fraction ++ text))
    (reads : Number.read? (String.ofList (chars ++ '.' :: fraction)) = some number) :
    Emits .between place (chars ++ '.' :: fraction ++ text)
      (.ok (.covering place .number (chars ++ '.' :: fraction) (some (.number number))))
      (place.past (chars ++ '.' :: fraction)) text := by
  obtain ⟨c, part, rfl, hdigit, hpart⟩ := h.exists_cons
  have hstop : ∀ d ∈ text.head?, d.isDigit = false := by
    refine fun d hd => Bool.eq_false_iff.2 fun hd' => ?_
    have hlonger := Lexeme.fractional h (hfraction.snoc hd')
    rw [← List.cons_append, ← List.append_assoc] at hlonger
    exact longest.not_lexeme_head d hd hlonger
  obtain ⟨d, digits, rfl, hfirst, hdigits⟩ := hfraction.exists_cons
  rw [← Mode.numeral_eq_covering reads place c]
  exact emits_fractional hdigit hpart hfirst hdigits hstop

/-- Where no comment begins, the scanner takes the longest lexeme. -/
theorem emits_longest (hopen : ¬ OpensComment (chars ++ text))
    (longest : Longest kind chars (chars ++ text)) (denotes : Denotes kind chars value) :
    Emits .between place (chars ++ text) (.ok (.covering place kind chars value))
      (place.past chars) text := by
  cases longest.lexeme with
  | symbol h =>
    obtain ⟨hnumber, hstring⟩ := TokenKind.ne_of_ofSymbol h
    obtain rfl := denotes.eq_none hnumber hstring
    refine emits_symbol h hopen fun d hd => ?_
    refine Option.eq_none_iff_forall_ne_some.2 fun other hother => ?_
    exact longest.not_lexeme_head d hd (.symbol hother)
  | whole h =>
    cases denotes with
    | number reads => exact emits_longestWhole h longest reads
    | plain hnumber => exact absurd rfl hnumber
  | fractional h hfraction =>
    cases denotes with
    | number reads => exact emits_longestFractional h hfraction longest reads
    | plain hnumber => exact absurd rfl hnumber
  | keyword h spells =>
    obtain rfl := denotes.eq_none (by simp) (by simp)
    have hemits : Emits .between place (chars ++ text) _ _ _ := emits_longestWord h longest
    rwa [← spells, TokenKind.ofWord_spelling] at hemits
  | identifier h free =>
    obtain rfl := denotes.eq_none (by simp) (by simp)
    have hemits : Emits .between place (chars ++ text) _ _ _ := emits_longestWord h longest
    rwa [TokenKind.ofWord_of_free free] at hemits
  | string h =>
    obtain rfl := denotes.eq_text
    exact emits_string h

/-- Where nothing that is known begins, the scanner reports the character. -/
theorem emits_unrecognized {c : Char} (hseparator : isSeparator c = false) (hquote : c ≠ '"')
    (h : ∀ kind chars, Lexeme kind chars → ¬ chars <+: c :: text) :
    Emits .between place (c :: text) (.error (.covering place (.unrecognized c) [c]))
      (place.next c) text := by
  have halone {kind : TokenKind} : ¬ Lexeme kind [c] := fun hlexeme => h _ _ hlexeme ⟨text, rfl⟩
  have hword : isWordStart c = false := Bool.eq_false_iff.2 fun hstart => by
    obtain ⟨kind, hlexeme⟩ := (Word.of hstart (List.forall_mem_nil _)).exists_lexeme
    exact halone hlexeme
  have hdigit : c.isDigit = false := Bool.eq_false_iff.2 fun hdigit =>
    halone (.whole ⟨by simp, List.forall_mem_singleton.2 hdigit⟩)
  have hsymbol : TokenKind.ofSymbol [c] = none :=
    Option.eq_none_iff_forall_ne_some.2 fun kind hkind => halone (.symbol hkind)
  obtain ⟨hsimple, hoperator, hslash⟩ := TokenKind.ne_of_ofSymbol_eq_none hsymbol
  refine emits_of_enter ?_
  simp only [Mode.enter, hseparator, hword, hdigit, hquote, hslash, hsimple, hoperator]
  rfl

/-- The scanner comes to the next item of the text, and stands behind it. -/
theorem emits_nextItem {item : Item} {after : Position} {rest : List Char}
    (h : NextItem place text item after rest) : Emits .between place text item after rest := by
  induction h with
  | separator h _ ih => exact (goes_separator h).emits ih
  | lineComment h stops _ ih => exact emits_lineComment h stops ih
  | blockComment h _ ih => exact (goes_blockComment_of_closes h).emits ih
  | token h longest denotes => exact emits_longest h longest denotes
  | unclosedString h => exact emits_unclosedString h
  | unclosedComment h => exact emits_unclosedComment h
  | unrecognized hseparator hquote h => exact emits_unrecognized hseparator hquote h
  | ending place => exact emits_of_finish rfl rfl

end Scanner

end Lox
