import Lox.Proofs.Token.Modes

/-!
# The values of numerals

A lexeme of digits, with a fraction or without one, is read as a whole: as the double nearest to the
number that its digits write. So a number token always has a value.
-/

namespace Lox

namespace Number

theorem spanDigits_append {digits rest : List Char} (h : ∀ c ∈ digits, c.isDigit = true)
    (hstop : ∀ c ∈ rest.head?, c.isDigit = false) : spanDigits (digits ++ rest) = (digits, rest) := by
  rw [spanDigits, List.span_eq_takeWhile_dropWhile, List.takeWhile_append_of_pos h,
    List.dropWhile_append_of_pos h]
  cases rest with
  | nil => simp
  | cons c rest => simp [hstop c rfl]

theorem spanDigits_self {digits : List Char} (h : Digits digits) :
    spanDigits digits = (digits, []) := by
  have hspan : spanDigits (digits ++ []) = _ := spanDigits_append h.2 (by simp)
  rwa [List.append_nil] at hspan

theorem readUnsigned?_whole {digits : List Char} (h : Digits digits) :
    readUnsigned? digits = some (ofDecimal (digitsValue 0 digits) 0) := by
  simp [readUnsigned?, spanDigits_self h, h.1, readExponent?, digitsValue]

theorem readUnsigned?_fractional {digits fraction : List Char} (h : Digits digits)
    (hfraction : Digits fraction) : readUnsigned? (digits ++ '.' :: fraction) =
      some (ofDecimal (digitsValue (digitsValue 0 digits) fraction) (-fraction.length)) := by
  have hwhole : spanDigits (digits ++ '.' :: fraction) = _ :=
    spanDigits_append h.2 fun c hc => Option.some.inj hc ▸ rfl
  simp [readUnsigned?, hwhole, spanDigits_self hfraction, h.1, readExponent?]

theorem toLower_of_isDigit {c : Char} (h : c.isDigit = true) : c.toLower = c :=
  dif_neg fun hupper => not_le_of_isDigit h (by decide) hupper.1

theorem readNamed?_of_isDigit {c : Char} {rest : List Char} (h : c.isDigit = true) :
    readNamed? (c :: rest) = none := by
  have hne {name : String} (first : Char) (others : List Char) (hname : name.toList = first :: others)
      (hfirst : first.isDigit = false) : String.ofList ((c :: rest).map Char.toLower) ≠ name := by
    rintro rfl
    rw [String.toList_ofList, List.map_cons, toLower_of_isDigit h] at hname
    obtain ⟨rfl, -⟩ := List.cons.inj hname
    simp [h] at hfirst
  unfold readNamed?
  split
  case h_1 heq => exact absurd heq (hne 'i' _ rfl rfl)
  case h_2 heq => exact absurd heq (hne 'i' _ rfl rfl)
  case h_3 heq => exact absurd heq (hne 'n' _ rfl rfl)
  case h_4 => rfl

theorem read?_of_isDigit {c : Char} {rest : List Char} (h : c.isDigit = true) :
    read? (String.ofList (c :: rest)) = readUnsigned? (c :: rest) := by
  have hminus : c ≠ '-' := by
    rintro rfl
    exact absurd h (by decide)
  have hplus : c ≠ '+' := by
    rintro rfl
    exact absurd h (by decide)
  simp [read?, hminus, hplus, readNamed?_of_isDigit h]

end Number

theorem Lexeme.exists_read? {chars : List Char} (h : Lexeme .number chars) :
    ∃ value, Number.read? (String.ofList chars) = some value := by
  cases h with
  | symbol h => exact absurd rfl (TokenKind.ne_of_ofSymbol h).1
  | whole h =>
    obtain ⟨c, rest, rfl, hdigit, -⟩ := h.exists_cons
    exact ⟨_, by rw [Number.read?_of_isDigit hdigit, Number.readUnsigned?_whole h]⟩
  | fractional h hfraction =>
    have hread := Number.readUnsigned?_fractional h hfraction
    obtain ⟨c, rest, rfl, hdigit, -⟩ := h.exists_cons
    exact ⟨_, by rw [List.cons_append, Number.read?_of_isDigit hdigit, ← List.cons_append, hread]⟩

end Lox
