import Lox.Proofs.Token.LongestMatch
import Mathlib.Data.Nat.Find

/-!
# The items of a text

Every text has items, and the scanner yields them, so no text has two lists of items.
-/

namespace Lox

/-! ### Every text has a next item -/

/-- A lexeme of the length is at the front of the text. -/
def Fronts (text : List Char) (length : Nat) : Prop :=
  ∃ kind chars, Lexeme kind chars ∧ chars <+: text ∧ chars.length = length

open Classical in
/-- Where a lexeme begins, one of those that do is the longest. -/
theorem exists_longest {text chars : List Char} {kind : TokenKind} (h : Lexeme kind chars)
    (hfront : chars <+: text) :
    ∃ kind chars rest, text = chars ++ rest ∧ Longest kind chars text := by
  have hsome : Fronts text chars.length := ⟨kind, chars, h, hfront, rfl⟩
  obtain ⟨longest, most, hmost, ⟨rest, hrest⟩, hlength⟩ :=
    Nat.findGreatest_spec hfront.length_le hsome
  refine ⟨longest, most, rest, hrest.symm, hmost, fun {other longer} hother hlonger => ?_⟩
  rw [hlength]
  exact Nat.le_findGreatest hlonger.length_le ⟨other, longer, hother, hlonger, rfl⟩

theorem Lexeme.ne_nil {kind : TokenKind} {chars : List Char} (h : Lexeme kind chars) :
    chars ≠ [] := by
  cases h with
  | symbol h =>
    rintro rfl
    cases h
  | whole h => exact h.1
  | fractional => simp
  | keyword h => cases h; simp
  | identifier h => cases h; simp
  | string => simp

theorem Lexeme.exists_denotes {kind : TokenKind} {chars : List Char} (h : Lexeme kind chars) :
    ∃ value, Denotes kind chars value := by
  by_cases hnumber : kind = .number
  · subst hnumber
    obtain ⟨value, hvalue⟩ := h.exists_read?
    exact ⟨_, .number hvalue⟩
  by_cases hstring : kind = .string
  · subst hstring
    cases h with
    | symbol h => exact absurd rfl (TokenKind.ne_of_ofSymbol h).2
    | string => exact ⟨_, .string _⟩
  · exact ⟨_, .plain hnumber hstring⟩

/-- A block comment that is closed somewhere is closed at a first place. -/
theorem Closes.exists_first {text : List Char} (h : Closes text) :
    ∃ body rest, text = body ++ '*' :: '/' :: rest ∧ ¬ Closes (body ++ ['*']) := by
  induction text with
  | nil => exact absurd h.length_le (by simp)
  | cons c text ih =>
    by_cases hhere : ['*', '/'] <+: c :: text
    · obtain ⟨rest, hrest⟩ := hhere
      exact ⟨[], rest, hrest.symm, fun hcloses => absurd hcloses.length_le (by simp)⟩
    · obtain ⟨body, rest, rfl, hbody⟩ := ih ((List.infix_cons_iff.1 h).resolve_left hhere)
      refine ⟨c :: body, rest, rfl, fun hcloses => ?_⟩
      obtain hfront | hlater := List.infix_cons_iff.1 hcloses
      · refine hhere (hfront.trans ⟨'/' :: rest, ?_⟩)
        simp
      · exact hbody hlater

/-- A line ends at its line feed, or with the text. -/
theorem exists_line (text : List Char) :
    ∃ body rest, text = body ++ rest ∧ '\n' ∉ body ∧ ∀ c ∈ rest.head?, c = '\n' := by
  induction text with
  | nil => exact ⟨[], [], rfl, by simp, by simp⟩
  | cons c text ih =>
    by_cases hfeed : c = '\n'
    · exact ⟨[], c :: text, rfl, by simp, by simpa using hfeed⟩
    · obtain ⟨body, rest, rfl, hbody, hrest⟩ := ih
      exact ⟨c :: body, rest, rfl, by simp [hbody, Ne.symm hfeed], hrest⟩

/-- The text has a next item, and unless it is the end there is less text behind it. -/
def HasNext (place : Position) (text : List Char) : Prop :=
  ∃ item after rest, NextItem place text item after rest ∧
    (isLast item = true ∨ rest.length < text.length)

theorem HasNext.skip {place later : Position} {text shorter : List Char}
    (h : HasNext later shorter) (hlength : shorter.length ≤ text.length)
    (hskip : ∀ {item after rest}, NextItem later shorter item after rest →
      NextItem place text item after rest) : HasNext place text := by
  obtain ⟨item, after, rest, hnext, hless⟩ := h
  exact ⟨item, after, rest, hskip hnext, hless.imp_right fun h => Nat.lt_of_lt_of_le h hlength⟩

/-- Where nothing is skipped there is a lexeme, a string that is not closed, or an unknown
character. -/
theorem hasNext_of_not_skipped {place : Position} {c : Char} {text : List Char}
    (hseparator : isSeparator c = false) (hopen : ¬ OpensComment (c :: text)) :
    HasNext place (c :: text) := by
  by_cases hlexeme : ∃ kind chars, Lexeme kind chars ∧ chars <+: c :: text
  · obtain ⟨kind, chars, h, hfront⟩ := hlexeme
    obtain ⟨kind, chars, rest, htext, hlongest⟩ := exists_longest h hfront
    obtain ⟨value, hvalue⟩ := hlongest.lexeme.exists_denotes
    have hpos := List.length_pos_iff.2 hlongest.lexeme.ne_nil
    rw [htext] at hopen hlongest ⊢
    refine ⟨_, _, rest, .token hopen hlongest hvalue, .inr ?_⟩
    rw [List.length_append]
    omega
  · have hnone : ∀ kind chars, Lexeme kind chars → ¬ chars <+: c :: text :=
      fun kind chars h hfront => hlexeme ⟨kind, chars, h, hfront⟩
    by_cases hquote : c = '"'
    · subst hquote
      refine ⟨_, _, [], .unclosedString fun hmem => ?_, .inr (Nat.succ_pos _)⟩
      obtain ⟨contents, rest, rfl, hcontents⟩ := List.eq_append_cons_of_mem hmem
      exact hnone _ _ (.string hcontents) ⟨rest, by simp⟩
    · exact ⟨_, _, text, .unrecognized hseparator hquote hnone, .inr (Nat.lt_succ_self _)⟩

/-- Behind a comment there is a shorter text. -/
theorem hasNext_of_opensComment {text : List Char} (h : OpensComment text)
    (ih : ∀ later shorter, shorter.length < text.length → HasNext later shorter)
    (place : Position) : HasNext place text := by
  cases h with
  | line text =>
    obtain ⟨body, rest, rfl, hbody, hstop⟩ := exists_line text
    have hlength : rest.length < ('/' :: '/' :: body ++ rest).length := by
      simp only [List.length_append, List.length_cons]
      omega
    exact (ih _ rest hlength).skip (Nat.le_of_lt hlength) (.lineComment hbody hstop)
  | block text =>
    by_cases hcloses : Closes text
    · obtain ⟨body, rest, rfl, hbody⟩ := hcloses.exists_first
      have hlength : rest.length < ('/' :: '*' :: body ++ '*' :: '/' :: rest).length := by
        simp only [List.length_append, List.length_cons]
        omega
      exact (ih _ rest hlength).skip (Nat.le_of_lt hlength) (.blockComment hbody)
    · exact ⟨_, _, [], .unclosedComment hcloses, .inr (Nat.succ_pos _)⟩

theorem hasNext (place : Position) (text : List Char) : HasNext place text := by
  cases text with
  | nil => exact ⟨_, place, [], .ending place, .inl rfl⟩
  | cons c tail =>
    by_cases hseparator : isSeparator c = true
    · exact (hasNext (place.next c) tail).skip (Nat.le_succ _) (.separator hseparator)
    · by_cases hopen : OpensComment (c :: tail)
      · exact hasNext_of_opensComment hopen (fun later shorter hshorter => hasNext later shorter) place
      · exact hasNext_of_not_skipped (Bool.eq_false_iff.2 hseparator) hopen
termination_by text.length
decreasing_by
  · exact Nat.lt_succ_self _
  · exact hshorter

theorem exists_scans (text : List Char) (place : Position) :
    ∃ items, Scans place text items ∧ items.length ≤ text.length + 1 := by
  obtain ⟨item, after, rest, hnext, hless⟩ := hasNext place text
  by_cases hlast : isLast item = true
  · exact ⟨[item], .last hnext hlast, by simp⟩
  · have hshorter := hless.resolve_left hlast
    obtain ⟨items, hitems, hlength⟩ := exists_scans rest after
    exact ⟨item :: items, .more hnext (Bool.eq_false_iff.2 hlast) hitems, by simp; omega⟩
termination_by text.length

/-! ### The scanner yields the items -/

namespace Scanner

variable {scanner : Scanner} {place : Position} {text : List Char}

/-- The scanner yields the next item, and goes on behind it unless that was the end. -/
theorem next?_of_nextItem {item : Item} {after : Position} {rest : List Char}
    (h : NextItem place text item after rest) (hstands : scanner.Stands place text)
    (hfinished : scanner.finished = false) :
    ∃ further : Scanner, scanner.next? = (some item, further) ∧ further.Stands after rest ∧
      further.finished = isLast item := by
  obtain ⟨further, hadvance, hfurther, -⟩ := emits_nextItem h scanner hstands
  refine ⟨{ further with finished := isLast item }, ?_, hfurther, rfl⟩
  rw [next?, hfinished, nextToken, hadvance]
  cases item <;> rfl

theorem take_of_finished (h : scanner.finished = true) (count : Nat) : scanner.take count = [] := by
  cases count <;> simp [take, next?, h]

/-- However many items are asked for, those of the text are yielded, from the first on. -/
theorem take_of_scans {items : List Item} (h : Scans place text items) :
    ∀ {scanner : Scanner}, scanner.Stands place text → scanner.finished = false →
      ∀ count, scanner.take count = items.take count := by
  induction h with
  | last next h =>
    intro scanner hstands hfinished count
    cases count with
    | zero => rfl
    | succ count =>
      obtain ⟨further, hnext, -, hlast⟩ := next?_of_nextItem next hstands hfinished
      rw [take, hnext, List.take_succ_cons, List.take_nil]
      exact congrArg _ (take_of_finished (hlast.trans h) count)
  | more next h _ ih =>
    intro scanner hstands hfinished count
    cases count with
    | zero => rfl
    | succ count =>
      obtain ⟨further, hnext, hfurther, hlast⟩ := next?_of_nextItem next hstands hfinished
      rw [take, hnext, List.take_succ_cons]
      exact congrArg _ (ih hfurther (hlast.trans h) count)

end Scanner

/-- A text has one list of items, and the scanner yields just these, from the first on and however
many are asked for. -/
theorem scanner_takes_longest_match (text : String) :
    ∃ found : List Item, (∀ others, Scans ⟨0, 1⟩ text.toList others ↔ others = found) ∧
      (∀ count, (Scanner.ofText text).take count = found.take count) ∧ items text = found := by
  obtain ⟨found, hfound, hlength⟩ := exists_scans text.toList ⟨0, 1⟩
  have htake {others : List Item} (h : Scans ⟨0, 1⟩ text.toList others) (count : Nat) :
      (Scanner.ofText text).take count = others.take count :=
    Scanner.take_of_scans h (Scanner.stands_ofText text) rfl count
  refine ⟨found, fun others => ⟨fun hothers => ?_, fun h => h ▸ hfound⟩, htake hfound, ?_⟩
  · -- Lists that agree up to the length of the longer one are the same.
    have hall := (htake hothers (max others.length found.length)).symm.trans (htake hfound _)
    rwa [List.take_of_length_le (Nat.le_max_left _ _), List.take_of_length_le (Nat.le_max_right _ _)]
      at hall
  · rw [items, htake hfound, List.take_of_length_le]
    rwa [← String.length_toList]

end Lox
