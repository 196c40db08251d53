import Lox.Proofs.Token.Lexeme

/-!
# Where a scanner stands

Characters that were put back and the unread text together are the text that a scanner is in front
of, and it makes no difference to what the scanner does next how many of them were put back. So a run
of the scanner can be described by the text and the place alone: `Goes` says how it gets from one
mode to another, and `Emits` how it comes to an item.
-/

namespace Lox

namespace Scanner

/-- The characters of a text with their places. -/
def locate (place : Position) : List Char → List Located
  | [] => []
  | c :: text => ⟨c, place.offset, place.line⟩ :: locate (place.next c) text

/-- The scanner is in front of a text that begins at the place, some of it being held back. -/
def Stands (scanner : Scanner) (place : Position) (text : List Char) : Prop :=
  ∃ held, text = held ++ scanner.unread ∧ scanner.pending = locate place held ∧
    scanner.position = place.past held

theorem stands_ofText (text : String) : (ofText text).Stands ⟨0, 1⟩ text.toList :=
  ⟨[], rfl, rfl, rfl⟩

variable {scanner : Scanner} {place after final : Position} {text rest last : List Char}

theorem Stands.take?_cons {c : Char} (h : scanner.Stands place (c :: text)) :
    ∃ further : Scanner, scanner.take? = some (⟨c, place.offset, place.line⟩, further) ∧
      further.Stands (place.next c) text ∧ further.finished = scanner.finished := by
  obtain ⟨held, htext, hpending, hposition⟩ := h
  cases held with
  | nil =>
    obtain ⟨pending, unread, position, finished⟩ := scanner
    obtain rfl : c :: text = unread := htext
    obtain rfl : pending = [] := hpending
    obtain rfl : position = place := hposition
    exact ⟨_, rfl, ⟨[], rfl, rfl, rfl⟩, rfl⟩
  | cons d held =>
    obtain ⟨rfl, rfl⟩ := List.cons.inj htext
    exact ⟨{ scanner with pending := locate (place.next c) held }, by simp [take?, hpending, locate],
      ⟨held, rfl, rfl, hposition⟩, rfl⟩

theorem Stands.take?_nil (h : scanner.Stands place []) :
    scanner.take? = none ∧ scanner.position = place := by
  obtain ⟨held, htext, hpending, hposition⟩ := h
  obtain ⟨rfl, hunread⟩ := List.append_eq_nil_iff.1 htext.symm
  exact ⟨by simp [take?, hpending, hunread, locate], hposition⟩

theorem locate_append (place : Position) (text more : List Char) :
    locate place (text ++ more) = locate place text ++ locate (place.past text) more := by
  induction text generalizing place with
  | nil => rfl
  | cons c text ih => simp [locate, ih]

/-- Putting characters back takes the scanner to where they begin. -/
theorem Stands.putBack {held : List Char} (h : scanner.Stands (place.past held) text) :
    Stands { scanner with pending := locate place held ++ scanner.pending } place (held ++ text) := by
  obtain ⟨others, rfl, hpending, hposition⟩ := h
  exact ⟨held ++ others, by simp, by simp [hpending, locate_append], by simpa using hposition⟩

/-! ### Runs -/

/-- In one mode and in front of one text, the scanner gets to another mode in front of another. -/
def Goes (mode : Mode) (place : Position) (text : List Char) (next : Mode) (after : Position)
    (rest : List Char) : Prop :=
  ∀ scanner : Scanner, scanner.Stands place text → ∃ further : Scanner,
    scanner.advance mode = further.advance next ∧ further.Stands after rest ∧
      further.finished = scanner.finished

/-- In a mode and in front of a text, the scanner comes to an item and stands behind it. -/
def Emits (mode : Mode) (place : Position) (text : List Char) (item : Item) (after : Position)
    (rest : List Char) : Prop :=
  ∀ scanner : Scanner, scanner.Stands place text → ∃ further : Scanner,
    scanner.advance mode = (item, further) ∧ further.Stands after rest ∧
      further.finished = scanner.finished

variable {mode next ends : Mode} {item : Item}

theorem Goes.refl (mode : Mode) (place : Position) (text : List Char) :
    Goes mode place text mode place text :=
  fun scanner hstands => ⟨scanner, rfl, hstands, rfl⟩

theorem Goes.trans (first : Goes mode place text next after rest)
    (second : Goes next after rest ends final last) : Goes mode place text ends final last := by
  intro scanner hstands
  obtain ⟨between, hfirst, hbetween, hsame⟩ := first scanner hstands
  obtain ⟨further, hsecond, hfurther, hfinished⟩ := second between hbetween
  exact ⟨further, hfirst.trans hsecond, hfurther, hfinished.trans hsame⟩

theorem Goes.emits (first : Goes mode place text next after rest)
    (second : Emits next after rest item final last) : Emits mode place text item final last := by
  intro scanner hstands
  obtain ⟨between, hfirst, hbetween, hsame⟩ := first scanner hstands
  obtain ⟨further, hsecond, hfurther, hfinished⟩ := second between hbetween
  exact ⟨further, hfirst.trans hsecond, hfurther, hfinished.trans hsame⟩

theorem advance_of_some {c : Located} {further : Scanner} (h : scanner.take? = some (c, further)) :
    scanner.advance mode = match mode.read c with
      | .continue next => further.advance next
      | .yield item putBack => (item, { further with pending := putBack ++ further.pending }) := by
  rw [advance]
  split
  case h_1 c' further' taken =>
    obtain ⟨rfl, rfl⟩ := Prod.mk.inj (Option.some.inj (h.symm.trans taken))
    rfl
  case h_2 taken => simp [h] at taken

theorem advance_of_none (h : scanner.take? = none) :
    scanner.advance mode = match mode.finish scanner.position with
      | .continue next => scanner.advance next
      | .yield item putBack => (item, { scanner with pending := putBack ++ scanner.pending }) := by
  rw [advance]
  split
  case h_1 taken => simp [h] at taken
  case h_2 =>
    split
    case h_1 heq => simp [heq]
    case h_2 heq => simp [heq]

/-- The next character takes the scanner to another mode. -/
theorem goes_of_read {c : Char}
    (h : mode.read ⟨c, place.offset, place.line⟩ = .continue next) :
    Goes mode place (c :: text) next (place.next c) text := by
  intro scanner hstands
  obtain ⟨further, htake, hfurther, hfinished⟩ := hstands.take?_cons
  exact ⟨further, by rw [advance_of_some htake, h], hfurther, hfinished⟩

/-- The next character completes an item, and from some place on everything is put back. -/
theorem emits_of_read {c : Char} {held : List Char}
    (h : mode.read ⟨c, place.offset, place.line⟩ = .yield item (locate after held))
    (hplace : after.past held = place.next c) :
    Emits mode place (c :: text) item after (held ++ text) := by
  intro scanner hstands
  obtain ⟨further, htake, hfurther, hfinished⟩ := hstands.take?_cons
  exact ⟨_, by rw [advance_of_some htake, h], Stands.putBack (hplace ▸ hfurther), hfinished⟩

/-- The end of the text completes an item, and from some place on everything is put back. -/
theorem emits_of_finish {held : List Char}
    (h : mode.finish place = .yield item (locate after held)) (hplace : after.past held = place) :
    Emits mode place [] item after held := by
  intro scanner hstands
  obtain ⟨htake, hposition⟩ := hstands.take?_nil
  have hback : Stands _ after (held ++ []) := Stands.putBack (hplace ▸ hstands)
  rw [List.append_nil] at hback
  exact ⟨_, by rw [advance_of_none htake, hposition, h], hback, rfl⟩

/-- The scanner reads an item up to a character that does not belong to it any more. -/
theorem emits_of_stop (hread : ∀ c, c ∈ text.head? →
      mode.read ⟨c, place.offset, place.line⟩ = .yield item [⟨c, place.offset, place.line⟩])
    (hfinish : text = [] → mode.finish place = .yield item []) :
    Emits mode place text item place text := by
  cases text with
  | nil => exact emits_of_finish (hfinish rfl) rfl
  | cons c text =>
    have hback : Emits mode place (c :: text) item place ([c] ++ text) :=
      emits_of_read (hread c rfl) rfl
    exact hback

end Scanner

end Lox
