import Lox.Proofs.Token.Tiling
import Mathlib.Data.List.ReduceOption

/-!
# Asking a scanner in two ways

A scanner can be asked for the next token, which at the end of the text is the end again and again, or
for the next item of a sequence that is over once the end was yielded. Both ways go on from the same
place, and only the second one keeps in mind that it is over. So however the two are mixed, the items
of the text are handed out in order, none of them twice but the end.
-/

namespace Lox

inductive Call where
  /-- The next item of the sequence that ends. -/
  | next
  /-- The next token or error, whatever was handed out before. -/
  | nextToken
  deriving DecidableEq, Repr

namespace Scanner

/-- What a call is answered with, and the scanner behind it. -/
def answer (scanner : Scanner) : Call → Option Item × Scanner
  | .next => scanner.next?
  | .nextToken =>
    let (item, rest) := scanner.nextToken
    (some item, rest)

def answers (scanner : Scanner) : List Call → List (Option Item)
  | [] => []
  | call :: calls => (scanner.answer call).1 :: (scanner.answer call).2.answers calls

/-- The call with the index asks for the sequence that ends and gets the end. -/
def HandsOutEnd (calls : List Call) (answers : List (Option Item)) (index : Nat) : Prop :=
  calls[index]? = some .next ∧ ∃ item, answers[index]? = some (some item) ∧ isLast item = true

/-! ### Calls come to their end -/

/-- What a mode has decided is done: there is another mode to go on from, or an item. -/
def perform (step : Step) (scanner : Scanner) : (Mode × Scanner) ⊕ (Item × Scanner) :=
  match step with
  | .continue next => .inl (next, scanner)
  | .yield item putBack => .inr (item, { scanner with pending := putBack ++ scanner.pending })

/-- One character is read, or it is noticed that there is none. -/
def round (mode : Mode) (scanner : Scanner) : (Mode × Scanner) ⊕ (Item × Scanner) :=
  match scanner.take? with
  | some (c, rest) => rest.perform (mode.read c)
  | none => scanner.perform (mode.finish scanner.position)

/-- Reads on from a mode until an item is complete, for so many rounds at most. -/
def within : (rounds : Nat) → Mode → Scanner → Option (Item × Scanner)
  | 0, _, _ => none
  | rounds + 1, mode, scanner =>
    match scanner.round mode with
    | .inl (next, rest) => within rounds next rest
    | .inr result => some result

variable {scanner rest : Scanner} {mode next : Mode} {item : Item}

theorem advance_eq_round (mode : Mode) (scanner : Scanner) :
    scanner.advance mode = match scanner.round mode with
      | .inl (next, rest) => rest.advance next
      | .inr result => result := by
  cases htake : scanner.take? with
  | some taken =>
    obtain ⟨c, further⟩ := taken
    rw [advance_of_some htake, round, htake]
    dsimp only
    cases mode.read c <;> rfl
  | none =>
    rw [advance_of_none htake, round, htake]
    cases mode.finish scanner.position <;> rfl

theorem rank_le_one (mode : Mode) : mode.rank ≤ 1 := by
  unfold Mode.rank
  split <;> decide

theorem finished_of_take? {c : Located} (h : scanner.take? = some (c, rest)) :
    rest.finished = scanner.finished := by
  unfold take? at h
  split at h <;> cases h <;> rfl

theorem perform_eq_inl {step : Step} (h : scanner.perform step = .inl (next, rest)) :
    step = .continue next ∧ rest = scanner := by
  cases step with
  | «continue» other =>
    cases h
    exact ⟨rfl, rfl⟩
  | yield => cases h

theorem perform_eq_inr {step : Step} (h : scanner.perform step = .inr (item, rest)) :
    rest.finished = scanner.finished := by
  cases step with
  | «continue» => cases h
  | yield =>
    cases h
    rfl

/-- A round that does not yield reads a character, or leaves a mode at the end of the text. -/
theorem round_eq_inl (h : scanner.round mode = .inl (next, rest)) :
    2 * rest.remaining + next.rank < 2 * scanner.remaining + mode.rank ∧
      rest.finished = scanner.finished := by
  unfold round at h
  cases htake : scanner.take? with
  | some taken =>
    rw [htake] at h
    obtain ⟨-, rfl⟩ := perform_eq_inl h
    have hless := remaining_of_take? htake
    have hrank := rank_le_one next
    exact ⟨by omega, finished_of_take? htake⟩
  | none =>
    rw [htake] at h
    obtain ⟨hfinish, rfl⟩ := perform_eq_inl h
    exact ⟨Nat.add_lt_add_left (rank_lt_of_finish hfinish) _, rfl⟩

theorem round_eq_inr (h : scanner.round mode = .inr (item, rest)) :
    rest.finished = scanner.finished := by
  unfold round at h
  cases htake : scanner.take? with
  | some taken =>
    rw [htake] at h
    exact (perform_eq_inr h).trans (finished_of_take? htake)
  | none =>
    rw [htake] at h
    exact perform_eq_inr h

/-- Two rounds for each character that is left, and one for the end of the text, are enough. -/
theorem within_eq {rounds : Nat} (h : 2 * scanner.remaining + mode.rank < rounds) :
    within rounds mode scanner = some (scanner.advance mode) := by
  induction rounds generalizing mode scanner with
  | zero => exact absurd h (Nat.not_lt_zero _)
  | succ rounds ih =>
    rw [within, advance_eq_round]
    cases hround : scanner.round mode with
    | inl goes =>
      have hless := (round_eq_inl hround).1
      exact ih (by omega)
    | inr => rfl

theorem finished_of_within {rounds : Nat} (h : within rounds mode scanner = some (item, rest)) :
    rest.finished = scanner.finished := by
  induction rounds generalizing mode scanner with
  | zero => cases h
  | succ rounds ih =>
    rw [within] at h
    cases hround : scanner.round mode with
    | inl goes =>
      rw [hround] at h
      exact (ih h).trans (round_eq_inl hround).2
    | inr result =>
      rw [hround] at h
      cases h
      exact round_eq_inr hround

theorem finished_nextToken (scanner : Scanner) :
    scanner.nextToken.2.finished = scanner.finished :=
  finished_of_within (within_eq (Nat.lt_succ_self _))

/-! ### What is left to hand out -/

/-- The items of the text that the scanner is in front of. -/
def Holds (scanner : Scanner) (items : List Item) : Prop :=
  ∃ place text, scanner.Stands place text ∧ Scans place text items

theorem Holds.nextToken {items : List Item} (h : scanner.Holds (item :: items))
    (hopen : isLast item = false) :
    ∃ further : Scanner, scanner.nextToken = (item, further) ∧ further.Holds items := by
  obtain ⟨place, text, hstands, hscans⟩ := h
  cases hscans with
  | last _ hlast => simp [hlast] at hopen
  | more next _ hrest =>
    obtain ⟨further, hadvance, hfurther, -⟩ := emits_nextItem next scanner hstands
    exact ⟨further, hadvance, _, _, hfurther, hrest⟩

/-- At the end of the text nothing changes any more. -/
theorem Holds.nextToken_last (h : scanner.Holds [item]) :
    ∃ further : Scanner, scanner.nextToken = (item, further) ∧ further.Holds [item] := by
  obtain ⟨place, text, hstands, hscans⟩ := h
  cases hscans with
  | last next hlast =>
    obtain ⟨further, hadvance, hfurther, -⟩ := emits_nextItem next scanner hstands
    obtain ⟨rfl, rfl⟩ := next.eq_atEnd hlast
    have hplace := next.past_rest
    rw [Position.past_nil] at hplace
    subst hplace
    exact ⟨further, hadvance, _, _, hfurther, .last (.ending _) rfl⟩
  | more _ _ hrest => cases hrest

/-! ### Single calls -/

/-- Only a sequence that is over gives no answer. Otherwise either call is answered with what comes
next, and the sequence is over if it is the one that has handed out the end. -/
theorem answer_cases (scanner : Scanner) (call : Call) :
    (call = .next ∧ scanner.finished = true ∧ scanner.answer call = (none, scanner)) ∨
      ∃ finished, scanner.answer call =
        (some scanner.nextToken.1, { scanner.nextToken.2 with finished }) ∧
          (call = .next → scanner.finished = false) ∧
          (finished = true ↔ scanner.finished = true ∨
            call = .next ∧ isLast scanner.nextToken.1 = true) := by
  cases call with
  | next =>
    cases hfinished : scanner.finished with
    | true => exact .inl ⟨rfl, rfl, by simp [answer, next?, hfinished]⟩
    | false =>
      refine .inr ⟨isLast scanner.nextToken.1, ?_, fun _ => rfl, by simp⟩
      rw [answer, next?, hfinished]
      obtain ⟨item, rest⟩ := scanner.nextToken
      cases item <;> rfl
  | nextToken =>
    refine .inr ⟨scanner.nextToken.2.finished, rfl, fun hcall => ?_, by simp [finished_nextToken]⟩
    cases hcall

theorem handsOutEnd_zero {calls : List Call} {answers : List (Option Item)} {call : Call}
    {answer : Option Item} : HandsOutEnd (call :: calls) (answer :: answers) 0 ↔
      call = .next ∧ ∃ item, answer = some item ∧ isLast item = true := by
  simp [HandsOutEnd]

/-- Behind a call the sequence is over if it was over or the call has handed out the end. -/
theorem finished_answer (scanner : Scanner) (call : Call) :
    (scanner.answer call).2.finished = true ↔ scanner.finished = true ∨
      call = .next ∧ ∃ item, (scanner.answer call).1 = some item ∧ isLast item = true := by
  rcases scanner.answer_cases call with
    ⟨-, hfinished, hanswer⟩ | ⟨finished, hanswer, -, hfinished⟩
  · simp [hanswer, hfinished]
  · simpa [hanswer] using hfinished

theorem answer_eq_none_iff (scanner : Scanner) (call : Call) :
    (scanner.answer call).1 = none ↔ call = .next ∧ scanner.finished = true := by
  rcases scanner.answer_cases call with
    ⟨hcall, hfinished, hanswer⟩ | ⟨finished, hanswer, hopen, -⟩
  · exact iff_of_true (congrArg Prod.fst hanswer) ⟨hcall, hfinished⟩
  · simp only [hanswer, reduceCtorEq, false_iff, not_and]
    intro hcall
    simp [hopen hcall]

/-! ### Several calls -/

/-- The answers that are items are those that are held, from the first on, and then copies of the
end. -/
theorem exists_prefix_answers {found : List Item} {ending : Item}
    (h : scanner.Holds (found ++ [ending])) (hfound : ∀ item ∈ found, isLast item = false)
    (calls : List Call) : ∃ copies, (scanner.answers calls).reduceOption <+:
      found ++ [ending] ++ List.replicate copies ending := by
  induction calls generalizing scanner found with
  | nil => exact ⟨0, List.nil_prefix⟩
  | cons call calls ih =>
    rw [answers]
    rcases scanner.answer_cases call with ⟨-, -, hanswer⟩ | ⟨finished, hanswer, -, -⟩
    · rw [hanswer, List.reduceOption_cons_of_none]
      exact ih h hfound
    · rw [hanswer, List.reduceOption_cons_of_some]
      cases found with
      | nil =>
        obtain ⟨further, hnext, hfurther⟩ := h.nextToken_last
        have hholds : Holds { further with finished } ([] ++ [ending]) := hfurther
        obtain ⟨copies, hprefix⟩ := ih hholds hfound
        rw [hnext]
        exact ⟨copies + 1, (List.prefix_cons_inj ending).2 hprefix⟩
      | cons item found =>
        obtain ⟨hopen, hfound⟩ := List.forall_mem_cons.1 hfound
        obtain ⟨further, hnext, hfurther⟩ := h.nextToken hopen
        have hholds : Holds { further with finished } (found ++ [ending]) := hfurther
        obtain ⟨copies, hprefix⟩ := ih hholds hfound
        rw [hnext]
        exact ⟨copies, (List.prefix_cons_inj item).2 hprefix⟩

/-- There is no answer just where the sequence is asked for and was over at the start, or has handed
out the end before. -/
theorem getElem?_answers_eq_none_iff (scanner : Scanner) (calls : List Call) (index : Nat) :
    (scanner.answers calls)[index]? = some none ↔ calls[index]? = some .next ∧
      (scanner.finished = true ∨
        ∃ earlier < index, HandsOutEnd calls (scanner.answers calls) earlier) := by
  induction calls generalizing scanner index with
  | nil => simp [answers]
  | cons call calls ih =>
    rw [answers]
    cases index with
    | zero => simp [answer_eq_none_iff]
    | succ index =>
      rw [List.getElem?_cons_succ, ih, finished_answer, Nat.exists_lt_succ_left, handsOutEnd_zero,
        ← or_assoc]
      rfl

end Scanner

/-- However the two ways of asking are mixed, nothing is lost and nothing repeated. The answers,
those aside that say that the sequence is over, are the items of the text in order, and once its end
was handed out they are copies of it. The sequence is over just where an earlier call of it got the
end. A text has no more items than characters, and its end. Wherever the scanner stands, what it is
asked for is there after two rounds at most for each character that is left, and one more. -/
theorem calls_follow_items (text : String) (calls : List Call) :
    ∃ (found : List Item) (ending : Token), items text = found ++ [.ok ending] ∧
      ending.isEnd = true ∧ (∀ item ∈ found, isLast item = false) ∧ found.length ≤ text.length ∧
      (∃ copies, ((Scanner.ofText text).answers calls).reduceOption <+:
        items text ++ List.replicate copies (.ok ending)) ∧
      (∀ index, ((Scanner.ofText text).answers calls)[index]? = some none ↔
        calls[index]? = some .next ∧ ∃ earlier < index,
          Scanner.HandsOutEnd calls ((Scanner.ofText text).answers calls) earlier) ∧
      ∀ scanner : Scanner,
        Scanner.within (2 * scanner.remaining + 1) .between scanner = some scanner.nextToken := by
  obtain ⟨all, hall, hlength⟩ := exists_scans text.toList ⟨0, 1⟩
  obtain ⟨found, ending, rfl, hending, hfound⟩ := hall.exists_ending
  have hitems := items_of_scans hall
  have hholds : (Scanner.ofText text).Holds (found ++ [.ok ending]) :=
    ⟨_, _, Scanner.stands_ofText text, hall⟩
  refine ⟨found, ending, hitems, hending, hfound, ?_, ?_, fun index => ?_,
    fun scanner => Scanner.within_eq (Nat.lt_succ_self _)⟩
  · simpa [← String.length_toList] using hlength
  · rw [hitems]
    exact Scanner.exists_prefix_answers hholds hfound calls
  · simpa [Scanner.ofText] using Scanner.getElem?_answers_eq_none_iff (Scanner.ofText text) calls index

/-- A letter is read ahead for the operator and put back. The end of the text may be asked for before
the sequence hands it out. -/
example : ((Scanner.ofText "!a").answers
    [.next, .nextToken, .nextToken, .next, .next, .nextToken]).map
      (Option.map fun item => item.toOption.map (·.kind)) =
    [some (some .bang), some (some .identifier), some (some .eof), some (some .eof), none,
      some (some .eof)] := by cbv

end Lox
