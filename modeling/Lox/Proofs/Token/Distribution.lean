import Lox.Proofs.Token.Tiling

/-!
# Scanning two texts at once

What is scanned of two texts with a line feed between them is what is scanned of each of them alone,
the second one so many bytes and lines further on. The line counter counts on from the first text
to the second one, so there have to be numbers enough for the lines of both: with up to `2 ^ 32 - 3`
line feeds in the two texts it reaches the end without starting over, and with one more it does not.
-/

namespace Lox

@[simp] theorem Item.line_shifted (bytes lines : Nat) (item : Item) :
    (item.shifted bytes lines).line = item.line + lines := by
  cases item <;> rfl

theorem Item.wrapped_of_lt {item : Item} (h : item.line < 2 ^ 32) : item.wrapped = item := by
  cases item with
  | ok token =>
    have hline : token.line % 2 ^ 32 = token.line := Nat.mod_eq_of_lt h
    rw [wrapped, Token.wrapped, hline]
  | error error =>
    have hline : error.line % 2 ^ 32 = error.line := Nat.mod_eq_of_lt h
    rw [wrapped, LexicalError.wrapped, hline]

/-- No item is behind the line where the text ends. -/
theorem line_le_of_mem_items {text : String} {item : Item} (hmem : item ∈ items text)
    (hfeeds : text.toList.count '\n' < 2 ^ 32 - 1) : item.line ≤ 1 + text.toList.count '\n' := by
  obtain ⟨front, inside, behind, htext, hcovers⟩ := exists_coversAt hmem
  have hfront : front.count '\n' ≤ text.toList.count '\n' := by
    rw [htext, List.append_assoc]
    exact (List.sublist_append_left _ _).count_le _
  rw [hcovers.line_eq (Nat.lt_of_le_of_lt hfront hfeeds)]
  exact Nat.add_le_add_left hfront 1

namespace Scan

theorem ofItems_shifted (bytes lines : Nat) (items : List Item) :
    ofItems (items.map (Item.shifted bytes lines)) =
      ⟨(ofItems items).tokens.map (Token.shifted bytes lines),
        (ofItems items).errors.map (LexicalError.shifted bytes lines)⟩ := by
  induction items with
  | nil => rfl
  | cons item items ih =>
    cases item <;> simp [Item.shifted, ofItems_cons_ok, ofItems_cons_error, ih]

end Scan

/-- What is scanned of the two texts with a line feed between them is what is scanned of the first
one alone, without its end, and then what is scanned of the second one alone. Each item of the second
one is as many bytes and lines further on as there are up to the line feed. So are the tokens and the
errors. -/
structure Distributes (text more : String) : Prop where
  items_eq : ∃ found ending, items text = found ++ [.ok ending] ∧ ending.isEnd = true ∧
    (∀ item ∈ found, isLast item = false) ∧
      items (text ++ "\n" ++ more) = found ++ (items more).map
        (Item.shifted (text.utf8ByteSize + 1) (1 + text.toList.count '\n'))
  scan_eq : ∃ tokens ending, (Scan.ofText text).tokens = tokens ++ [ending] ∧ ending.isEnd = true ∧
    (∀ token ∈ tokens, token.isEnd = false) ∧
      Scan.ofText (text ++ "\n" ++ more) =
        ⟨tokens ++ (Scan.ofText more).tokens.map
            (Token.shifted (text.utf8ByteSize + 1) (1 + text.toList.count '\n')),
          (Scan.ofText text).errors ++ (Scan.ofText more).errors.map
            (LexicalError.shifted (text.utf8ByteSize + 1) (1 + text.toList.count '\n'))⟩

/-- Scanning distributes over a line feed, if the line counter does not start over. All that is
opened in the first text has to be closed there, whatever else is wrong with it. -/
theorem items_distribute {text : String}
    (hclosed : ∀ error ∈ (Scan.ofText text).errors, error.cause.isUnclosed = false) (more : String)
    (hfeeds : text.toList.count '\n' + more.toList.count '\n' < 2 ^ 32 - 2) :
    Distributes text more := by
  obtain ⟨found, ending, hitems, hending, hfound, hjoined⟩ := exists_items_joined hclosed more
  have hshifted : items (text ++ "\n" ++ more) = found ++ (items more).map
      (Item.shifted (text.utf8ByteSize + 1) (1 + text.toList.count '\n')) := by
    rw [hjoined]
    refine congrArg (found ++ ·) (List.map_congr_left fun item hmem => Item.wrapped_of_lt ?_)
    have hline := line_le_of_mem_items hmem (by omega)
    rw [Item.line_shifted]
    omega
  obtain ⟨htokens, herrors, hopen⟩ := Scan.exists_tokens_of_ending hfound ending
  refine ⟨⟨found, ending, hitems, hending, hfound, hshifted⟩, _, ending, ?_, hending, hopen, ?_⟩
  · rw [Scan.ofText_eq, hitems, htokens]
  · rw [Scan.ofText_eq, hshifted, Scan.ofItems_append, Scan.ofItems_shifted, Scan.ofText_eq text,
      hitems, herrors]
    rfl

/-- An operator that could go on with what is behind the line feed, and unknown characters in both
texts. -/
theorem items_distribute_operator :
    (∀ error ∈ (Scan.ofText "é\n<").errors, error.cause.isUnclosed = false) ∧
      "é\n<".toList.count '\n' + "= @".toList.count '\n' < 2 ^ 32 - 2 ∧
      Scan.ofText ("é\n<" ++ "\n" ++ "= @") =
        ⟨[⟨.less, "<", none, ⟨3, 1⟩, 2⟩, ⟨.equal, "=", none, ⟨5, 1⟩, 3⟩, .atEnd 8 3],
          [⟨.unrecognized 'é', ⟨0, 2⟩, 1⟩, ⟨.unrecognized '@', ⟨7, 1⟩, 3⟩]⟩ := by
  have hfirst : Scan.ofText "é\n<" =
      ⟨[⟨.less, "<", none, ⟨3, 1⟩, 2⟩, .atEnd 4 2], [⟨.unrecognized 'é', ⟨0, 2⟩, 1⟩]⟩ := by cbv
  have hsecond : Scan.ofText "= @" =
      ⟨[⟨.equal, "=", none, ⟨0, 1⟩, 1⟩, .atEnd 3 1], [⟨.unrecognized '@', ⟨2, 1⟩, 1⟩]⟩ := by cbv
  have hclosed : ∀ error ∈ (Scan.ofText "é\n<").errors, error.cause.isUnclosed = false := by
    rw [hfirst]
    decide
  have hfeeds : "é\n<".toList.count '\n' + "= @".toList.count '\n' < 2 ^ 32 - 2 := by decide
  obtain ⟨-, tokens, ending, htokens, -, -, hscan⟩ := items_distribute hclosed "= @" hfeeds
  rw [hfirst] at htokens hscan
  obtain ⟨rfl, -⟩ : [_] = tokens ∧ [_] = [ending] := List.append_inj' htokens rfl
  refine ⟨hclosed, hfeeds, hscan.trans ?_⟩
  rw [hsecond]
  rfl

theorem feeds_succ (count : Nat) : feeds count ++ "\n" = feeds (count + 1) := by
  rw [← String.toList_inj]
  simp [feeds, List.replicate_succ']

/-- An end that the empty text brings is on the line behind the line feed. -/
theorem Distributes.line_ending {text : String} {ending : Token} (h : Distributes text "")
    (hitems : items (text ++ "\n" ++ "") = [.ok ending]) :
    ending.line = 1 + (1 + text.toList.count '\n') := by
  obtain ⟨found, -, -, -, -, heq⟩ := h.items_eq
  have hempty : items "" = [.ok (.atEnd 0 1)] := items_feeds 0
  rw [hitems, hempty] at heq
  obtain ⟨-, hending⟩ := List.append_inj' ((List.nil_append _).trans heq) rfl
  rw [Except.ok.inj (List.cons.inj hending).1]
  rfl

/-- With one line feed more, and with less than `2 ^ 32 - 1` bytes in all, the counter has started
over where the second text ends. -/
theorem feeds_not_distribute :
    (feeds (2 ^ 32 - 2)).utf8ByteSize + "".utf8ByteSize < 2 ^ 32 - 1 ∧
      (Scan.ofText (feeds (2 ^ 32 - 2))).errors = [] ∧
      items (feeds (2 ^ 32 - 2) ++ "\n" ++ "") = [.ok (.atEnd (2 ^ 32 - 1) 0)] ∧
        ¬ Distributes (feeds (2 ^ 32 - 2)) "" := by
  have hsize : (feeds (2 ^ 32 - 2)).utf8ByteSize + "".utf8ByteSize < 2 ^ 32 - 1 := by
    rw [utf8ByteSize_feeds]
    decide
  have herrors : (Scan.ofText (feeds (2 ^ 32 - 2))).errors = [] := by
    rw [Scan.ofText_eq, items_feeds]
    rfl
  have hitems : items (feeds (2 ^ 32 - 2) ++ "\n" ++ "") = [.ok (.atEnd (2 ^ 32 - 1) 0)] := by
    rw [String.append_empty, feeds_succ]
    exact items_feeds _
  refine ⟨hsize, herrors, hitems, fun hdistributes => ?_⟩
  exact Nat.add_one_ne_zero _ ((Nat.add_comm _ 1).trans (hdistributes.line_ending hitems).symm)

end Lox
