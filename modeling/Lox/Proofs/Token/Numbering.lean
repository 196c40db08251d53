import Lox.Proofs.Token.Tiling
import Lox.Report.Diagnostic

/-!
# The line that an item is on

Items are numbered by the line feeds before them, and a report finds the line with a number by
dividing the text behind each line feed. Both speak of the same lines: the line that is found for an
item is there, it holds the first character of the item, and all of it is marked.
-/

namespace Lox

namespace Text

/-- What stands on the line with a number, without its ending. -/
def line? (text : List Char) : (line : Nat) → Option (List Char)
  | 0 => none
  | index + 1 => (splitFeeds text [])[index]?.map withoutEnding

/-! ### Dividing behind line feeds -/

theorem flatten_splitFeeds (text current : List Char) :
    (splitFeeds text current).flatten = current.reverse ++ text := by
  induction text generalizing current with
  | nil => cases current <;> simp [splitFeeds]
  | cons c text ih =>
    rw [splitFeeds]
    split <;> simp [ih]

/-- What has been read of a line, and what goes on without a line feed, is the beginning of the next
one to be found. -/
theorem head_splitFeeds {stretch : List Char} (hfeed : '\n' ∉ stretch) (behind : List Char)
    {current : List Char} (h : current ≠ [] ∨ stretch ≠ []) :
    ∃ after, (splitFeeds (stretch ++ behind) current)[0]? =
      some (current.reverse ++ stretch ++ after) := by
  induction stretch generalizing current with
  | nil =>
    have hcurrent : current ≠ [] := by simpa using h
    clear h
    induction behind generalizing current with
    | nil => exact ⟨[], by simp [splitFeeds, hcurrent]⟩
    | cons c behind ih =>
      rw [List.nil_append, splitFeeds]
      split
      · exact ⟨[c], by simp⟩
      · obtain ⟨after, hafter⟩ := ih (List.cons_ne_nil c current)
        exact ⟨c :: after, by simpa using hafter⟩
  | cons c stretch ih =>
    obtain ⟨hc, hstretch⟩ := not_or.1 (List.mem_cons.not.1 hfeed)
    obtain ⟨after, hafter⟩ := ih hstretch (.inl (List.cons_ne_nil c current))
    refine ⟨after, ?_⟩
    rw [List.cons_append, splitFeeds, if_neg (Ne.symm hc)]
    simpa using hafter

/-- As many lines end before a stretch without line feeds as there are line feeds before it, and the
next line holds it. -/
theorem exists_splitFeeds {stretch : List Char} (hne : stretch ≠ []) (hfeed : '\n' ∉ stretch)
    (front behind current : List Char) : ∃ before after : List Char,
      (splitFeeds (front ++ (stretch ++ behind)) current)[front.count '\n']? =
        some (before ++ stretch ++ after) ∧
      ((splitFeeds (front ++ (stretch ++ behind)) current).take (front.count '\n')).flatten ++
        before = current.reverse ++ front := by
  induction front generalizing current with
  | nil =>
    obtain ⟨after, hafter⟩ := head_splitFeeds hfeed behind (.inr hne)
    exact ⟨current.reverse, after, hafter, by simp⟩
  | cons d front ih =>
    rw [List.cons_append, splitFeeds, List.count_cons]
    by_cases hd : d = '\n'
    · obtain ⟨before, after, hline, hbefore⟩ := ih []
      refine ⟨before, after, ?_, ?_⟩
      · simpa [hd] using hline
      · simp only [hd, if_true, beq_self_eq_true, List.take_succ_cons, List.flatten_cons,
          List.append_assoc, hbefore]
        simp
    · obtain ⟨before, after, hline, hbefore⟩ := ih (d :: current)
      refine ⟨before, after, ?_, ?_⟩
      · simpa [hd] using hline
      · simpa [hd] using hbefore

/-- What is dropped at the end of a line does not reach a character of another sort. -/
theorem withoutEnding_append {stretch : List Char} (hne : stretch ≠ [])
    (hends : ∀ c ∈ stretch.getLast?, isSeparator c = false) (before after : List Char) :
    withoutEnding (before ++ stretch ++ after) = before ++ stretch ++ withoutEnding after := by
  obtain ⟨front, c, rfl⟩ := (List.eq_nil_or_concat' stretch).resolve_left hne
  have hc : (decide (c = '\n') || decide (c = '\r')) = false := by
    have hseparator := hends c List.getLast?_concat
    simp only [isSeparator, Bool.or_eq_false_iff] at hseparator
    simp [hseparator.1.1.2, hseparator.2]
  simp only [withoutEnding, List.reverse_append, List.reverse_cons, List.append_assoc,
    List.cons_append, List.nil_append]
  rw [List.dropWhile_append, List.dropWhile_cons_of_neg (by simp [hc])]
  split
  case isTrue hempty => simp [List.isEmpty_iff.1 hempty]
  case isFalse => simp

theorem withoutEnding_prefix (line : List Char) : withoutEnding line <+: line := by
  rw [withoutEnding, ← List.reverse_suffix, List.reverse_reverse]
  exact List.dropWhile_suffix _

/-! ### What is found and what is marked -/

/-- The stretch that is found for a line that is there is that of the line. -/
theorem ofLine_of_line? {text content : List Char} {line : Nat}
    (h : line? text line = some content) : ∃ earlier later, text = earlier ++ content ++ later ∧
      Span.ofLine text line = ⟨byteSize earlier, byteSize content⟩ := by
  cases line with
  | zero => cases h
  | succ index =>
    obtain ⟨found, hfound, rfl⟩ := Option.map_eq_some_iff.1 h
    obtain ⟨ending, hending⟩ := withoutEnding_prefix found
    obtain ⟨hindex, hget⟩ := List.getElem?_eq_some_iff.1 hfound
    have htext : text = ((splitFeeds text []).take index).flatten ++ withoutEnding found ++
        (ending ++ ((splitFeeds text []).drop (index + 1)).flatten) := calc
      text = (splitFeeds text []).flatten := (flatten_splitFeeds text []).symm
      _ = ((splitFeeds text []).take index ++ found ::
          (splitFeeds text []).drop (index + 1)).flatten := by
        rw [← hget, ← List.drop_eq_getElem_cons hindex, List.take_append_drop]
      _ = _ := by
        rw [List.flatten_append, List.flatten_cons, List.append_assoc, ← List.append_assoc _ ending,
          hending]
    exact ⟨_, _, htext, by rw [Span.ofLine, hfound]⟩

theorem length_ofLine_of_line? {text content : List Char} {line : Nat}
    (h : line? text line = some content) : (Span.ofLine text line).length = byteSize content := by
  obtain ⟨earlier, later, -, hofLine⟩ := ofLine_of_line? h
  rw [hofLine]

theorem byteSize_pos {text : List Char} (h : text ≠ []) : 0 < byteSize text := by
  rw [byteSize_eq_utf8Len, Nat.pos_iff_ne_zero]
  exact fun hzero => h (String.utf8Len_eq_zero.1 hzero)

end Text

open Text

/-- A line with something on it is shown as it is. -/
theorem Diagnostic.range_ofLine {text content : List Char} {line : Nat}
    (hline : line? text line = some content) (hne : content ≠ []) :
    range (.ofLine text line) text = ((Span.ofLine text line).start, (Span.ofLine text line).stop) := by
  obtain ⟨earlier, later, rfl, hofLine⟩ := ofLine_of_line? hline
  have hpos := byteSize_pos hne
  have hstop : min (byteSize earlier + byteSize content)
      (byteSize earlier + byteSize content + byteSize later) =
        byteSize earlier + byteSize content := by omega
  have hstart : min (byteSize earlier) (byteSize earlier + byteSize content) =
      byteSize earlier := by omega
  have hne : byteSize earlier ≠ byteSize earlier + byteSize content := by omega
  rw [hofLine, range]
  simp only [Span.stop, byteSize_append, hstop, hstart, hne, if_false]

/-- The part of the text that the report of a diagnostic marks. -/
def Diagnostic.marked (diagnostic : Diagnostic) (source : Source) : String :=
  let (start, stop) := range diagnostic.span source.text.toList
  Text.slice source.text start stop

/-- A line with something on it is marked as it is. -/
theorem Diagnostic.marked_ofLine {diagnostic : Diagnostic} {source : Source} {line : Nat}
    {content : List Char} (hspan : diagnostic.span = .ofLine source.text.toList line)
    (hline : line? source.text.toList line = some content) (hne : content ≠ []) :
    diagnostic.marked source = String.ofList content := by
  obtain ⟨earlier, later, htext, hofLine⟩ := ofLine_of_line? hline
  rw [marked, hspan, range_ofLine hline hne, hofLine]
  have hslice := slice_eq earlier content later
  rwa [← htext, String.ofList_toList, byteSize_append] at hslice

/-! ### Items on their lines -/

/-- All of the inner stretch lies in the outer one. -/
structure Span.Contains (outer inner : Span) : Prop where
  start_le : outer.start ≤ inner.start
  stop_le : inner.stop ≤ outer.stop

theorem Span.Contains.trans {outer middle inner : Span} (h : outer.Contains middle)
    (hinner : middle.Contains inner) : outer.Contains inner :=
  ⟨h.start_le.trans hinner.start_le, hinner.stop_le.trans h.stop_le⟩

section
variable {item : Item} {front inside stretch : List Char}
  (h : item.CoversAt (Position.past ⟨0, 1⟩ front) inside)
  (hfeeds : front.count '\n' < 2 ^ 32 - 1) (hstretch : stretch <+: inside)
  (hne : stretch ≠ []) (hfeed : '\n' ∉ stretch) (hends : ∀ c ∈ stretch.getLast?, isSeparator c = false)
  (behind : List Char)
include h hfeeds hstretch hne hfeed hends

/-- The line with the number of an item holds what the item begins with, up to a line feed. -/
theorem Item.CoversAt.exists_line : ∃ before after : List Char,
    line? (front ++ inside ++ behind) item.line = some (before ++ stretch ++ after) ∧
      item.span.start =
        (Span.ofLine (front ++ inside ++ behind) item.line).start + byteSize before := by
  obtain ⟨rest, rfl⟩ := hstretch
  have hnumber : item.line = front.count '\n' + 1 := by
    rw [h.line_eq hfeeds, Nat.add_comm]
  obtain ⟨before, after, hfound, hbefore⟩ := exists_splitFeeds hne hfeed front (rest ++ behind) []
  rw [List.append_assoc, List.append_assoc, hnumber]
  refine ⟨before, withoutEnding after, ?_, ?_⟩
  · rw [line?, hfound, Option.map_some, withoutEnding_append hne hends]
  · rw [h.span_eq, Span.ofLine, hfound, ← byteSize_append, hbefore]
    rfl

theorem Item.CoversAt.within_line :
    (Span.ofLine (front ++ inside ++ behind) item.line).Contains
      ⟨item.span.start, byteSize stretch⟩ := by
  obtain ⟨before, after, hline, hstart⟩ := h.exists_line hfeeds hstretch hne hfeed hends behind
  have hlength := length_ofLine_of_line? hline
  rw [byteSize_append, byteSize_append] at hlength
  constructor <;> simp only [Span.stop, hstart, hlength] <;> omega

end

/-- In front of anything in a text shorter than `2 ^ 32` bytes the line counter has not started
over. -/
theorem count_feeds_lt {text : String} {front inside behind : List Char}
    (htext : text.toList = front ++ inside ++ behind) (hinside : inside ≠ [])
    (hsize : text.utf8ByteSize < 2 ^ 32) : front.count '\n' < 2 ^ 32 - 1 := by
  have hfront := (List.count_le_length (a := '\n')).trans (length_le_byteSize front)
  have hpos := byteSize_pos hinside
  rw [← String.ofList_toList (s := text), utf8ByteSize_ofList, htext, byteSize_append,
    byteSize_append] at hsize
  omega

/-- What an item begins with is no separator, so it is on the line of the item. -/
theorem Item.CoversAt.exists_first {item : Item} {front inside : List Char}
    (h : item.CoversAt (Position.past ⟨0, 1⟩ front) inside) (hlast : isLast item = false) :
    ∃ c, [c] <+: inside ∧ '\n' ∉ [c] ∧ ∀ d ∈ [c].getLast?, isSeparator d = false := by
  obtain ⟨c, rest, rfl⟩ := List.exists_cons_of_ne_nil (h.ne_nil hlast)
  have hbegins := h.begins c rfl
  refine ⟨c, ⟨rest, rfl⟩, ?_, by simpa using hbegins⟩
  rw [List.mem_singleton]
  rintro rfl
  cases hbegins

/-- The line with the number of an item is there, and the item starts on it, at a character that is
not skipped. -/
theorem exists_line_of_item {text : String} (hsize : text.utf8ByteSize < 2 ^ 32) {item : Item}
    (hmem : item ∈ items text) (hlast : isLast item = false) :
    ∃ (before : List Char) (c : Char) (after : List Char),
      line? text.toList item.line = some (before ++ c :: after) ∧
      item.span.start = (Span.ofLine text.toList item.line).start + byteSize before := by
  obtain ⟨front, inside, behind, htext, hcovers⟩ := exists_coversAt hmem
  obtain ⟨c, hfirst, hfeed, hends⟩ := hcovers.exists_first hlast
  have hfeeds := count_feeds_lt htext (hcovers.ne_nil hlast) hsize
  obtain ⟨before, after, hline, hstart⟩ :=
    hcovers.exists_line hfeeds hfirst (by simp) hfeed hends behind
  rw [← htext] at hline hstart
  exact ⟨before, c, after, by simpa using hline, hstart⟩

theorem Scan.exists_line_of_token {text : String} (hsize : text.utf8ByteSize < 2 ^ 32)
    {token : Token} (hmem : token ∈ (ofText text).tokens) (hkind : token.kind ≠ .eof) :
    ∃ (before : List Char) (c : Char) (after : List Char),
      line? text.toList token.line = some (before ++ c :: after) ∧
      token.span.start = (Span.ofLine text.toList token.line).start + byteSize before :=
  exists_line_of_item hsize (mem_items_of_mem_tokens hmem) (by simpa [isLast, Token.isEnd] using hkind)

/-- The line of an item holds the first byte of it. -/
theorem contains_first_of_item {text : String} (hsize : text.utf8ByteSize < 2 ^ 32) {item : Item}
    (hmem : item ∈ items text) (hlast : isLast item = false) :
    (Span.ofLine text.toList item.line).Contains ⟨item.span.start, 1⟩ := by
  obtain ⟨front, inside, behind, htext, hcovers⟩ := exists_coversAt hmem
  obtain ⟨c, hfirst, hfeed, hends⟩ := hcovers.exists_first hlast
  have hfeeds := count_feeds_lt htext (hcovers.ne_nil hlast) hsize
  have hcontains := hcovers.within_line hfeeds hfirst (by simp) hfeed hends behind
  rw [← htext] at hcontains
  exact hcontains.trans ⟨Nat.le_refl _, Nat.add_le_add_left (byteSize_pos (by simp)) _⟩

/-- The line of a token without line feeds holds all of it. -/
theorem Scan.contains_of_token {text : String} (hsize : text.utf8ByteSize < 2 ^ 32) {token : Token}
    (hmem : token ∈ (ofText text).tokens) (hopen : token.isEnd = false)
    (hfeed : '\n' ∉ token.lexeme.toList) :
    (Span.ofLine text.toList token.line).Contains token.span := by
  obtain ⟨front, inside, behind, htext, hcovers⟩ := exists_coversAt (mem_items_of_mem_tokens hmem)
  have hlexeme := lexeme_of_mem_tokens hmem hopen
  obtain rfl : token.lexeme.toList = inside := by
    rw [hcovers.lexeme token rfl, String.toList_ofList]
  have hfeeds := count_feeds_lt htext hlexeme.ne_nil hsize
  have hcontains :=
    hcovers.within_line hfeeds (List.prefix_refl _) hlexeme.ne_nil hfeed hlexeme.ends behind
  have hspan : token.span = ⟨byteSize front, byteSize token.lexeme.toList⟩ := hcovers.span_eq
  rw [← htext, hcovers.span_eq] at hcontains
  rw [hspan]
  exact hcontains

end Lox
