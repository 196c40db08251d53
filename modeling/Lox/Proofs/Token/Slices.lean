import Lox.Proofs.Token.Numbering

/-!
# Stretches that may be cut out of a text

Offsets count bytes, and a character may have several of them. A stretch can be cut out of a text only
where both of its ends lie between characters and within the text; to ask for any other one is a
fault, which `Text.slice?` makes visible. A report asks for the text in front of a span, and what is
shown of a span that may be cut out of the text is well defined.
-/

namespace Lox

namespace Text

/-- The offsets are in order and within the text, and neither of them lies inside of a character. -/
structure Cuts (text : String) (start stop : Nat) : Prop where
  start_le : start ≤ stop
  stop_le : stop ≤ text.utf8ByteSize
  start_valid : String.Pos.Raw.IsValid text ⟨start⟩
  stop_valid : String.Pos.Raw.IsValid text ⟨stop⟩

instance (text : String) (start stop : Nat) : Decidable (Cuts text start stop) :=
  decidable_of_iff (start ≤ stop ∧ stop ≤ text.utf8ByteSize ∧
      String.Pos.Raw.IsValid text ⟨start⟩ ∧ String.Pos.Raw.IsValid text ⟨stop⟩)
    ⟨fun ⟨hle, hsize, hstart, hstop⟩ => ⟨hle, hsize, hstart, hstop⟩,
      fun ⟨hle, hsize, hstart, hstop⟩ => ⟨hle, hsize, hstart, hstop⟩⟩

/-- The stretch from one offset to another, if it may be cut out of the text. -/
def slice? (text : String) (start stop : Nat) : Option String :=
  if Cuts text start stop then some (slice text start stop) else none

variable {text : String} {start stop : Nat}

/-- A stretch of the characters may be cut out. -/
theorem cuts_of_append {before inside behind : List Char}
    (h : text.toList = before ++ inside ++ behind) :
    Cuts text (byteSize before) (byteSize (before ++ inside)) := by
  obtain rfl : text = String.ofList (before ++ inside ++ behind) := by
    rw [← h, String.ofList_toList]
  refine ⟨?_, ?_, ?_, isValid_byteSize (before ++ inside) behind⟩
  · rw [byteSize_append]
    exact Nat.le_add_right _ _
  · rw [utf8ByteSize_ofList, byteSize_append (before ++ inside)]
    exact Nat.le_add_right _ _
  · rw [List.append_assoc]
    exact isValid_byteSize before (inside ++ behind)

theorem slice?_of_append {before inside behind : List Char}
    (h : text.toList = before ++ inside ++ behind) :
    slice? text (byteSize before) (byteSize (before ++ inside)) = some (String.ofList inside) := by
  have hslice := slice_eq before inside behind
  rw [← h, String.ofList_toList] at hslice
  rw [slice?, if_pos (cuts_of_append h), hslice]

theorem charactersBefore_append (before behind : List Char) :
    charactersBefore (before ++ behind) (byteSize before) = before.length := by
  induction before with
  | nil => cases behind <;> rfl
  | cons c before ih =>
    have hpos := c.utf8Size_pos
    have hsize : byteSize (c :: before) = c.utf8Size + byteSize before := rfl
    rw [List.cons_append, charactersBefore, hsize, if_neg (by omega), Nat.add_sub_cancel_left, ih,
      List.length_cons]

end Text

open Text

/-! ### What is shown of a span -/

namespace Diagnostic

def clamped (span : Span) (text : String) : Nat × Nat :=
  let stop := min span.stop text.utf8ByteSize
  (min span.start stop, stop)

/-- What a report shows of a span. The text in front of it is looked at, and there is nothing to show
where this cannot be cut out of the text. -/
def range? (span : Span) (text : String) : Option (Nat × Nat) := do
  let (start, stop) := clamped span text
  let front ← slice? text 0 start
  match front.toList.getLast? with
  | some previous => return (if start = stop then start - previous.utf8Size else start, stop)
  | none => return (start, stop)

structure Shown (span : Span) (text : String) : Prop where
  stop_le : span.stop ≤ text.utf8ByteSize
  cuts_clamped : Cuts text (clamped span text).1 (clamped span text).2
  range?_eq : range? span text = some (range span text.toList)
  cuts_range : Cuts text (range span text.toList).1 (range span text.toList).2
  /-- Only an empty span in front of the whole text shows nothing. -/
  nonempty_iff : (range span text.toList).1 < (range span text.toList).2 ↔ span ≠ ⟨0, 0⟩

end Diagnostic

/-- The span is that of a stretch of the text. -/
def Span.Fits (span : Span) (text : String) : Prop :=
  ∃ before inside behind : List Char, text.toList = before ++ inside ++ behind ∧
    span = ⟨byteSize before, byteSize inside⟩

namespace Diagnostic

section
variable {text : String} {before inside behind : List Char}
  (h : text.toList = before ++ inside ++ behind)
include h

theorem clamped_of_append : clamped ⟨byteSize before, byteSize inside⟩ text =
    (byteSize before, byteSize (before ++ inside)) := by
  have hcuts := cuts_of_append h
  have hstop : Span.stop ⟨byteSize before, byteSize inside⟩ = byteSize (before ++ inside) :=
    (byteSize_append before inside).symm
  rw [clamped, hstop, Nat.min_eq_left hcuts.stop_le, Nat.min_eq_left hcuts.start_le]

/-- An empty stretch is extended over the character in front of it. -/
theorem range_of_append : range ⟨byteSize before, byteSize inside⟩ text.toList =
    match before.getLast? with
    | some previous =>
      (if byteSize before = byteSize (before ++ inside) then byteSize before - previous.utf8Size
        else byteSize before, byteSize (before ++ inside))
    | none => (byteSize before, byteSize (before ++ inside)) := by
  have hsize : byteSize text.toList = text.utf8ByteSize := by
    rw [← utf8ByteSize_ofList, String.ofList_toList]
  have hstop : min (Span.stop ⟨byteSize before, byteSize inside⟩) text.utf8ByteSize =
      byteSize (before ++ inside) := congrArg Prod.snd (clamped_of_append h)
  have hstart : min (byteSize before) (byteSize (before ++ inside)) = byteSize before :=
    Nat.min_eq_left (cuts_of_append h).start_le
  have hfront : text.toList.take (charactersBefore text.toList (byteSize before)) = before := by
    rw [h, List.append_assoc, charactersBefore_append, List.take_left]
  simp only [range, hsize, hstop, hstart, hfront]
  cases before.getLast? with
  | some previous => exact (apply_ite (·, byteSize (before ++ inside)) _ _ _).symm
  | none => exact ite_self _

theorem range?_of_append : range? ⟨byteSize before, byteSize inside⟩ text =
    some (range ⟨byteSize before, byteSize inside⟩ text.toList) := by
  have hsplit : text.toList = [] ++ before ++ (inside ++ behind) := h.trans (List.append_assoc ..)
  have hfront : slice? text 0 (byteSize before) = some (String.ofList before) :=
    slice?_of_append hsplit
  rw [range_of_append h, range?, clamped_of_append h]
  simp only [hfront, Option.bind_eq_bind, Option.bind_some, String.toList_ofList]
  cases before.getLast? <;> rfl

end

/-- What is shown is the stretch, or where it is empty the character in front of it, if there is
one. -/
theorem exists_shown {text : String} {span : Span} (h : span.Fits text) :
    ∃ before inside behind : List Char, text.toList = before ++ inside ++ behind ∧
      range span text.toList = (byteSize before, byteSize (before ++ inside)) ∧
      (inside = [] ↔ span = ⟨0, 0⟩) := by
  obtain ⟨before, inside, behind, htext, rfl⟩ := h
  rw [range_of_append htext]
  cases inside with
  | cons c inside =>
    have hpos := byteSize_pos (List.cons_ne_nil c inside)
    refine ⟨before, c :: inside, behind, htext, ?_, ?_⟩
    · have hne : byteSize before ≠ byteSize (before ++ c :: inside) := by
        rw [byteSize_append]
        omega
      simp only [if_neg hne]
      cases before.getLast? <;> rfl
    · rw [Span.mk.injEq]
      exact iff_of_false (List.cons_ne_nil c inside) fun hspan => by omega
  | nil =>
    obtain rfl | ⟨front, previous, rfl⟩ := List.eq_nil_or_concat' before
    · exact ⟨[], [], behind, htext, rfl, iff_of_true rfl rfl⟩
    · have hsize : byteSize (front ++ [previous]) = byteSize front + previous.utf8Size :=
        byteSize_append front [previous]
      have hpos := previous.utf8Size_pos
      refine ⟨front, [previous], behind, by simpa using htext, ?_, ?_⟩
      · rw [List.getLast?_concat, List.append_nil]
        simp only [if_true, hsize, Nat.add_sub_cancel]
      · rw [Span.mk.injEq, hsize]
        exact iff_of_false (List.cons_ne_nil previous []) fun hspan => by omega

theorem shown_of_fits {text : String} {span : Span} (h : span.Fits text) : Shown span text := by
  obtain ⟨before, inside, behind, htext, hrange, hempty⟩ := exists_shown h
  obtain ⟨front, stretch, rest, hsplit, rfl⟩ := h
  have hcuts := cuts_of_append hsplit
  refine ⟨?_, ?_, range?_of_append hsplit, ?_, ?_⟩
  · rw [Span.stop, ← byteSize_append]
    exact hcuts.stop_le
  · rw [clamped_of_append hsplit]
    exact hcuts
  · rw [hrange]
    exact cuts_of_append htext
  · rw [hrange, ne_eq, ← hempty, byteSize_append]
    exact ⟨fun hlt hnil => by simp [hnil, byteSize] at hlt,
      fun hne => Nat.lt_add_of_pos_right (byteSize_pos hne)⟩

end Diagnostic

end Lox
