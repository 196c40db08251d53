import Lox.Proofs.Token.Joining
import Mathlib.Data.String.Basic

/-!
# Items tile the text

The items of a text and what is skipped between them make up the whole text, with nothing left over
and nothing covered twice. That is read off the relations that say what the items are: each item
covers characters that stand where the items before it and the gaps have ended, so its span is the
number of bytes before and in it, and its line tells the line feeds before it.

A line counter of 32 bits tells them as long as there are fewer than `2 ^ 32 - 1`. A text shorter
than `2 ^ 32` bytes that has more is nothing but line feeds, and the line of its end is 0.
-/

namespace Lox

/-! ### Stretches of a text -/

namespace Text

/-- The text from one offset in bytes to another. -/
def slice (text : String) (start stop : Nat) : String :=
  String.Pos.Raw.extract text ⟨start⟩ ⟨stop⟩

theorem byteSize_eq_utf8Len (text : List Char) : byteSize text = String.utf8Len text := by
  induction text with
  | nil => rfl
  | cons c text ih => rw [String.utf8Len_cons, ← ih, Nat.add_comm]; rfl

theorem byteSize_append (text more : List Char) :
    byteSize (text ++ more) = byteSize text + byteSize more := by
  simp only [byteSize_eq_utf8Len, String.utf8Len_append]

theorem slice_eq (before inside behind : List Char) :
    slice (String.ofList (before ++ inside ++ behind)) (byteSize before)
      (byteSize (before ++ inside)) = String.ofList inside := by
  rw [slice, byteSize_append, byteSize_eq_utf8Len, byteSize_eq_utf8Len]
  exact String.extract_of_valid before inside behind

theorem isValid_byteSize (before behind : List Char) :
    String.Pos.Raw.IsValid (String.ofList (before ++ behind)) ⟨byteSize before⟩ := by
  rw [String.Pos.Raw.isValid_iff_exists_append]
  refine ⟨String.ofList before, String.ofList behind, String.ofList_append, ?_⟩
  rw [String.rawEndPos_ofList, byteSize_eq_utf8Len]

end Text

/-! ### What an item covers -/

def Item.span : Item → Span
  | .ok token => token.span
  | .error error => error.span

def Item.line : Item → Nat
  | .ok token => token.line
  | .error error => error.line

/-- Characters that are skipped in front of what is behind them: separators and complete comments.
A comment in a line goes on up to a line feed or the end of the text, and the other ones are closed
at the first chance. -/
inductive Skipped : (gap behind : List Char) → Prop where
  | nil (behind : List Char) : Skipped [] behind
  | separator {c : Char} {gap behind : List Char} (h : isSeparator c = true)
      (further : Skipped gap behind) : Skipped (c :: gap) behind
  | lineComment {body gap behind : List Char} (h : '\n' ∉ body)
      (stops : ∀ c ∈ (gap ++ behind).head?, c = '\n') (further : Skipped gap behind) :
    Skipped ('/' :: '/' :: body ++ gap) behind
  | blockComment {body gap behind : List Char} (h : ¬ Closes (body ++ ['*']))
      (further : Skipped gap behind) : Skipped ('/' :: '*' :: body ++ '*' :: '/' :: gap) behind

/-- The item covers these characters at a place; the end, and nothing else, covers none. -/
structure Item.CoversAt (item : Item) (place : Position) (inside : List Char) : Prop where
  span : item.span = .between place.offset (place.past inside).offset
  line : item.line = place.line
  lexeme : ∀ token, item = .ok token → token.lexeme = String.ofList inside
  nil_iff : inside = [] ↔ isLast item = true
  begins : ∀ c ∈ inside.head?, isSeparator c = false

/-- What may be skipped does not begin a lexeme. -/
theorem Lexeme.begins {kind : TokenKind} {chars : List Char} (h : Lexeme kind chars) :
    ∀ c ∈ chars.head?, isSeparator c = false := by
  intro c hc
  refine Bool.eq_false_iff.2 fun hseparator => ?_
  obtain ⟨-, contents, -, rfl⟩ := h.exists_string (List.mem_of_head? hc) hseparator
  cases hc
  cases hseparator

/-- What may be skipped does not end a lexeme. -/
theorem Lexeme.ends {kind : TokenKind} {chars : List Char} (h : Lexeme kind chars) :
    ∀ c ∈ chars.getLast?, isSeparator c = false := by
  intro c hc
  refine Bool.eq_false_iff.2 fun hseparator => ?_
  obtain ⟨-, contents, -, rfl⟩ := h.exists_string (List.mem_of_getLast? hc) hseparator
  rw [List.getLast?_concat] at hc
  cases hc
  cases hseparator

theorem Item.coversAt_token {place : Position} {kind : TokenKind} {chars : List Char}
    (h : Lexeme kind chars) (value : Option TokenValue) :
    CoversAt (.ok (.covering place kind chars value)) place chars where
  span := rfl
  line := rfl
  lexeme := by
    rintro token ⟨⟩
    rfl
  nil_iff := iff_of_false h.ne_nil (by simp [isLast_covering h])
  begins := h.begins

theorem Item.coversAt_error (place : Position) (cause : LexicalError.Cause) {c : Char}
    (chars : List Char) (h : isSeparator c = false) :
    CoversAt (.error (.covering place cause (c :: chars))) place (c :: chars) where
  span := rfl
  line := rfl
  lexeme := by
    rintro token ⟨⟩
  nil_iff := iff_of_false (List.cons_ne_nil c chars) Bool.false_ne_true
  begins := by
    rintro _ ⟨⟩
    exact h

theorem Item.coversAt_ending (place : Position) :
    CoversAt (.ok (.atEnd place.offset place.line)) place [] where
  span := by rw [Position.past_nil, Span.between, Nat.sub_self]; rfl
  line := rfl
  lexeme := by
    rintro token ⟨⟩
    rfl
  nil_iff := iff_of_true rfl rfl
  begins := by
    rintro _ ⟨⟩

/-- A text is what is skipped in front of its next item, what the item covers, and the rest. -/
theorem NextItem.exists_split {place after : Position} {text rest : List Char} {item : Item}
    (h : NextItem place text item after rest) : ∃ gap inside, text = gap ++ inside ++ rest ∧
      after = place.past (gap ++ inside) ∧ Skipped gap (inside ++ rest) ∧
        item.CoversAt (place.past gap) inside := by
  induction h with
  | separator h _ ih =>
    obtain ⟨gap, inside, rfl, rfl, hskipped, hcovers⟩ := ih
    exact ⟨_ :: gap, inside, rfl, rfl, .separator h hskipped, hcovers⟩
  | @lineComment _ _ body _ _ _ h stops _ ih =>
    obtain ⟨gap, inside, rfl, rfl, hskipped, hcovers⟩ := ih
    refine ⟨'/' :: '/' :: body ++ gap, inside, by simp, by simp, ?_, by simpa using hcovers⟩
    rw [List.append_assoc] at stops
    exact .lineComment h stops hskipped
  | @blockComment _ _ body _ _ _ h _ ih =>
    obtain ⟨gap, inside, rfl, rfl, hskipped, hcovers⟩ := ih
    exact ⟨'/' :: '*' :: body ++ '*' :: '/' :: gap, inside, by simp, by simp,
      .blockComment h hskipped, by simpa using hcovers⟩
  | @token _ _ chars rest value _ longest _ =>
    exact ⟨[], chars, rfl, rfl, .nil _, Item.coversAt_token longest.lexeme value⟩
  | unclosedString => exact ⟨[], _, by simp, rfl, .nil _, Item.coversAt_error _ _ _ rfl⟩
  | unclosedComment => exact ⟨[], _, by simp, rfl, .nil _, Item.coversAt_error _ _ _ rfl⟩
  | unrecognized h => exact ⟨[], [_], rfl, rfl, .nil _, Item.coversAt_error _ _ [] h⟩
  | ending place => exact ⟨[], [], rfl, rfl, .nil _, Item.coversAt_ending place⟩

/-! ### Tilings -/

/-- The item covers a stretch of the text. -/
structure Item.Covers (text : String) (item : Item) : Prop where
  start_valid : String.Pos.Raw.IsValid text ⟨item.span.start⟩
  stop_valid : String.Pos.Raw.IsValid text ⟨item.span.stop⟩
  /-- Only the end covers nothing. -/
  length_pos_iff : 0 < item.span.length ↔ isLast item = false
  lexeme : ∀ token, item = .ok token →
    token.lexeme = Text.slice text item.span.start item.span.stop
  line : item.line = 1 + (Text.slice text 0 item.span.start).toList.count '\n'

/-- From an offset up to the item there is nothing but separators and complete comments. -/
structure Item.Follows (text : String) (offset : Nat) (item : Item) : Prop where
  le_start : offset ≤ item.span.start
  skipped : Skipped (Text.slice text offset item.span.start).toList
    (Text.slice text item.span.start text.utf8ByteSize).toList

/-- The items follow one another from an offset on. -/
inductive FollowOn (text : String) : (offset : Nat) → List Item → Prop where
  | nil (offset : Nat) : FollowOn text offset []
  | cons {offset : Nat} {item : Item} {items : List Item} (follows : item.Follows text offset)
      (further : FollowOn text item.span.stop items) : FollowOn text offset (item :: items)

/-- From an offset on, the text is made up of the items and of what is skipped between them. -/
structure Tiling (text : String) (offset : Nat) (items : List Item) : Prop where
  covers : ∀ item ∈ items, item.Covers text
  follow : FollowOn text offset items
  /-- The end of the text comes last and nowhere else. -/
  ending : ∃ found, items =
      found ++ [.ok (.atEnd text.utf8ByteSize (1 + text.toList.count '\n'))] ∧
    ∀ item ∈ found, isLast item = false

section
variable {item : Item} {before inside : List Char}

theorem Item.CoversAt.span_eq (h : item.CoversAt (Position.past ⟨0, 1⟩ before) inside) :
    item.span = ⟨Text.byteSize before, Text.byteSize inside⟩ := by
  rw [h.span, Span.between]
  simp only [Position.offset_past, Nat.zero_add, Nat.add_sub_cancel_left]

theorem Item.CoversAt.stop_eq (h : item.CoversAt (Position.past ⟨0, 1⟩ before) inside) :
    item.span.stop = Text.byteSize (before ++ inside) := by
  rw [h.span_eq, Span.stop, Text.byteSize_append]

theorem Item.CoversAt.ne_nil {place : Position} (h : item.CoversAt place inside)
    (hlast : isLast item = false) : inside ≠ [] := by
  intro hnil
  rw [h.nil_iff.1 hnil] at hlast
  cases hlast

/-- The line tells the line feeds before the item. -/
theorem Item.CoversAt.line_eq (h : item.CoversAt (Position.past ⟨0, 1⟩ before) inside)
    (hfeeds : before.count '\n' < 2 ^ 32 - 1) : item.line = 1 + before.count '\n' :=
  h.line.trans (Position.line_past_of_lt ⟨0, 1⟩ before (by show 1 + _ < _; omega))

theorem Item.CoversAt.covers (h : item.CoversAt (Position.past ⟨0, 1⟩ before) inside)
    (hfeeds : before.count '\n' < 2 ^ 32 - 1) (behind : List Char) :
    item.Covers (String.ofList (before ++ inside ++ behind)) where
  start_valid := by
    rw [h.span_eq, List.append_assoc]
    exact Text.isValid_byteSize before (inside ++ behind)
  stop_valid := by
    rw [h.stop_eq]
    exact Text.isValid_byteSize (before ++ inside) behind
  length_pos_iff := by
    rw [h.span_eq]
    show 0 < Text.byteSize inside ↔ _
    rw [Nat.pos_iff_ne_zero, Text.byteSize_eq_utf8Len, Ne, String.utf8Len_eq_zero, h.nil_iff,
      Bool.not_eq_true]
  lexeme token htoken := by
    rw [h.lexeme token htoken, h.stop_eq, h.span_eq, Text.slice_eq]
  line := by
    have hbefore := Text.slice_eq [] before (inside ++ behind)
    rw [List.nil_append, ← List.append_assoc] at hbefore
    rw [h.line_eq hfeeds, h.span_eq]
    show 1 + before.count '\n' =
      1 + (Text.slice _ (Text.byteSize []) (Text.byteSize before)).toList.count '\n'
    rw [hbefore, String.toList_ofList]

theorem Item.CoversAt.follows {gap behind : List Char}
    (h : item.CoversAt (Position.past ⟨0, 1⟩ (before ++ gap)) inside)
    (hskipped : Skipped gap (inside ++ behind)) :
    item.Follows (String.ofList (before ++ (gap ++ inside ++ behind))) (Text.byteSize before) where
  le_start := by
    rw [h.span_eq, Text.byteSize_append]
    exact Nat.le_add_right _ _
  skipped := by
    have hgap := Text.slice_eq before gap (inside ++ behind)
    have hrest := Text.slice_eq (before ++ gap) (inside ++ behind) []
    simp only [List.append_assoc, List.append_nil] at hgap hrest
    rw [h.span_eq, utf8ByteSize_ofList]
    simp only [List.append_assoc, hgap, hrest, String.toList_ofList]
    exact hskipped

end

theorem Tiling.cons {text : String} {offset : Nat} {item : Item} {items : List Item}
    (h : Tiling text item.span.stop items) (hcovers : item.Covers text)
    (hfollows : item.Follows text offset) (hinner : isLast item = false) :
    Tiling text offset (item :: items) where
  covers := List.forall_mem_cons.2 ⟨hcovers, h.covers⟩
  follow := .cons hfollows h.follow
  ending := by
    obtain ⟨found, rfl, hfound⟩ := h.ending
    exact ⟨item :: found, rfl, List.forall_mem_cons.2 ⟨hinner, hfound⟩⟩

theorem Tiling.line_ending {text : String} {offset : Nat} {ending : Token}
    (h : Tiling text offset [.ok ending]) : ending.line = 1 + text.toList.count '\n' := by
  obtain ⟨found, hfound, -⟩ := h.ending
  obtain ⟨-, hending⟩ := List.append_inj' ((List.nil_append _).trans hfound) rfl
  rw [Except.ok.inj (List.cons.inj hending).1]
  rfl

/-- An end that covers nothing is where the text ends. -/
theorem NextItem.eq_atEnd {place after : Position} {text rest : List Char} {item : Item}
    (h : NextItem place text item after rest) (hlast : isLast item = true) :
    rest = [] ∧ item = .ok (.atEnd (place.past text).offset (place.past text).line) := by
  induction h with
  | separator _ _ ih | lineComment _ _ _ ih => simpa using ih hlast
  | blockComment _ _ ih => simpa using ih hlast
  | token _ longest => simp [isLast_covering longest.lexeme] at hlast
  | unclosedString | unclosedComment | unrecognized => cases hlast
  | ending => exact ⟨rfl, rfl⟩

/-- Behind any front of a text, each item of the rest covers a stretch of the whole. -/
theorem Scans.exists_coversAt {place : Position} {left : List Char} {items : List Item}
    (h : Scans place left items) : ∀ before : List Char, place = Position.past ⟨0, 1⟩ before →
      ∀ item ∈ items, ∃ front inside behind, before ++ left = front ++ inside ++ behind ∧
        item.CoversAt (Position.past ⟨0, 1⟩ front) inside := by
  induction h with
  | @last _ _ _ rest item next =>
    rintro before rfl
    obtain ⟨gap, inside, rfl, -, -, hcovers⟩ := next.exists_split
    rw [← Position.past_append] at hcovers
    exact List.forall_mem_singleton.2 ⟨before ++ gap, inside, rest, by simp, hcovers⟩
  | @more _ _ _ rest item items next _ _ ih =>
    rintro before rfl
    obtain ⟨gap, inside, rfl, rfl, -, hcovers⟩ := next.exists_split
    have hrest := ih (before ++ (gap ++ inside)) (Position.past_append _ _ _).symm
    rw [← Position.past_append] at hcovers
    refine List.forall_mem_cons.2 ⟨⟨before ++ gap, inside, rest, by simp, hcovers⟩, ?_⟩
    intro other hmem
    obtain ⟨front, within, behind, heq, hother⟩ := hrest other hmem
    exact ⟨front, within, behind, by simpa using heq, hother⟩

/-- Each item of a text covers a stretch of it. -/
theorem exists_coversAt {text : String} {item : Item} (hmem : item ∈ items text) :
    ∃ front inside behind, text.toList = front ++ inside ++ behind ∧
      item.CoversAt (Position.past ⟨0, 1⟩ front) inside := by
  obtain ⟨found, hfound, -⟩ := exists_scans text.toList ⟨0, 1⟩
  rw [items_of_scans hfound] at hmem
  exact hfound.exists_coversAt [] rfl item hmem

/-- However long the text is, the line of an item is a number of 32 bits. -/
theorem line_lt_of_mem_items {text : String} {item : Item} (hmem : item ∈ items text) :
    item.line < 2 ^ 32 := by
  obtain ⟨front, inside, behind, -, hcovers⟩ := exists_coversAt hmem
  rw [hcovers.line, Position.line_past _ _ (by decide)]
  exact Nat.mod_lt _ (Nat.two_pow_pos 32)

/-- What a token covers is a lexeme of its kind, unless it is the end. -/
theorem NextItem.lexeme {place after : Position} {text rest : List Char} {item : Item}
    (h : NextItem place text item after rest) :
    ∀ token, item = .ok token → token.isEnd = false → Lexeme token.kind token.lexeme.toList := by
  induction h with
  | separator _ _ ih | lineComment _ _ _ ih | blockComment _ _ ih => exact ih
  | token _ longest =>
    rintro _ ⟨⟩ -
    exact String.toList_ofList ▸ longest.lexeme
  | unclosedString | unclosedComment | unrecognized => exact nofun
  | ending =>
    rintro _ ⟨⟩ ⟨⟩

theorem Scan.lexeme_of_mem_tokens {text : String} {token : Token}
    (hmem : token ∈ (ofText text).tokens) (hopen : token.isEnd = false) :
    Lexeme token.kind token.lexeme.toList :=
  forall_mem_items (fun next => next.lexeme) _ (mem_items_of_mem_tokens hmem) token rfl hopen

/-- From any place on, the items of the rest of a text tile it. -/
theorem Scans.tiling {place : Position} {left : List Char} {items : List Item}
    (h : Scans place left items) : ∀ before : List Char, place = Position.past ⟨0, 1⟩ before →
      (before ++ left).count '\n' < 2 ^ 32 - 1 →
        Tiling (String.ofList (before ++ left)) (Text.byteSize before) items := by
  have hfront {before left : List Char} (gap behind : List Char) (heq : left = gap ++ behind)
      (hfeeds : (before ++ left).count '\n' < 2 ^ 32 - 1) :
      (before ++ gap).count '\n' < 2 ^ 32 - 1 := by
    rw [heq, ← List.append_assoc, List.count_append] at hfeeds
    omega
  induction h with
  | @last _ _ _ rest item next hlast =>
    rintro before rfl hfeeds
    obtain ⟨rfl, hitem⟩ := next.eq_atEnd hlast
    obtain ⟨gap, inside, rfl, -, hskipped, hcovers⟩ := next.exists_split
    rw [← Position.past_append] at hcovers hitem
    have hline := Position.line_past_of_lt ⟨0, 1⟩ (before ++ (gap ++ inside ++ []))
      (by show 1 + _ < _; omega)
    refine ⟨List.forall_mem_singleton.2 ?_, .cons (hcovers.follows hskipped) (.nil _), [], ?_,
      by simp⟩
    · have hcovered := hcovers.covers (hfront gap (inside ++ []) (by simp) hfeeds) []
      rwa [List.append_assoc, List.append_assoc, ← List.append_assoc gap] at hcovered
    · rw [hitem, Position.offset_past, hline, utf8ByteSize_ofList, String.toList_ofList,
        Nat.zero_add]
      rfl
  | @more _ _ _ rest item items next hinner further ih =>
    rintro before rfl hfeeds
    obtain ⟨gap, inside, rfl, rfl, hskipped, hcovers⟩ := next.exists_split
    rw [← Position.past_append] at hcovers
    have hrest := ih (before ++ (gap ++ inside)) (Position.past_append _ _ _).symm
    rw [List.append_assoc] at hrest
    apply Tiling.cons _ _ (hcovers.follows hskipped) hinner
    · rw [hcovers.stop_eq, List.append_assoc before gap]
      exact hrest hfeeds
    · have hcovered := hcovers.covers (hfront gap (inside ++ rest) (by simp) hfeeds) rest
      rwa [List.append_assoc, List.append_assoc, ← List.append_assoc gap] at hcovered

/-! ### Nothing but line feeds -/

/-- The text of so many line feeds. -/
def feeds (count : Nat) : String :=
  String.ofList (List.replicate count '\n')

theorem utf8ByteSize_feeds (count : Nat) : (feeds count).utf8ByteSize = count := by
  rw [feeds, utf8ByteSize_ofList]
  induction count with
  | zero => rfl
  | succ count ih =>
    rw [List.replicate_succ, Text.byteSize, List.foldr_cons, ← Text.byteSize, ih]
    exact Nat.add_comm 1 count

theorem nextItem_feeds (count : Nat) (place : Position) :
    NextItem place (List.replicate count '\n')
      (.ok (.atEnd (place.past (List.replicate count '\n')).offset
        (place.past (List.replicate count '\n')).line))
      (place.past (List.replicate count '\n')) [] := by
  induction count generalizing place with
  | zero => exact .ending place
  | succ count ih => exact .separator rfl (ih (place.next '\n'))

/-- The only item is the end, with the number that the counter has for its line. -/
theorem items_feeds (count : Nat) :
    items (feeds count) = [.ok (.atEnd count ((1 + count) % 2 ^ 32))] := by
  have hnext := nextItem_feeds count ⟨0, 1⟩
  rw [Position.offset_past, Position.line_past _ _ (by decide), ← utf8ByteSize_ofList,
    List.count_replicate_self] at hnext
  have hsize : 0 + (String.ofList (List.replicate count '\n')).utf8ByteSize = count :=
    (Nat.zero_add _).trans (utf8ByteSize_feeds count)
  rw [hsize] at hnext
  apply items_of_scans
  rw [feeds, String.toList_ofList]
  exact .last hnext rfl

/-! ### The items of a text -/

/-- The items that are yielded for a text, however many are asked for, are those of a list that
tiles it, if the line counter does not start over. Each covers a stretch of the text between two
characters that is not empty, unless the item is the end, and the lexeme of a token is what stands
there. Between each item and the one before it, or the start of the text, there is nothing but
separators and complete comments. The line of an item is one more than there are line feeds before
it. The end of the text comes last and nowhere else, behind all characters and all line feeds. -/
theorem items_tile (text : String) (hfeeds : text.toList.count '\n' < 2 ^ 32 - 1) :
    (∀ count, (Scanner.ofText text).take count = (items text).take count) ∧
      Tiling text 0 (items text) := by
  obtain ⟨found, hfound, -⟩ := exists_scans text.toList ⟨0, 1⟩
  rw [items_of_scans hfound]
  refine ⟨fun count => Scanner.take_of_scans hfound (Scanner.stands_ofText text) rfl count, ?_⟩
  have htiling := hfound.tiling [] rfl hfeeds
  rwa [List.nil_append, String.ofList_toList] at htiling

/-- A comment, a string over two lines, and a point that is read behind a name and put back. -/
theorem items_tile_spanning :
    "a//é\n\"é\n\" b.".toList.count '\n' < 2 ^ 32 - 1 ∧
      (∀ count, (Scanner.ofText "a//é\n\"é\n\" b.").take count =
        (items "a//é\n\"é\n\" b.").take count) ∧
      Tiling "a//é\n\"é\n\" b." 0
        [.ok ⟨.identifier, "a", none, ⟨0, 1⟩, 1⟩,
          .ok ⟨.string, "\"é\n\"", some (.text "é\n"), ⟨6, 5⟩, 2⟩,
          .ok ⟨.identifier, "b", none, ⟨12, 1⟩, 3⟩, .ok ⟨.dot, ".", none, ⟨13, 1⟩, 3⟩,
          .ok (.atEnd 14 3)] := by
  have hfeeds : "a//é\n\"é\n\" b.".toList.count '\n' < 2 ^ 32 - 1 := by decide
  have hitems : items "a//é\n\"é\n\" b." =
      [.ok ⟨.identifier, "a", none, ⟨0, 1⟩, 1⟩,
        .ok ⟨.string, "\"é\n\"", some (.text "é\n"), ⟨6, 5⟩, 2⟩,
        .ok ⟨.identifier, "b", none, ⟨12, 1⟩, 3⟩, .ok ⟨.dot, ".", none, ⟨13, 1⟩, 3⟩,
        .ok (.atEnd 14 3)] := by cbv
  obtain ⟨htake, htiling⟩ := items_tile _ hfeeds
  exact ⟨hfeeds, htake, hitems ▸ htiling⟩

/-- With one line feed more, in a text that is still shorter than `2 ^ 32` bytes, the counter has
started over where the text ends, and the line of the end is not the one behind all line feeds. -/
theorem not_tiling_feeds :
    (feeds (2 ^ 32 - 1)).utf8ByteSize < 2 ^ 32 ∧
      items (feeds (2 ^ 32 - 1)) = [.ok (.atEnd (2 ^ 32 - 1) 0)] ∧
        ¬ Tiling (feeds (2 ^ 32 - 1)) 0 (items (feeds (2 ^ 32 - 1))) := by
  have hsize : (feeds (2 ^ 32 - 1)).utf8ByteSize < 2 ^ 32 := by
    rw [utf8ByteSize_feeds]
    decide
  have hitems : items (feeds (2 ^ 32 - 1)) = [.ok (.atEnd (2 ^ 32 - 1) 0)] := items_feeds _
  refine ⟨hsize, hitems, fun htiling => ?_⟩
  rw [hitems] at htiling
  exact Nat.add_one_ne_zero _ ((Nat.add_comm _ 1).trans htiling.line_ending.symm)

end Lox
