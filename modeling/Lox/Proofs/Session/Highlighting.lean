import Lox.Proofs.Session.Blame

/-!
# What is highlighted

The scanner numbers lines while it reads ahead, and the report of a runtime error divides the finished
text. Both mean the same lines, so what is found for the number of an item holds what the item begins
with. In a fresh session an error is raised at a token of the text itself, so the report shows the
line of this token, and the token on it.
-/

namespace Lox

open Text

/-- The lines that are found in the text for the numbers of its tokens and errors hold them: their
first bytes, and all of a token that does not go across a line feed. -/
structure FindsLines (text : String) : Prop where
  token : ∀ token ∈ (Scan.ofText text).tokens, token.isEnd = false →
    (Span.ofLine text.toList token.line).Contains ⟨token.span.start, 1⟩
  whole : ∀ token ∈ (Scan.ofText text).tokens, token.isEnd = false → '\n' ∉ token.lexeme.toList →
    (Span.ofLine text.toList token.line).Contains token.span
  error : ∀ error ∈ (Scan.ofText text).errors,
    (Span.ofLine text.toList error.line).Contains ⟨error.span.start, 1⟩

theorem findsLines {text : String} (hsize : text.utf8ByteSize < 2 ^ 32) : FindsLines text where
  token _ hmem hopen := contains_first_of_item hsize (Scan.mem_items_of_mem_tokens hmem) hopen
  whole _ hmem hopen hfeed := Scan.contains_of_token hsize hmem hopen hfeed
  error _ hmem := contains_first_of_item hsize (Scan.mem_errors_ofItems.1 hmem) rfl

theorem Token.isEnd_of_mayRaise {token : Token} (h : token.kind.mayRaise = true) :
    token.isEnd = false := by
  rw [Token.isEnd, beq_eq_false_iff_ne]
  intro hend
  rw [hend] at h
  cases h

/-- Only a string goes across a line feed, and no error is raised at a string. -/
theorem Scan.feed_notMem_of_mayRaise {text : String} {token : Token}
    (hmem : token ∈ (ofText text).tokens) (hkind : token.kind.mayRaise = true) :
    '\n' ∉ token.lexeme.toList := by
  intro hfeed
  have hlexeme := lexeme_of_mem_tokens hmem (Token.isEnd_of_mayRaise hkind)
  rw [(hlexeme.exists_string hfeed rfl).1] at hkind
  cases hkind

/-- Where the report of the error highlights the text: the first byte, and the one behind the last. -/
def RuntimeError.highlighted (error : RuntimeError) (source : Source) : Nat × Nat :=
  Diagnostic.range (error.diagnostic source.text).span source.text.toList

/-- The report of the error highlights something of the text, and the token is all in it. -/
structure RuntimeError.Highlights (error : RuntimeError) (source : Source) (token : Token) : Prop where
  nonempty : (error.highlighted source).1 < (error.highlighted source).2
  start_le : (error.highlighted source).1 ≤ token.span.start
  stop_le : token.span.stop ≤ (error.highlighted source).2

theorem RuntimeError.highlights_of_line {error : RuntimeError} {source : Source} {token : Token}
    (hmem : token ∈ source.tokens) (hkind : token.kind.mayRaise = true)
    (hline : token.line = error.line) (hsize : source.text.utf8ByteSize < 2 ^ 32) :
    error.Highlights source token := by
  have hopen := Token.isEnd_of_mayRaise hkind
  have hcontains :=
    Scan.contains_of_token hsize hmem hopen (Scan.feed_notMem_of_mayRaise hmem hkind)
  obtain ⟨before, c, after, hfound, -⟩ :=
    Scan.exists_line_of_token hsize hmem (by simpa [Token.isEnd] using hopen)
  rw [hline] at hfound hcontains
  have hpos : 0 < (Span.ofLine source.text.toList error.line).length := by
    rw [length_ofLine_of_line? hfound]
    exact byteSize_pos (by simp)
  have hrange : error.highlighted source =
      ((Span.ofLine source.text.toList error.line).start,
        (Span.ofLine source.text.toList error.line).stop) :=
    Diagnostic.range_ofLine hfound (by simp)
  refine ⟨?_, ?_, ?_⟩ <;> rw [hrange]
  · exact Nat.lt_add_of_pos_right hpos
  · exact hcontains.start_le
  · exact hcontains.stop_le

namespace Session

/-- In a fresh session an error is raised on the line of a token of the text. -/
theorem exists_token_of_start {clock : Clock} {style : Style} {fuel : Nat} {source : Source}
    {report : RunReport} {after : Session} {error : RuntimeError}
    (hrun : (start clock style).run fuel source = .ok (report, after))
    (herror : report.runtimeError = some error) :
    ∃ token ∈ source.tokens, token.kind.mayRaise = true ∧ token.line = error.line := by
  obtain ⟨program, hprogram, hstatements⟩ := source.exists_ofTokens
  have hplaced : Token.AllPlaced
      (fun line => ∃ token ∈ source.tokens, token.kind.mayRaise = true ∧ token.line = line)
      source.tokens := fun token hmem hkind => ⟨token, hmem, hkind, rfl⟩
  have hkeep := Program.allKeep_placed hprogram hplaced
  rw [← hstatements] at hkeep
  exact (placed_of_interpret (placed_start clock style) hkeep (interpret_of_run hrun)).2 error herror

/-- The lines that are found in a text for what it is scanned into hold it, if the text is shorter
than `2 ^ 32` bytes. And a run in a fresh session that ends with a runtime error raises it on the line
of a name, an operator or a closing parenthesis of the text. In pretty style it is reported last, and
in such a text what is highlighted is not empty and covers this token. -/
theorem lines_agree :
    (∀ text : String, text.utf8ByteSize < 2 ^ 32 → FindsLines text) ∧
    ∀ (clock : Clock) (style : Style) (fuel : Nat) (source : Source) (report : RunReport)
      (after : Session) (error : RuntimeError),
      (start clock style).run fuel source = .ok (report, after) →
        report.runtimeError = some error →
          (∃ token ∈ source.tokens, token.kind.mayRaise = true ∧ token.line = error.line ∧
            (source.text.utf8ByteSize < 2 ^ 32 → error.Highlights source token)) ∧
            (style = .pretty → report.diagnostics.getLast? =
              some ((error.diagnostic source.text).render source)) := by
  refine ⟨fun _ => findsLines, fun clock style fuel source report after error hrun herror => ⟨?_, ?_⟩⟩
  · obtain ⟨token, hmem, hkind, hline⟩ := exists_token_of_start hrun herror
    exact ⟨token, hmem, hkind, hline, error.highlights_of_line hmem hkind hline⟩
  · rintro rfl
    exact getLast?_diagnostics hrun herror

private def spanning : Source := ⟨"spanning", "\"\n\"@;\r\n-nil;"⟩

private def opening : Session := start { reading := fun _ => 0 } .pretty

set_option maxRecDepth 20000 in
/-- A string over two lines, an unknown character, and an error on the line behind a return. -/
theorem lines_agree_spanning : ∃ report after error,
    spanning.text.utf8ByteSize < 2 ^ 32 ∧ FindsLines spanning.text ∧
    opening.run 9 spanning = .ok (report, after) ∧ report.runtimeError = some error ∧
      (∃ token ∈ spanning.tokens, token.kind.mayRaise = true ∧ token.line = error.line ∧
        error.Highlights spanning token) ∧
      report.diagnostics.getLast? = some ((error.diagnostic spanning.text).render spanning) := by
  have hscan : spanning.tokens =
      [⟨.string, "\"\n\"", some (.text "\n"), ⟨0, 3⟩, 1⟩, ⟨.semicolon, ";", none, ⟨4, 1⟩, 2⟩,
        ⟨.minus, "-", none, ⟨7, 1⟩, 3⟩, ⟨.keyword .nilWord, "nil", none, ⟨8, 3⟩, 3⟩,
        ⟨.semicolon, ";", none, ⟨11, 1⟩, 3⟩, .atEnd 12 3] := by cbv
  have hprogram : Program.ofTokens (Scan.ofText spanning.text).tokens =
      .ok ⟨[some (.expression ⟨#[.literal (.text "\n")], 0⟩),
        some (.expression ⟨#[.literal .nil, .unary .negate 0 3], 1⟩)], []⟩ := by
    rw [← Source.tokens, hscan]
    cbv
  have hinterpret : opening.silent.interpret 9
      [.expression ⟨#[.literal (.text "\n")], 0⟩,
        .expression ⟨#[.literal .nil, .unary .negate 0 3], 1⟩] =
          .ok (some ⟨.notNumber, 3⟩, opening.silent) := by cbv
  have hrun := run_of_interpret hprogram hinterpret
  have hsize : spanning.text.utf8ByteSize < 2 ^ 32 := by decide
  obtain ⟨hfinds, hhighlights⟩ := lines_agree
  obtain ⟨⟨token, hmem, hkind, hline, htoken⟩, hrendered⟩ := hhighlights _ _ _ _ _ _ _ hrun rfl
  exact ⟨_, _, _, hsize, hfinds _ hsize, hrun, rfl, ⟨token, hmem, hkind, hline, htoken hsize⟩,
    hrendered rfl⟩

end Session

end Lox
