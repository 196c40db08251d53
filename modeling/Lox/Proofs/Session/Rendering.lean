import Lox.Proofs.Grammar.Bounds
import Lox.Proofs.Grammar.Offending
import Lox.Proofs.Session.Termination
import Lox.Proofs.Token.Slices

/-!
# What reports show of a text

The spans of errors come from three sides: from the scanner, from the tokens at which the parser
notices something, the end among them, and from the lines that runtime errors are raised on. All of
them are spans of stretches of the text, so a report of any of them can be shown.
-/

namespace Lox

open Text

theorem Item.fits {text : String} {item : Item} (hmem : item ∈ items text) :
    item.span.Fits text := by
  obtain ⟨front, inside, behind, htext, hcovers⟩ := exists_coversAt hmem
  exact ⟨front, inside, behind, htext, hcovers.span_eq⟩

theorem Token.fits {text : String} {token : Token} (hmem : token ∈ (Scan.ofText text).tokens) :
    token.span.Fits text :=
  Item.fits (Scan.mem_items_of_mem_tokens hmem)

/-- A line that is not there is the empty stretch behind the whole text. -/
theorem Span.fits_ofLine (text : String) (line : Nat) : (ofLine text.toList line).Fits text := by
  cases hline : line? text.toList line with
  | some content =>
    obtain ⟨earlier, later, htext, hspan⟩ := ofLine_of_line? hline
    exact ⟨earlier, content, later, htext, hspan⟩
  | none =>
    refine ⟨text.toList, [], [], by simp, ?_⟩
    cases line with
    | zero => rfl
    | succ index =>
      rw [line?, Option.map_eq_none_iff] at hline
      rw [ofLine, hline]
      rfl

/-- Whatever is wrong with a text, and on whatever line a run is said to have failed, the report can
be shown: the offsets of the span are cut to offsets of the text that are in order and between two
characters, and so is the range that is marked. Only an empty span in front of the whole text has
nothing to mark. A text is parsed in either way without a value missing. -/
theorem reports_within_text (text : String) :
    (∀ error ∈ (Scan.ofText text).errors, Diagnostic.Shown error.diagnostic.span text) ∧
    (∃ program, Program.ofTokens (Scan.ofText text).tokens = .ok program ∧
      ∀ error ∈ program.errors, Diagnostic.Shown error.diagnostic.span text) ∧
    (∃ result, Expression.ofTokens (Scan.ofText text).tokens = .ok result ∧
      ∀ errors, result = .error errors →
        ∀ error ∈ errors, Diagnostic.Shown error.diagnostic.span text) ∧
    ∀ error : RuntimeError, Diagnostic.Shown (error.diagnostic text).span text := by
  have hvalued := Scan.valued_of_mem_tokens text
  have hends : ∃ token ∈ (Scan.ofText text).tokens, token.isEnd = true := by
    obtain ⟨tokens, ending, htokens, hending, -⟩ := Scan.exists_ending text
    exact ⟨ending, by simp [htokens], hending⟩
  refine ⟨fun error hmem => ?_, ?_, ?_, fun error => ?_⟩
  · exact Diagnostic.shown_of_fits (Item.fits (Scan.mem_errors_ofItems.1 hmem))
  · obtain ⟨program, hprogram⟩ := Program.exists_ofTokens hvalued
    refine ⟨program, hprogram, fun error hmem => ?_⟩
    exact Diagnostic.shown_of_fits (Token.fits (Program.token_mem_of_ofTokens hends hprogram error hmem))
  · obtain ⟨result, hresult⟩ := Expression.exists_ofTokens hvalued
    refine ⟨result, hresult, ?_⟩
    rintro errors rfl error hmem
    exact Diagnostic.shown_of_fits
      (Token.fits (Expression.token_mem_of_ofTokens hends hresult error hmem))
  · exact Diagnostic.shown_of_fits (Span.fits_ofLine text error.line)

set_option maxRecDepth 20000 in
/-- An unknown character of two bytes, and an error at the end behind it, which marks it. -/
theorem reports_within_text_missing :
    (∃ error ∈ (Scan.ofText "print é").errors, error.span = ⟨6, 2⟩ ∧
      Diagnostic.Shown error.diagnostic.span "print é") ∧
    ∃ program, Program.ofTokens (Scan.ofText "print é").tokens = .ok program ∧
      ∃ error ∈ program.errors, error.token.span = ⟨8, 0⟩ ∧
        Diagnostic.Shown error.diagnostic.span "print é" ∧
        Diagnostic.range error.diagnostic.span "print é".toList = (6, 8) := by
  have hscan : Scan.ofText "print é" =
      ⟨[⟨.keyword .printWord, "print", none, ⟨0, 5⟩, 1⟩, .atEnd 8 1],
        [⟨.unrecognized 'é', ⟨6, 2⟩, 1⟩]⟩ := by cbv
  have hprogram : Program.ofTokens (Scan.ofText "print é").tokens =
      .ok ⟨[none], [⟨.notExpression, .atEnd 8 1⟩]⟩ := by
    rw [hscan]
    cbv
  obtain ⟨hlexical, ⟨program, hsame, hsyntax⟩, -, -⟩ := reports_within_text "print é"
  obtain rfl := Except.ok.inj (hprogram.symm.trans hsame)
  refine ⟨⟨⟨.unrecognized 'é', ⟨6, 2⟩, 1⟩, by simp [hscan], rfl, hlexical _ (by simp [hscan])⟩, ?_⟩
  exact ⟨_, hprogram, _, List.mem_singleton_self _, rfl, hsyntax _ (List.mem_singleton_self _),
    by decide +kernel⟩

end Lox
