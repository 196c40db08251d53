import Mathlib
import Lox.Proofs.Eval.Provenance
import Lox.Proofs.Session.Joining
import Lox.Proofs.Session.Termination
import Lox.Proofs.Token.Numbering

/-!
# The text that an error is reported over

An error knows a line and not the text that the line is of, and functions outlive the text that they
are declared in. To see at which token an error is raised, the texts are run with every token on a
line of its own. A run does not look at lines, so nothing else changes, and the line of the error
tells the token. It is the last run's text that the report marks the line in, whichever text the
token was written in.
-/

namespace Lox

open Text

/-! ### Tokens on lines of their own -/

/-- The tokens that the text is scanned into. -/
def Source.tokens (source : Source) : List Token :=
  (Scan.ofText source.text).tokens

/-- The tokens of all texts, one text behind the other, each with the text that it was written in. -/
def written (sources : List Source) : List (Source × Token) :=
  sources.flatMap fun source => source.tokens.map (Prod.mk source)

/-- The tokens, each on a line of its own, numbered from the first line on. -/
def Token.numbered (first : Nat) (tokens : List Token) : List Token :=
  tokens.mapIdx fun index token => { token with line := first + index }

/-- The statements of the text with its tokens on such lines. -/
def Source.traced (first : Nat) (source : Source) : List Statement :=
  match Program.ofTokens (Token.numbered first source.tokens) with
  | .ok program => program.statements
  | .error _ => []

/-- The line that the token with this number was written on. -/
def lineOf (entries : List (Source × Token)) (number : Nat) : Nat :=
  (entries[number]?).elim 0 fun entry => entry.2.line

/-- The token with this number is one that an error may be raised at. -/
def MayRaiseAt (entries : List (Source × Token)) (number : Nat) : Prop :=
  ∃ entry, entries[number]? = some entry ∧ entry.2.kind.mayRaise = true

/-- Tokens stay where they are and are said to be on other lines. -/
def Relabelling.ofLines (line : Nat → Nat) : Relabelling where
  token original := { original with line := line original.line }
  line := line
  kind_token _ := rfl
  lexeme_token _ := rfl
  value_token _ := rfl
  line_token _ := rfl

theorem mem_of_mem_written {sources : List Source} {origin : Source} {token : Token}
    (h : (origin, token) ∈ written sources) : origin ∈ sources ∧ token ∈ origin.tokens := by
  obtain ⟨source, hsource, hmem⟩ := List.mem_flatMap.1 h
  obtain ⟨other, hother, heq⟩ := List.mem_map.1 hmem
  cases heq
  exact ⟨hsource, hother⟩

section
variable (sources : List Source) (source : Source) (later : List Source)

theorem getElem?_written {index : Nat} {token : Token} (h : source.tokens[index]? = some token) :
    (written (sources ++ source :: later))[(written sources).length + index]? =
      some (source, token) := by
  obtain ⟨hindex, -⟩ := List.getElem?_eq_some_iff.1 h
  have hlt : index < (source.tokens.map (Prod.mk source)).length := by rwa [List.length_map]
  have hsplit : written (sources ++ source :: later) =
      written sources ++ (source.tokens.map (Prod.mk source) ++ written later) := by
    rw [written, List.flatMap_append, List.flatMap_cons]
    rfl
  rw [hsplit, List.getElem?_append_right (Nat.le_add_right _ _), Nat.add_sub_cancel_left,
    List.getElem?_append_left hlt, List.getElem?_map, h, Option.map_some]

/-- From its number, each token is found again. -/
theorem map_numbered : (Token.numbered (written sources).length source.tokens).map
    (Relabelling.ofLines (lineOf (written (sources ++ source :: later)))).token =
      source.tokens := by
  apply List.ext_getElem? fun index => ?_
  rw [Token.numbered, List.getElem?_map, List.getElem?_mapIdx]
  cases h : source.tokens[index]? with
  | none => rfl
  | some token =>
    simp only [Option.map_some, Relabelling.ofLines, lineOf, getElem?_written sources source later h,
      Option.elim_some]

theorem allPlaced_numbered : Token.AllPlaced (MayRaiseAt (written (sources ++ source :: later)))
    (Token.numbered (written sources).length source.tokens) := by
  intro numbered hmem hkind
  obtain ⟨index, hlt, rfl⟩ := List.mem_mapIdx.1 hmem
  have hfound : source.tokens[index]? = some source.tokens[index] := List.getElem?_eq_getElem hlt
  exact ⟨_, getElem?_written sources source later hfound, hkind⟩

theorem exists_traced : ∃ program,
    Program.ofTokens (Token.numbered (written sources).length source.tokens) = .ok program ∧
      source.traced (written sources).length = program.statements ∧
      source.statements = program.statements.map
        (Statement.mapLines (lineOf (written (sources ++ source :: later)))) := by
  let relabelling := Relabelling.ofLines (lineOf (written (sources ++ source :: later)))
  have hmap : (Token.numbered (written sources).length source.tokens).map relabelling.token =
      source.tokens := map_numbered sources source later
  have hending : ∃ token ∈ Token.numbered (written sources).length source.tokens,
      token.isEnd = true := by
    obtain ⟨tokens, ending, htokens, hending, -⟩ := Scan.exists_ending source.text
    have hmem : ending ∈ source.tokens := by simp [Source.tokens, htokens]
    obtain ⟨numbered, hnumbered, rfl⟩ := List.mem_map.1 (hmap.symm ▸ hmem)
    exact ⟨numbered, hnumbered, by rwa [relabelling.isEnd_token] at hending⟩
  obtain ⟨original, horiginal, hstatements⟩ := source.exists_ofTokens
  have hprograms := ofTokens_map relabelling hending
  rw [hmap, Source.tokens, horiginal] at hprograms
  cases hprogram : Program.ofTokens (Token.numbered (written sources).length source.tokens) with
  | error missing =>
    rw [Source.tokens] at hprogram
    simp [hprogram, Except.toOption] at hprograms
  | ok program =>
    refine ⟨program, rfl, by rw [Source.traced, hprogram], ?_⟩
    have hrelabel : original = program.relabel relabelling := by
      rw [Source.tokens] at hprogram
      simpa [hprogram, Except.toOption] using hprograms
    rw [hstatements, hrelabel, Program.statements_relabel]
    rfl

theorem allKeep_traced : Statement.AllKeep
    (Expression.Placed (MayRaiseAt (written (sources ++ source :: later))))
    (source.traced (written sources).length) := by
  obtain ⟨program, hprogram, htraced, -⟩ := exists_traced sources source later
  rw [htraced]
  exact Program.allKeep_placed hprogram (allPlaced_numbered sources source later)

end

namespace Session

/-! ### Runs that are traced -/

/-- Runs a text with its tokens on lines of their own, which come behind those of the texts that were
run before it. -/
def trace (fuel : Nat) (tracing : Session) (sources : List Source) (source : Source) :
    Except Fault (Option RuntimeError × Session) :=
  tracing.silent.interpret fuel (source.traced (written sources).length)

/-- What such a run leaves. -/
def behind (fuel : Nat) (tracing : Session) (sources : List Source) (source : Source) : Session :=
  match tracing.trace fuel sources source with
  | .ok (_, following) => following
  | .error _ => tracing

/-- The token at which the run raises an error, and the text that the token was written in. -/
def blamed (fuel : Nat) (tracing : Session) (sources : List Source) (source : Source) :
    Option (Source × Token) :=
  match tracing.trace fuel sources source with
  | .ok (some error, _) => (written (sources ++ [source]))[error.line]?
  | _ => none

/-- The texts were run one after the other, from the start of a session up to this state of it, and
were traced up to the other one. The clock may have been changed between any two of them. -/
inductive Traced : List Source → Session → Session → Prop where
  | start (clock : Clock) (style : Style) : Traced [] (start clock style) (start clock style)
  | run {sources : List Source} {session tracing after : Session} {fuel : Nat} {source : Source}
      {report : RunReport} (traced : Traced sources session tracing)
      (ran : session.run fuel source = .ok (report, after)) :
      Traced (sources ++ [source]) after (tracing.behind fuel sources source)
  | withClock {sources : List Source} {session tracing : Session}
      (traced : Traced sources session tracing) (clock : Clock) :
      Traced sources (session.withClock clock) (tracing.withClock clock)

/-- But for its lines, which the numbers of the tokens tell, the session is the traced one. In this
one, the functions raise their errors at tokens that were written. Both are said for whatever texts
come later, as these leave the numbers of the tokens before them as they are. -/
structure Tells (sources : List Source) (session tracing : Session) : Prop where
  shown : ∀ later, session = tracing.shown (lineOf (written (sources ++ later))) ""
  placed : ∀ later, tracing.machine.store.Placed (MayRaiseAt (written (sources ++ later)))

theorem placed_of_interpret {placed : Nat → Prop} {fuel : Nat} {session after : Session}
    {statements : List Statement} {raised : Option RuntimeError}
    (hstore : session.machine.store.Placed placed)
    (hstatements : Statement.AllKeep (Expression.Placed placed) statements)
    (h : session.interpret fuel statements = .ok (raised, after)) :
    after.machine.store.Placed placed ∧ ∀ error ∈ raised, placed error.line := by
  have hplaces := Task.places fuel (.statements session.globals statements) hstatements
    session.machine hstore
  rw [Task.run] at hplaces
  obtain ⟨outcome, hends, -, -, rfl⟩ := ends_of_interpret h
  cases outcome with
  | ok completion =>
    rw [Run.Ends] at hends
    rw [hends] at hplaces
    exact ⟨hplaces.1, fun error hmem => by cases hmem⟩
  | error error =>
    rw [Run.Ends] at hends
    rw [hends] at hplaces
    refine ⟨hplaces.1, fun other hmem => ?_⟩
    cases hmem
    exact hplaces.2

/-- At the start of a session no function has a body. -/
theorem placed_start {placed : Nat → Prop} (clock : Clock) (style : Style) :
    (start clock style).machine.store.Placed placed := by
  intro scope found name value hfound hmem
  rw [scopes_start, Array.getElem?_singleton] at hfound
  split at hfound
  case isTrue =>
    cases hfound
    cases List.mem_singleton.1 hmem
    trivial
  case isFalse => cases hfound

theorem tells_start (clock : Clock) (style : Style) :
    Tells [] (start clock style) (start clock style) where
  shown later := by
    have hscopes : (start clock style).machine.store.scopes.map
        (·.mapLines (lineOf (written ([] ++ later)))) =
          (start clock style).machine.store.scopes := by
      simp [scopes_start, Scope.mapLines, Value.mapLines]
    simp only [shown, Lox.shown, Store.mapLines, hscopes]
    rfl
  placed _ := placed_start clock style

section
variable {sources : List Source} {session tracing after : Session}
  (h : Tells sources session tracing)
include h

theorem Tells.withClock (clock : Clock) :
    Tells sources (session.withClock clock) (tracing.withClock clock) where
  shown later := by
    conv_lhs => rw [h.shown later]
    rfl
  placed := h.placed

/-- A run is traced by a run that comes to its end as well, and raises an error where it does. -/
theorem Tells.trace {fuel : Nat} {source : Source} {raised : Option RuntimeError}
    (hinterpret : session.silent.interpret fuel source.statements = .ok (raised, after)) :
    ∃ blame following, tracing.trace fuel sources source = .ok (blame, following) ∧
      blame.map (RuntimeError.mapLines (lineOf (written (sources ++ [source])))) = raised ∧
      (∀ error ∈ blame, MayRaiseAt (written (sources ++ [source])) error.line) ∧
      Tells (sources ++ [source]) after following := by
  have hall (later : List Source) : ∃ blame following,
      tracing.trace fuel sources source = .ok (blame, following) ∧
        blame.map (RuntimeError.mapLines (lineOf (written (sources ++ source :: later)))) = raised ∧
        following.shown (lineOf (written (sources ++ source :: later))) "" = after := by
    obtain ⟨program, -, htraced, hstatements⟩ := exists_traced sources source later
    have hsilent : session.silent =
        tracing.silent.shown (lineOf (written (sources ++ source :: later))) "" := by
      conv_lhs => rw [h.shown (source :: later)]
      rfl
    rw [hsilent, hstatements, ← htraced] at hinterpret
    exact exists_of_interpret_shown hinterpret
  obtain ⟨blame, following, htrace, hraised, -⟩ := hall []
  have hplaced (later : List Source) :
      following.machine.store.Placed (MayRaiseAt (written (sources ++ source :: later))) ∧
        ∀ error ∈ blame, MayRaiseAt (written (sources ++ source :: later)) error.line := by
    have hstore : tracing.silent.machine.store.Placed
        (MayRaiseAt (written (sources ++ source :: later))) := h.placed (source :: later)
    exact placed_of_interpret hstore (allKeep_traced sources source later) htrace
  refine ⟨blame, following, htrace, hraised, (hplaced []).2, fun later => ?_, fun later => ?_⟩
  · obtain ⟨error, final, hfinal, -, hshown⟩ := hall later
    cases htrace.symm.trans hfinal
    rw [List.append_assoc]
    exact hshown.symm
  · rw [List.append_assoc]
    exact (hplaced later).1

end

theorem Traced.tells {sources : List Source} {session tracing : Session}
    (h : Traced sources session tracing) : Tells sources session tracing := by
  induction h with
  | start clock style => exact tells_start clock style
  | @run sources session tracing after fuel source report traced ran ih =>
    obtain ⟨blame, following, htrace, -, -, htells⟩ := ih.trace (interpret_of_run ran)
    rwa [behind, htrace]
  | withClock traced clock ih => exact ih.withClock clock

/-! ### Reports -/

/-- What is shown of an error that was raised at a token of the origin: its line is that of the
token, and the line with this number is marked in the text that was run. In an origin shorter than
`2 ^ 32` bytes this number tells the line of the token. -/
structure Shows (source : Source) (report : RunReport) (error : RuntimeError) (origin : Source)
    (token : Token) : Prop where
  mayRaise : token.kind.mayRaise = true
  line_eq : error.line = token.line
  rendered : report.diagnostics.getLast? = some ((error.diagnostic source.text).render source)
  stands : origin.text.utf8ByteSize < 2 ^ 32 → ∃ (before : List Char) (c : Char) (after : List Char),
    line? origin.text.toList token.line = some (before ++ c :: after) ∧
      token.span.start = (Span.ofLine origin.text.toList token.line).start + byteSize before
  marks : ∀ content ≠ [], line? source.text.toList token.line = some content →
    (error.diagnostic source.text).marked source = String.ofList content
  marks_own : origin.text.utf8ByteSize < 2 ^ 32 → origin = source →
    ∃ content, line? origin.text.toList token.line = some content ∧
      (error.diagnostic source.text).marked source = String.ofList content

theorem getLast?_diagnostics {fuel : Nat} {session after : Session} {source : Source}
    {report : RunReport} {error : RuntimeError}
    (hrun : session.run fuel source = .ok (report, after))
    (herror : report.runtimeError = some error) :
    report.diagnostics.getLast? = some (error.render session.style source) := by
  obtain ⟨program, raised, -, -, rfl⟩ := run_eq_ok hrun
  obtain rfl : raised = some error := herror
  simp

theorem shows_of_line {source origin : Source} {report : RunReport} {error : RuntimeError}
    {token : Token} (hmem : token ∈ origin.tokens) (hkind : token.kind.mayRaise = true)
    (hline : error.line = token.line)
    (hrendered : report.diagnostics.getLast? = some ((error.diagnostic source.text).render source)) :
    Shows source report error origin token := by
  have hnotEnd : token.kind ≠ .eof := by
    intro hend
    rw [hend] at hkind
    cases hkind
  have hmarks (content : List Char) (hne : content ≠ [])
      (hfound : line? source.text.toList token.line = some content) :
      (error.diagnostic source.text).marked source = String.ofList content := by
    rw [← hline] at hfound
    exact Diagnostic.marked_ofLine rfl hfound hne
  refine ⟨hkind, hline, hrendered, fun hsize => Scan.exists_line_of_token hsize hmem hnotEnd, hmarks,
    ?_⟩
  rintro hsize rfl
  obtain ⟨before, c, after, hfound, -⟩ := Scan.exists_line_of_token hsize hmem hnotEnd
  exact ⟨_, hfound, hmarks _ (by simp) hfound⟩

/-- Texts were run in a session of pretty style, and the next one ends with a runtime error. It is
raised at a name, an operator or a closing parenthesis of one of the texts, this one or one that was
run before it, and its line is the line of that token. What the report marks is the line with this
number in the text that was run last, which is the line of the token if it was written there, and if
the lines of that text can all be told by numbers of 32 bits. -/
theorem report_shows_last_text {sources : List Source} {session tracing after : Session}
    (h : Traced sources session tracing) (hstyle : session.style = .pretty) {fuel : Nat}
    {source : Source} {report : RunReport} {error : RuntimeError}
    (hrun : session.run fuel source = .ok (report, after))
    (herror : report.runtimeError = some error) :
    ∃ origin ∈ sources ++ [source], ∃ token ∈ origin.tokens,
      tracing.blamed fuel sources source = some (origin, token) ∧
        Shows source report error origin token := by
  obtain ⟨blame, following, htrace, hraised, hsites, -⟩ := h.tells.trace (interpret_of_run hrun)
  obtain ⟨traced, rfl, hlines⟩ := Option.map_eq_some_iff.1 (hraised.trans herror)
  obtain ⟨⟨origin, token⟩, hentry, hkind⟩ := hsites traced rfl
  obtain ⟨horigin, htoken⟩ := mem_of_mem_written (List.mem_of_getElem? hentry)
  have hline : error.line = token.line := by
    rw [← hlines, RuntimeError.mapLines, lineOf, hentry, Option.elim_some]
  refine ⟨origin, horigin, token, htoken, ?_, shows_of_line htoken hkind hline ?_⟩
  · rw [blamed, htrace]
    exact hentry
  · rw [getLast?_diagnostics hrun herror, hstyle]
    rfl

private def negating : Source := ⟨"first", "fun f() \x7b\n-nil;\n\x7d"⟩

private def innocent : Source := ⟨"second", "f();\nnil;"⟩

private def unused : Session := start { reading := fun _ => 0 } .pretty

/-- What a run of `negating` leaves, with the minus sign on a line. -/
private def lent (line : Nat) : Session :=
  { unused with
    machine := { unused.machine.define 0 "f"
      (.function ⟨1, ⟨"f", 1⟩, [], [.expression ⟨#[.literal .nil, .unary .negate 0 line], 1⟩],
        0⟩) with nextIdentity := 2 } }

/-- The session with the scope that a call at top level opened. -/
private def afterCall (session : Session) : Session :=
  { session with
    machine := { session.machine with store := (session.machine.store.add (some 0)).2 } }

set_option maxRecDepth 20000 in
/-- The function of the first text raises an error when the second text calls it. -/
private theorem traced_negating : ∃ session tracing report after,
    Traced [negating] session tracing ∧ session.style = .pretty ∧
      session.run 9 innocent = .ok (report, after) ∧
      report.runtimeError = some ⟨.notNumber, 2⟩ ∧
      tracing.blamed 9 [negating] innocent = some (negating, ⟨.minus, "-", none, ⟨10, 1⟩, 2⟩) := by
  have hscan : negating.tokens =
      [⟨.keyword .funWord, "fun", none, ⟨0, 3⟩, 1⟩, ⟨.identifier, "f", none, ⟨4, 1⟩, 1⟩,
        ⟨.leftParen, "(", none, ⟨5, 1⟩, 1⟩, ⟨.rightParen, ")", none, ⟨6, 1⟩, 1⟩,
        ⟨.leftBrace, "\x7b", none, ⟨8, 1⟩, 1⟩, ⟨.minus, "-", none, ⟨10, 1⟩, 2⟩,
        ⟨.keyword .nilWord, "nil", none, ⟨11, 3⟩, 2⟩, ⟨.semicolon, ";", none, ⟨14, 1⟩, 2⟩,
        ⟨.rightBrace, "\x7d", none, ⟨16, 1⟩, 3⟩, .atEnd 17 3] := by cbv
  have hscanCalls : innocent.tokens =
      [⟨.identifier, "f", none, ⟨0, 1⟩, 1⟩, ⟨.leftParen, "(", none, ⟨1, 1⟩, 1⟩,
        ⟨.rightParen, ")", none, ⟨2, 1⟩, 1⟩, ⟨.semicolon, ";", none, ⟨3, 1⟩, 1⟩,
        ⟨.keyword .nilWord, "nil", none, ⟨5, 3⟩, 2⟩, ⟨.semicolon, ";", none, ⟨8, 1⟩, 2⟩,
        .atEnd 9 2] := by cbv
  have hprogram : Program.ofTokens (Scan.ofText negating.text).tokens =
      .ok ⟨[some (.funDecl ⟨"f", 1⟩ [] [.expression ⟨#[.literal .nil, .unary .negate 0 2], 1⟩])],
        []⟩ := by
    rw [← Source.tokens, hscan]
    cbv
  have hprogramCalls : Program.ofTokens (Scan.ofText innocent.text).tokens =
      .ok ⟨[some (.expression ⟨#[.var ⟨"f", 1⟩, .call 0 [] 1], 1⟩),
        some (.expression ⟨#[.literal .nil], 0⟩)], []⟩ := by
    rw [← Source.tokens, hscanCalls]
    cbv
  have htraced : negating.traced 0 =
      [.funDecl ⟨"f", 1⟩ [] [.expression ⟨#[.literal .nil, .unary .negate 0 5], 1⟩]] := by
    rw [Source.traced, hscan]
    cbv
  have htracedCalls : innocent.traced 10 =
      [.expression ⟨#[.var ⟨"f", 10⟩, .call 0 [] 12], 1⟩, .expression ⟨#[.literal .nil], 0⟩] := by
    rw [Source.traced, hscanCalls]
    cbv
  have hlength : (written [negating]).length = 10 := by
    simp [written, hscan]
  have hfirst : unused.silent.interpret 9
      [.funDecl ⟨"f", 1⟩ [] [.expression ⟨#[.literal .nil, .unary .negate 0 2], 1⟩]] =
        .ok (none, lent 2) := rfl
  have hbehind : unused.behind 9 [] negating = lent 5 := by
    rw [behind, trace, show (written []).length = 0 from rfl, htraced]
    rfl
  have hsecond : (lent 2).silent.interpret 9
      [.expression ⟨#[.var ⟨"f", 1⟩, .call 0 [] 1], 1⟩, .expression ⟨#[.literal .nil], 0⟩] =
        .ok (some ⟨.notNumber, 2⟩, (lent 2).afterCall) := by cbv
  have htrace : (lent 5).trace 9 [negating] innocent =
      .ok (some ⟨.notNumber, 5⟩, (lent 5).afterCall) := by
    rw [trace, hlength, htracedCalls]
    cbv
  have htracing : Traced [negating] (lent 2) (lent 5) := by
    rw [← hbehind]
    exact .run (.start _ .pretty) (run_of_interpret hprogram hfirst)
  refine ⟨lent 2, lent 5, _, _, htracing, rfl, run_of_interpret hprogramCalls hsecond, rfl, ?_⟩
  rw [blamed, htrace]
  simp [written, hscan]

/-- An error in a function of the first text is shown in the second one. -/
theorem report_shows_last_text_called : ∃ session tracing report after error,
    Traced [negating] session tracing ∧ session.style = .pretty ∧
      session.run 9 innocent = .ok (report, after) ∧ report.runtimeError = some error ∧
      ∃ origin ∈ [negating] ++ [innocent], ∃ token ∈ origin.tokens,
        tracing.blamed 9 [negating] innocent = some (origin, token) ∧
          Shows innocent report error origin token := by
  obtain ⟨session, tracing, report, after, htraced, hstyle, hrun, herror, -⟩ := traced_negating
  exact ⟨session, tracing, report, after, _, htraced, hstyle, hrun, herror,
    report_shows_last_text htraced hstyle hrun herror⟩

/-- What is marked is not the line of the token, but one that has nothing to do with the error. -/
theorem report_shows_other_text : ∃ session tracing report after error token,
    Traced [negating] session tracing ∧ session.style = .pretty ∧
      session.run 9 innocent = .ok (report, after) ∧ report.runtimeError = some error ∧
      tracing.blamed 9 [negating] innocent = some (negating, token) ∧
      line? negating.text.toList token.line = some "-nil;".toList ∧
      (error.diagnostic innocent.text).marked innocent = "nil;" := by
  obtain ⟨session, tracing, report, after, htraced, hstyle, hrun, herror, hblamed⟩ := traced_negating
  have hline : line? innocent.text.toList 2 = some "nil;".toList := by decide
  refine ⟨session, tracing, report, after, _, _, htraced, hstyle, hrun, herror, hblamed, ?_, ?_⟩
  · decide
  · exact Diagnostic.marked_ofLine rfl hline (by simp)

end Session

end Lox
