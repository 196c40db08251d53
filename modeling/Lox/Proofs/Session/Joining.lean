import Mathlib
import Lox.Proofs.Eval.Relabel
import Lox.Proofs.Eval.Returns
import Lox.Proofs.Grammar.Joining
import Lox.Proofs.Session.Meaning

/-!
# Texts run one after the other

Running texts in a session one after the other, the last one aside each without an error, does what
running them as one text does: with line feeds between them they are scanned, parsed and executed
just as they are alone. Only places differ, in what is reported and in the functions that are bound.
-/

namespace Lox

/-- An error that a run of a text reports. -/
inductive Finding where
  | lexical (error : LexicalError)
  | syntactic (error : SyntaxError)
  | raised (error : RuntimeError)

namespace Finding

def render (style : Style) (source : Source) : Finding → String
  | lexical error => error.render style source
  | syntactic error => error.render style source
  | raised error => error.render style source

/-- What was found, wherever it was. -/
def unplaced : Finding → Finding
  | lexical error => lexical { error with span := ⟨0, 0⟩, line := 0 }
  | syntactic error => syntactic (error.relabel .unplaced)
  | raised error => raised (error.mapLines fun _ => 0)

end Finding

namespace Session

/-- A run of the text comes to its end. -/
def Runs (session : Session) (source : Source) (report : RunReport) (after : Session) : Prop :=
  ∃ fuel, session.run fuel source = .ok (report, after)

/-- The texts are run one after the other, each without an error, and print a text. -/
inductive RunsClean : Session → List Source → String → Session → Prop where
  | nil {session : Session} : RunsClean session [] "" session
  | cons {session between after : Session} {source : Source} {rest : List Source}
      {report : RunReport} {printed : String} (runs : session.Runs source report between)
      (compiles : report.hadCompileError = false) (succeeds : report.runtimeError = none)
      (runsClean : RunsClean between rest printed after) :
    RunsClean session (source :: rest) (report.output ++ printed) after

/-- The errors of a run in the order in which they are reported. -/
def findings (source : Source) (report : RunReport) : List Finding :=
  let scan := Scan.ofText source.text
  let program := (Program.ofTokens scan.tokens).toOption
  scan.errors.map .lexical ++ (program.elim [] Program.errors).map .syntactic ++
    report.runtimeError.toList.map .raised

/-- The session with nothing said about lines and about what was printed. -/
def unplaced (session : Session) : Session :=
  { session with
    machine := { session.machine with
      store := session.machine.store.mapLines fun _ => 0
      output := "" } }

/-- A run of the whole text does what a run of its last piece does, behind what was printed
before. -/
structure EndsAlike (printed : String) (piece : Source) (report : RunReport) (after : Session)
    (whole : Source) (joined : RunReport) (final : Session) : Prop where
  output : joined.output = printed ++ report.output
  exitCode : joined.exitCode = report.exitCode
  diagnostics : report.diagnostics = (findings piece report).map (·.render after.style piece)
  diagnosticsWhole : joined.diagnostics = (findings whole joined).map (·.render final.style whole)
  findings :
    (findings whole joined).map Finding.unplaced = (findings piece report).map Finding.unplaced
  runtimeError :
    joined.runtimeError.map RuntimeError.cause = report.runtimeError.map RuntimeError.cause
  session : final.unplaced = after.unplaced

/-! ### Runs -/

/-- What is reported of a program. -/
def reportOf (source : Source) (program : Program) (raised : Option RuntimeError)
    (after : Session) : RunReport where
  output := after.machine.output
  diagnostics :=
    (Scan.ofText source.text).errors.map (·.render after.style source) ++
      program.errors.map (·.render after.style source) ++
      raised.toList.map (·.render after.style source)
  hadCompileError := (Scan.ofText source.text).hasErrors || program.hasErrors
  runtimeError := raised

theorem style_of_interpret {fuel : Nat} {session after : Session} {statements : List Statement}
    {raised : Option RuntimeError} (h : session.interpret fuel statements = .ok (raised, after)) :
    after.style = session.style := by
  obtain ⟨-, -, -, hstyle, -⟩ := ends_of_interpret h
  exact hstyle

theorem runs_iff {session after : Session} {source : Source} {report : RunReport} :
    session.Runs source report after ↔ ∃ program raised fuel,
      Program.ofTokens (Scan.ofText source.text).tokens = .ok program ∧
        session.silent.interpret fuel program.statements = .ok (raised, after) ∧
          report = reportOf source program raised after := by
  constructor
  · rintro ⟨fuel, hrun⟩
    obtain ⟨program, raised, hprogram, hinterpret, rfl⟩ := run_eq_ok hrun
    refine ⟨program, raised, fuel, hprogram, hinterpret, ?_⟩
    rw [reportOf, style_of_interpret hinterpret]
  · rintro ⟨program, raised, fuel, hprogram, hinterpret, rfl⟩
    refine ⟨fuel, ?_⟩
    rw [run_of_interpret hprogram hinterpret, reportOf, style_of_interpret hinterpret]
    rfl

theorem findings_reportOf {source : Source} {program : Program}
    (h : Program.ofTokens (Scan.ofText source.text).tokens = .ok program)
    (raised : Option RuntimeError) (after : Session) :
    findings source (reportOf source program raised after) =
      (Scan.ofText source.text).errors.map .lexical ++ program.errors.map .syntactic ++
        raised.toList.map .raised := by
  simp [findings, h, reportOf, Except.toOption]

theorem diagnostics_reportOf {source : Source} {program : Program}
    (h : Program.ofTokens (Scan.ofText source.text).tokens = .ok program)
    (raised : Option RuntimeError) (after : Session) :
    (reportOf source program raised after).diagnostics =
      (findings source (reportOf source program raised after)).map
        (·.render after.style source) := by
  rw [findings_reportOf h, List.map_append, List.map_append, List.map_map, List.map_map,
    List.map_map]
  rfl

/-! ### Statements behind statements -/

section
variable {session between : Session} {first second : List Statement} (hsound : session.Sound)
  (hfirst : Statement.AllKeep Expression.Legible first)
  (hsecond : Statement.AllKeep Expression.Legible second)
include hsound

theorem exists_interpret_iff {statements : List Statement}
    (hkeep : Statement.AllKeep Expression.Legible statements) {raised : Option RuntimeError}
    {after : Session} : (∃ fuel, session.interpret fuel statements = .ok (raised, after)) ↔
      session.Interprets statements raised after := by
  constructor
  · rintro ⟨fuel, hrun⟩
    exact interprets_of_interpret hsound hkeep hrun
  · intro h
    obtain ⟨fuel, hrun⟩ := (h.eventually hsound hkeep).exists_fuel
    exact ⟨fuel, hrun⟩

include hfirst

/-- Behind statements without a `return` that were run without an error, statements do what they do
in the session that was left. -/
theorem interprets_append_iff (hreturns : Statement.anyReturns first = false)
    (hclean : session.Interprets first none between) {raised : Option RuntimeError}
    {after : Session} :
    session.Interprets (first ++ second) raised after ↔ between.Interprets second raised after := by
  cases hclean with
  | @ended completion middle hall =>
    obtain rfl : completion = .normal := by
      cases completion with
      | normal => rfl
      | returned value =>
        have hreturned := hall.anyReturns_of_returned rfl
        rw [hreturns] at hreturned
        cases hreturned
    -- The first statements come to no other end.
    have hrest {outcome : Outcome Completion} {machine : Machine}
        (h : ExecutesAll session.machine session.globals (first ++ second) outcome machine) :
        ExecutesAll middle session.globals second outcome machine := by
      rcases h.of_append with ⟨other, hother, hbehind⟩ | ⟨hleft, hother⟩
      · obtain ⟨-, rfl⟩ := hall.unique hsound.store hsound.globals_lt hfirst hother
        exact hbehind
      · obtain ⟨rfl, -⟩ := hall.unique hsound.store hsound.globals_lt hfirst hother
        exact absurd rfl hleft
    constructor
    · intro h
      cases h with
      | ended executesAll => exact .ended (hrest executesAll)
      | raised executesAll => exact .raised (hrest executesAll)
    · intro h
      cases h with
      | ended executesAll => exact .ended (hall.append executesAll)
      | raised executesAll => exact .raised (hall.append executesAll)

include hsecond

theorem exists_interpret_append_iff (hreturns : Statement.anyReturns first = false) {fuel : Nat}
    (hclean : session.interpret fuel first = .ok (none, between)) {raised : Option RuntimeError}
    {after : Session} :
    (∃ fuel, session.interpret fuel (first ++ second) = .ok (raised, after)) ↔
      ∃ fuel, between.interpret fuel second = .ok (raised, after) := by
  have hall : Statement.AllKeep Expression.Legible (first ++ second) :=
    List.forall_mem_append.2 ⟨hfirst, hsecond⟩
  rw [exists_interpret_iff hsound hall,
    exists_interpret_iff (hsound.interpret hfirst hclean) hsecond]
  exact interprets_append_iff hsound hfirst hreturns (interprets_of_interpret hsound hfirst hclean)

end

/-! ### Other lines -/

/-- The session with other lines in its store and text in front of what was printed. -/
def shown (line : Nat → Nat) (printed : String) (session : Session) : Session :=
  { session with machine := (Lox.shown line printed).state session.machine }

theorem interpret_shown (line : Nat → Nat) (printed : String) (fuel : Nat) (session : Session)
    (statements : List Statement) :
    (session.shown line printed).interpret fuel (statements.map (Statement.mapLines line)) =
      (session.interpret fuel statements).map fun ending =>
        (ending.1.map (RuntimeError.mapLines line), ending.2.shown line printed) := by
  have hmirror := (Run.allShow line printed fuel).executeAll session.globals statements
    session.machine
  rw [Statement.mapAllLines_eq_map] at hmirror
  simp only [interpret, shown, hmirror]
  cases Run.executeAll fuel session.globals statements session.machine with
  | ok completion machine => rfl
  | error interrupt machine => cases interrupt <;> rfl

section
variable {line : Nat → Nat} {printed : String} {fuel : Nat} {session after : Session}
  {statements others : List Statement} {raised : Option RuntimeError}

theorem exists_of_interpret_shown
    (h : (session.shown line printed).interpret fuel (statements.map (Statement.mapLines line)) =
      .ok (raised, after)) : ∃ error final, session.interpret fuel statements = .ok (error, final) ∧
        error.map (RuntimeError.mapLines line) = raised ∧ final.shown line printed = after := by
  rw [interpret_shown] at h
  cases hfinal : session.interpret fuel statements with
  | error fault => simp [hfinal, Except.map] at h
  | ok ending =>
    obtain ⟨error, final⟩ := ending
    simp only [hfinal, Except.map, Except.ok.injEq, Prod.mk.injEq] at h
    exact ⟨error, final, rfl, h.1, h.2⟩

theorem interpret_eq_fault_of_shown {fault : Fault}
    (h : (session.shown line printed).interpret fuel (statements.map (Statement.mapLines line)) =
      .error fault) : session.interpret fuel statements = .error fault := by
  rw [interpret_shown] at h
  cases hfinal : session.interpret fuel statements with
  | error other =>
    simp only [hfinal, Except.map, Except.error.injEq] at h
    rw [h]
  | ok ending => simp [hfinal, Except.map] at h

/-- Errors that differ in their lines only are of the same sort. -/
theorem causes_eq_of_mapLines {raised error : Option RuntimeError}
    (h : error.map (RuntimeError.mapLines fun _ => 0) =
      raised.map (RuntimeError.mapLines fun _ => 0)) :
    error.map RuntimeError.cause = raised.map RuntimeError.cause := by
  have hcause : RuntimeError.cause ∘ RuntimeError.mapLines (fun _ => 0) = RuntimeError.cause := rfl
  have hkind := congrArg (Option.map RuntimeError.cause) h
  rwa [Option.map_map, Option.map_map, hcause] at hkind

/-- Statements that differ in their lines do the same, whatever was printed before. -/
theorem interpret_of_same_lines
    (hsame : statements.map (Statement.mapLines fun _ => 0) =
      others.map (Statement.mapLines fun _ => 0))
    {earlier : String} {other : Session}
    (hother : session.shown (fun _ => 0) printed = other.shown (fun _ => 0) earlier)
    (h : session.interpret fuel statements = .ok (raised, after)) : ∃ error final,
      other.interpret fuel others = .ok (error, final) ∧
        error.map (RuntimeError.mapLines fun _ => 0) = raised.map (RuntimeError.mapLines fun _ => 0) ∧
          final.shown (fun _ => 0) earlier = after.shown (fun _ => 0) printed := by
  have hshown := interpret_shown (fun _ => 0) printed fuel session statements
  rw [hother, hsame, h] at hshown
  exact exists_of_interpret_shown hshown

end

/-! ### Two texts -/

/-- A text without errors has no `return` that a run of it could come to an end by. -/
theorem anyReturns_eq_false {text : String} {declarations : List (Option Statement)}
    (h : Program.ofTokens (Scan.ofText text).tokens = .ok ⟨declarations, []⟩) :
    Statement.anyReturns (Program.statements ⟨declarations, []⟩) = false := by
  obtain ⟨tokens, ending, htokens, hending, hopen⟩ := Scan.exists_ending text
  rw [htokens] at h
  obtain ⟨statements, rfl, hall⟩ := allListed_of_ofTokens (by simpa [Token.isEnd] using hending)
    (by simpa [Token.isEnd] using hopen) h
  simpa [Program.statements] using hall.anyReturns_eq_false rfl

theorem EndsAlike.of_matches {piece whole : Source} {program other : Program}
    {raised error : Option RuntimeError} {after final : Session} {printed : String}
    (hprogram : Program.ofTokens (Scan.ofText piece.text).tokens = .ok program)
    (hother : Program.ofTokens (Scan.ofText whole.text).tokens = .ok other)
    (hcauses : (Scan.ofText whole.text).errors.map LexicalError.cause =
      (Scan.ofText piece.text).errors.map LexicalError.cause)
    (herrors : other.errors.map (·.relabel .unplaced) = program.errors.map (·.relabel .unplaced))
    (hraised : error.map (RuntimeError.mapLines fun _ => 0) =
      raised.map (RuntimeError.mapLines fun _ => 0))
    (hshown : final.shown (fun _ => 0) "" = after.shown (fun _ => 0) printed) :
    EndsAlike printed piece (reportOf piece program raised after) after whole
      (reportOf whole other error final) final where
  output := by
    have houtput : final.machine.output = printed ++ after.machine.output := by
      simpa [shown, Lox.shown] using congrArg (·.machine.output) hshown
    exact houtput
  exitCode := by
    have hscan := congrArg List.isEmpty hcauses
    have hparse := congrArg List.isEmpty herrors
    have hsome := congrArg Option.isSome hraised
    simp only [List.isEmpty_map, Option.isSome_map] at hscan hparse hsome
    simp [RunReport.exitCode, reportOf, Scan.hasErrors, Program.hasErrors, hscan, hparse, hsome]
  diagnostics := diagnostics_reportOf hprogram raised after
  diagnosticsWhole := diagnostics_reportOf hother error final
  findings := by
    have hlexical (errors : List LexicalError) :
        (errors.map Finding.lexical).map Finding.unplaced =
          (errors.map LexicalError.cause).map fun cause => .lexical ⟨cause, ⟨0, 0⟩, 0⟩ := by
      rw [List.map_map, List.map_map]
      rfl
    have hsyntactic (errors : List SyntaxError) :
        (errors.map Finding.syntactic).map Finding.unplaced =
          (errors.map (·.relabel .unplaced)).map .syntactic := by
      rw [List.map_map, List.map_map]
      rfl
    have hruntime (error : Option RuntimeError) :
        (error.toList.map Finding.raised).map Finding.unplaced =
          (error.map (RuntimeError.mapLines fun _ => 0)).toList.map .raised := by
      cases error <;> rfl
    rw [findings_reportOf hprogram, findings_reportOf hother]
    simp only [List.map_append]
    rw [hlexical, hlexical, hsyntactic, hsyntactic, hruntime, hruntime, hcauses, herrors, hraised]
  runtimeError := causes_eq_of_mapLines hraised
  session := congrArg silent hshown

/-- The whole text runs in a session as its piece runs in the other one, either to an end or not at
all. -/
structure RunsAlike (printed : String) (other : Session) (piece : Source) (session : Session)
    (whole : Source) : Prop where
  of_piece : ∀ {report : RunReport} {after : Session}, other.Runs piece report after →
    ∃ joined final, session.Runs whole joined final ∧
      EndsAlike printed piece report after whole joined final
  of_whole : ∀ {joined : RunReport} {final : Session}, session.Runs whole joined final →
    ∃ report after, other.Runs piece report after ∧
      EndsAlike printed piece report after whole joined final

theorem Sound.runs {session after : Session} {source : Source} {report : RunReport}
    (h : session.Sound) (hruns : session.Runs source report after) : after.Sound := by
  obtain ⟨program, raised, fuel, hprogram, hinterpret, -⟩ := runs_iff.1 hruns
  have hsilent : session.silent.Sound := ⟨h.store, h.globals_lt⟩
  exact hsilent.interpret (Program.allKeep_legible hprogram) hinterpret

/-- Behind a text that was run without an error, a text does what it does when it is run next. -/
theorem runsAlike_of_clean {session between : Session} {piece more whole : Source}
    {report : RunReport} (hsound : session.Sound) (hruns : session.Runs piece report between)
    (hcompiles : report.hadCompileError = false) (hsucceeds : report.runtimeError = none)
    (helse : ¬ OpensElse more.text) (hwhole : whole.text = piece.text ++ "\n" ++ more.text) :
    RunsAlike report.output between more session whole := by
  obtain ⟨⟨declarations, errors⟩, raised, fuel, hprogram, hinterpret, rfl⟩ := runs_iff.1 hruns
  obtain ⟨hscan, hparse⟩ : (Scan.ofText piece.text).errors = [] ∧ errors = [] := by
    simpa [reportOf, Scan.hasErrors, Program.hasErrors] using hcompiles
  subst hparse
  obtain rfl : raised = none := hsucceeds
  obtain ⟨hcauses, result, hjoined, hof, hto⟩ := Program.ofText_joined hscan hprogram helse
  rw [← hwhole] at hcauses hjoined
  have hsilent : session.silent.Sound := ⟨hsound.store, hsound.globals_lt⟩
  have hkeep := Program.allKeep_legible hprogram
  have hsplit (other : Program) :
      Program.statements ⟨declarations ++ other.declarations, other.errors⟩ =
        Program.statements ⟨declarations, []⟩ ++ other.statements := List.filterMap_append
  have hbehind {other : Program}
      (hother : Program.ofTokens (Scan.ofText whole.text).tokens =
        .ok ⟨declarations ++ other.declarations, other.errors⟩)
      {raised : Option RuntimeError} {after : Session} :
      (∃ fuel, session.silent.interpret fuel
          (Program.statements ⟨declarations ++ other.declarations, other.errors⟩) =
            .ok (raised, after)) ↔
        ∃ fuel, between.interpret fuel other.statements = .ok (raised, after) := by
    have hall := Program.allKeep_legible hother
    rw [hsplit] at hall ⊢
    exact exists_interpret_append_iff hsilent hkeep (List.forall_mem_append.1 hall).2
      (anyReturns_eq_false hprogram) hinterpret
  have hshown : between.silent.shown (fun _ => 0) between.machine.output =
      between.shown (fun _ => 0) "" := by
    simp [shown, Lox.shown, silent]
  constructor
  · intro behind after hrun
    obtain ⟨program, raised, most, hfound, hends, rfl⟩ := runs_iff.1 hrun
    obtain ⟨other, rfl, hmatches⟩ := hof program hfound
    obtain ⟨error, final, hfinal, herror, hsame⟩ :=
      interpret_of_same_lines hmatches.symm.statements_eq hshown hends
    obtain ⟨bound, hrunning⟩ := (hbehind hjoined).2 ⟨most, hfinal⟩
    exact ⟨_, final, runs_iff.2 ⟨_, error, bound, hjoined, hrunning, rfl⟩,
      .of_matches hfound hjoined hcauses hmatches.errors_eq herror hsame⟩
  · intro joined final hrun
    obtain ⟨program, error, most, hfound, hends, rfl⟩ := runs_iff.1 hrun
    cases result with
    | error missing =>
      rw [hfound] at hjoined
      cases hjoined
    | ok other =>
      obtain ⟨found, hmore, hmatches⟩ := hto other rfl
      obtain rfl := Except.ok.inj (hfound.symm.trans hjoined)
      obtain ⟨bound, hrunning⟩ := (hbehind hjoined).1 ⟨most, hends⟩
      obtain ⟨raised, after, hafter, herror, hsame⟩ :=
        interpret_of_same_lines hmatches.statements_eq hshown.symm hrunning
      exact ⟨_, after, runs_iff.2 ⟨_, raised, bound, hmore, hafter, rfl⟩,
        .of_matches hmore hjoined hcauses hmatches.errors_eq herror.symm hsame.symm⟩

/-! ### Any number of texts -/

theorem EndsAlike.trans {printed earlier : String} {piece middle whole : Source}
    {report between joined : RunReport} {after halfway final : Session}
    (h : EndsAlike printed piece report after middle between halfway)
    (hnext : EndsAlike earlier middle between halfway whole joined final) :
    EndsAlike (earlier ++ printed) piece report after whole joined final where
  output := by rw [hnext.output, h.output, String.append_assoc]
  exitCode := hnext.exitCode.trans h.exitCode
  diagnostics := h.diagnostics
  diagnosticsWhole := hnext.diagnosticsWhole
  findings := hnext.findings.trans h.findings
  runtimeError := hnext.runtimeError.trans h.runtimeError
  session := hnext.session.trans h.session

theorem RunsAlike.trans {printed earlier : String} {other between session : Session}
    {piece middle whole : Source} (h : RunsAlike printed other piece between middle)
    (hnext : RunsAlike earlier between middle session whole) :
    RunsAlike (earlier ++ printed) other piece session whole where
  of_piece hruns := by
    obtain ⟨report, after, hmiddle, halike⟩ := h.of_piece hruns
    obtain ⟨joined, final, hwhole, hfinal⟩ := hnext.of_piece hmiddle
    exact ⟨joined, final, hwhole, halike.trans hfinal⟩
  of_whole hruns := by
    obtain ⟨report, after, hmiddle, hfinal⟩ := hnext.of_whole hruns
    obtain ⟨joined, final, hpiece, halike⟩ := h.of_whole hmiddle
    exact ⟨joined, final, hpiece, halike.trans hfinal⟩

/-- A text runs alike under another name. -/
theorem runsAlike_of_text {session : Session} {piece whole : Source}
    (h : whole.text = piece.text) : RunsAlike "" session piece session whole := by
  have hends {program : Program} {raised : Option RuntimeError} {after : Session}
      (hprogram : Program.ofTokens (Scan.ofText piece.text).tokens = .ok program) :
      EndsAlike "" piece (reportOf piece program raised after) after whole
        (reportOf whole program raised after) after :=
    .of_matches hprogram (h ▸ hprogram) (by rw [h]) rfl rfl rfl
  constructor
  · intro report after hruns
    obtain ⟨program, raised, fuel, hprogram, hinterpret, rfl⟩ := runs_iff.1 hruns
    exact ⟨_, after, runs_iff.2 ⟨program, raised, fuel, h ▸ hprogram, hinterpret, rfl⟩,
      hends hprogram⟩
  · intro joined final hruns
    obtain ⟨program, raised, fuel, hprogram, hinterpret, rfl⟩ := runs_iff.1 hruns
    rw [h] at hprogram
    exact ⟨_, final, runs_iff.2 ⟨program, raised, fuel, hprogram, hinterpret, rfl⟩,
      hends hprogram⟩

/-- The texts one behind the other, with line feeds between them. -/
def joinTexts (pieces : List Source) : String :=
  "\n".intercalate (pieces.map Source.text)

theorem joinTexts_cons (piece : Source) (rest : List Source) (last : Source) :
    joinTexts (piece :: rest ++ [last]) = piece.text ++ "\n" ++ joinTexts (rest ++ [last]) := by
  rw [joinTexts, List.cons_append, List.map_cons, String.intercalate_cons_of_ne_nil (by simp)]
  rfl

theorem errors_eq_nil_of_runs {session after : Session} {source : Source} {report : RunReport}
    (hruns : session.Runs source report after) (hcompiles : report.hadCompileError = false) :
    (Scan.ofText source.text).errors = [] := by
  obtain ⟨program, raised, fuel, -, -, rfl⟩ := runs_iff.1 hruns
  have hclean : (Scan.ofText source.text).errors = [] ∧ program.errors = [] := by
    simpa [reportOf, Scan.hasErrors, Program.hasErrors] using hcompiles
  exact hclean.1

theorem RunsClean.not_opensElse {session middle : Session} {pieces : List Source}
    {printed : String} (h : session.RunsClean pieces printed middle) {last : Source}
    (helse : ∀ piece ∈ pieces ++ [last], ¬ OpensElse piece.text) :
    ¬ OpensElse (joinTexts (pieces ++ [last])) := by
  induction h with
  | nil => exact helse last List.mem_cons_self
  | cons runs compiles succeeds runsClean ih =>
    rw [joinTexts_cons]
    exact not_opensElse_joined (errors_eq_nil_of_runs runs compiles)
      (helse _ List.mem_cons_self) (ih fun piece hpiece => helse piece (List.mem_cons_of_mem _ hpiece))

theorem RunsClean.runsAlike {session middle : Session} {pieces : List Source} {printed : String}
    (h : session.RunsClean pieces printed middle) (hsound : session.Sound) {last whole : Source}
    (helse : ∀ piece ∈ (pieces ++ [last]).tail, ¬ OpensElse piece.text)
    (hwhole : whole.text = joinTexts (pieces ++ [last])) :
    RunsAlike printed middle last session whole := by
  induction h generalizing whole with
  | nil => exact runsAlike_of_text hwhole
  | @cons session between _ piece rest _ _ runs compiles succeeds runsClean ih =>
    let middle : Source := ⟨whole.name, joinTexts (rest ++ [last])⟩
    have hmiddle : RunsAlike _ _ last between middle := ih (hsound.runs runs)
      (fun piece hpiece => helse piece (List.mem_of_mem_tail hpiece)) rfl
    exact hmiddle.trans (runsAlike_of_clean hsound runs compiles succeeds
      (runsClean.not_opensElse helse) (hwhole.trans (joinTexts_cons piece rest last)))

/-- In a session, texts are run without an error one after the other, and then a last one; or all of
them are run as one text, with line feeds between them. None but the first starts with `else`. Then
the last run and the run of the whole come to an end alike, if they come to one: the same is printed
in all, there are the same errors in the same order but for their places, and the sessions that are
left differ in nothing but lines. -/
theorem runsAlike_joined {session middle : Session} (hsession : session.Reachable)
    {pieces : List Source} {last whole : Source} {printed : String}
    (hclean : session.RunsClean pieces printed middle)
    (helse : ∀ piece ∈ (pieces ++ [last]).tail, ¬ OpensElse piece.text)
    (hwhole : whole.text = "\n".intercalate ((pieces ++ [last]).map Source.text)) :
    RunsAlike printed middle last session whole :=
  hclean.runsAlike hsession.sound helse hwhole

/-- A session in which nothing has happened, with a clock that stands still. -/
private def fresh : Session := start { reading := fun _ => 0 }

private def declaration : Source := ⟨"first", "var x; print x;"⟩

/-- What the declaration leaves. -/
private def bound : Session :=
  { fresh with machine := { fresh.machine.define 0 "x" .nil with output := "nil\n" } }

private def uses : Source := ⟨"second", "print x; // y\nx();"⟩

set_option maxRecDepth 20000 in
/-- What a text binds is there for the next one, in one text as in two. -/
theorem runsAlike_joined_binding : ∃ middle joined final,
    fresh.RunsClean [declaration] "nil\n" middle ∧
      fresh.Runs ⟨"both", "var x; print x;\nprint x; // y\nx();"⟩ joined final ∧
        joined.output = "nil\nnil\n" ∧ joined.exitCode = 70 := by
  have hscan : Scan.ofText declaration.text =
      ⟨[⟨.keyword .varWord, "var", none, ⟨0, 3⟩, 1⟩, ⟨.identifier, "x", none, ⟨4, 1⟩, 1⟩,
        ⟨.semicolon, ";", none, ⟨5, 1⟩, 1⟩, ⟨.keyword .printWord, "print", none, ⟨7, 5⟩, 1⟩,
        ⟨.identifier, "x", none, ⟨13, 1⟩, 1⟩, ⟨.semicolon, ";", none, ⟨14, 1⟩, 1⟩,
        .atEnd 15 1], []⟩ := by cbv
  have hscanUses : Scan.ofText uses.text =
      ⟨[⟨.keyword .printWord, "print", none, ⟨0, 5⟩, 1⟩, ⟨.identifier, "x", none, ⟨6, 1⟩, 1⟩,
        ⟨.semicolon, ";", none, ⟨7, 1⟩, 1⟩, ⟨.identifier, "x", none, ⟨14, 1⟩, 2⟩,
        ⟨.leftParen, "(", none, ⟨15, 1⟩, 2⟩, ⟨.rightParen, ")", none, ⟨16, 1⟩, 2⟩,
        ⟨.semicolon, ";", none, ⟨17, 1⟩, 2⟩, .atEnd 18 2], []⟩ := by cbv
  have hprogram : Program.ofTokens (Scan.ofText declaration.text).tokens =
      .ok ⟨[some (.varDecl ⟨"x", 1⟩ none), some (.print ⟨#[.var ⟨"x", 1⟩], 0⟩)], []⟩ := by
    rw [hscan]
    cbv
  have hprogramUses : Program.ofTokens (Scan.ofText uses.text).tokens =
      .ok ⟨[some (.print ⟨#[.var ⟨"x", 1⟩], 0⟩),
        some (.expression ⟨#[.var ⟨"x", 2⟩, .call 0 [] 2], 1⟩)], []⟩ := by
    rw [hscanUses]
    cbv
  have hfirst : fresh.silent.interpret 9 [.varDecl ⟨"x", 1⟩ none, .print ⟨#[.var ⟨"x", 1⟩], 0⟩] =
      .ok (none, bound) := by cbv
  have hsecond : bound.silent.interpret 9
      [.print ⟨#[.var ⟨"x", 1⟩], 0⟩, .expression ⟨#[.var ⟨"x", 2⟩, .call 0 [] 2], 1⟩] =
        .ok (some ⟨.notCallable, 2⟩, bound) := by cbv
  have hruns := runs_iff.2 ⟨_, none, 9, hprogram, hfirst, rfl⟩
  have hclean : fresh.RunsClean [declaration] "nil\n" bound :=
    .cons hruns (by simp [reportOf, hscan, Scan.hasErrors, Program.hasErrors]) rfl .nil
  have helse : ∀ piece ∈ ([declaration] ++ [uses]).tail, ¬ OpensElse piece.text := by
    simp [OpensElse, hscanUses]
  obtain ⟨joined, final, hjoined, halike⟩ :=
    (runsAlike_joined (.start _ _) hclean helse
      (show Source.text ⟨"both", "var x; print x;\nprint x; // y\nx();"⟩ = _ by decide)).of_piece
      (runs_iff.2 ⟨_, some ⟨.notCallable, 2⟩, 9, hprogramUses, hsecond, rfl⟩)
  refine ⟨bound, joined, final, hclean, hjoined, halike.output, ?_⟩
  rw [halike.exitCode]
  simp [RunReport.exitCode, reportOf, hscanUses, Scan.hasErrors, Program.hasErrors]

end Session

end Lox
