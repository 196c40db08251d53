import Lox.Proofs.Eval.Likeness
import Lox.Proofs.Session.Depth
import Lox.Proofs.Session.Joining
import Lox.Proofs.Session.Termination

/-!
# Layout does not show

Where the tokens of a text stand decides about nothing but the places that are reported. The lines
get into the nodes of a program, into the functions that are bound and into errors, but no step asks
for them. So texts with the same tokens do the same in sessions that no program can tell apart, and
such sessions are left by them.
-/

namespace Lox

namespace Session

/-- No program can tell the sessions apart: lines and what was printed aside, their machines are
alike, and the scopes of the top level stand for each other. -/
def Alike (session other : Session) : Prop :=
  ∃ pairing : Pairing, pairing.line = id ∧
    pairing.Machines session.unplaced.machine other.unplaced.machine ∧
      pairing.scopes session.globals other.globals

/-- The stores are equal up to the lines in them, and the clocks will give the same readings. -/
structure SameStore (session other : Session) : Prop where
  globals_eq : session.globals = other.globals
  store_eq : session.machine.store.mapLines (fun _ => 0) =
    other.machine.store.mapLines fun _ => 0
  reading_eq : ∀ count : Nat,
    session.machine.clock.reading (session.machine.clock.taken + count) =
      other.machine.clock.reading (other.machine.clock.taken + count)

/-- What has been printed in the session when statements were run with the fuel, be it to their end or
not. -/
def outputWithin (fuel : Nat) (session : Session) (statements : List Statement) : String :=
  (finalState (Run.executeAll fuel session.globals statements session.machine)).output

/-- With the fuel, the same is printed in both sessions, behind what was printed before. -/
def PrintAlike (session other : Session) (fuel : Nat) (statements others : List Statement) : Prop :=
  ∃ printed : String, session.outputWithin fuel statements = session.machine.output ++ printed ∧
    other.outputWithin fuel others = other.machine.output ++ printed

/-- What running statements in the one session and in the other one comes to: the same fault, or ends
with the same sort of error or none, behind the same printed text, in sessions that are alike, and
that are equal up to lines if the sessions before were. -/
inductive InterpretedAlike (session other : Session) :
    Except Fault (Option RuntimeError × Session) →
      Except Fault (Option RuntimeError × Session) → Prop where
  | fault (fault : Fault) : InterpretedAlike session other (.error fault) (.error fault)
  | ended {raised error : Option RuntimeError} {after final : Session}
      (output : ∃ printed : String, after.machine.output = session.machine.output ++ printed ∧
        final.machine.output = other.machine.output ++ printed)
      (cause_eq : raised.map RuntimeError.cause = error.map RuntimeError.cause)
      (alike : after.Alike final)
      (unplaced_eq : session.unplaced = other.unplaced → after.unplaced = final.unplaced) :
    InterpretedAlike session other (.ok (raised, after)) (.ok (error, final))

/-- What running texts in the one session and in the other one comes to, likewise. -/
inductive RanAlike (session other : Session) :
    Except Failure (RunReport × Session) → Except Failure (RunReport × Session) → Prop where
  | fault (fault : Fault) : RanAlike session other (.error (.fault fault)) (.error (.fault fault))
  | ended {report joined : RunReport} {after final : Session}
      (output_eq : report.output = joined.output)
      (cause_eq : report.runtimeError.map RuntimeError.cause =
        joined.runtimeError.map RuntimeError.cause)
      (alike : after.Alike final)
      (unplaced_eq : session.unplaced = other.unplaced → after.unplaced = final.unplaced) :
    RanAlike session other (.ok (report, after)) (.ok (joined, final))

/-! ### Sessions with the same store -/

/-- Identities that were taken are the same, and those that will be taken stand for each other. -/
def Supplied (supply other identity beside : Nat) : Prop :=
  identity = beside ∧ identity < supply ∧ identity < other ∨
    ∃ count, identity = supply + count ∧ beside = other + count

theorem biUnique_supplied (supply other : Nat) : Relator.BiUnique (Supplied supply other) := by
  constructor
  · rintro first second beside (⟨hfirst, hlt⟩ | ⟨count, hfirst, hlt⟩)
      (⟨hsecond, hless⟩ | ⟨more, hsecond, hless⟩) <;> omega
  · rintro identity first second (⟨hfirst, hlt⟩ | ⟨count, hfirst, hlt⟩)
      (⟨hsecond, hless⟩ | ⟨more, hsecond, hless⟩) <;> omega

/-- Scopes and callables are the same, and the functions that will be declared are paired. -/
def suppliesPaired (supply other : Nat) : Pairing where
  scopes := Eq
  natives := Eq
  functions := Supplied supply other
  line := id
  scopes_biUnique := Pairing.biUnique_eq
  natives_biUnique := Pairing.biUnique_eq
  functions_biUnique := biUnique_supplied supply other

theorem values_suppliesPaired {supply other : Nat} {value : Value}
    (h : ∀ declared, value = .function declared →
      declared.identity < supply ∧ declared.identity < other) :
    (suppliesPaired supply other).Values value value := by
  cases value with
  | nil => exact .nil
  | bool value => exact .bool value
  | number value => exact .number value
  | text value => exact .text value
  | native identity which => exact .native rfl
  | function declared =>
    have hvalues : (suppliesPaired supply other).Values
        (.function ⟨declared.identity, declared.name, declared.parameters, declared.body,
          declared.closure⟩)
        (.function ⟨declared.identity, declared.name.mapLines id,
          declared.parameters.map (·.mapLines id), Statement.mapAllLines id declared.body,
          declared.closure⟩) := .function (.inl ⟨rfl, h declared rfl⟩) rfl
    simpa [Identifier.mapLines_id, Statement.mapAllLines_id] using hvalues

theorem Charted.identity_lt {session : Session} (h : session.Charted) {scope : ScopeId}
    {found : Scope} {name : String} {declared : Function}
    (hfound : session.unplaced.machine.store.scopes[scope]? = some found)
    (hvalue : found.value? name = some (.function declared)) :
    declared.identity < session.machine.nextIdentity := by
  obtain ⟨stage, chronicle, -, -, hfits⟩ := h
  have hmapped : (session.machine.store.scopes.map (Scope.mapLines fun _ => 0))[scope]? =
      some found := hfound
  rw [Array.getElem?_map] at hmapped
  obtain ⟨inner, hinner, rfl⟩ := Option.map_eq_some_iff.1 hmapped
  rw [Scope.value?_mapLines] at hvalue
  obtain ⟨value, hbound, heq⟩ := Option.map_eq_some_iff.1 hvalue
  cases value with
  | function bound =>
    cases heq
    exact (hfits.knows hinner (Scope.mem_of_value? hbound)).1
  | _ => cases heq

/-- Wherever they came from, sessions with the same store are alike. -/
theorem SameStore.alike {session other : Session} (h : session.SameStore other)
    (hsession : session.Reachable) (hother : other.Reachable) : session.Alike other := by
  let pairing := suppliesPaired session.machine.nextIdentity other.machine.nextIdentity
  have hstore : session.unplaced.machine.store = other.unplaced.machine.store := h.store_eq
  have hvalues {scope : ScopeId} {found : Scope}
      (hfound : session.unplaced.machine.store.scopes[scope]? = some found) (name : String) :
      Option.Rel pairing.Values (found.value? name) (found.value? name) := by
    cases hvalue : found.value? name with
    | none => exact .none
    | some value =>
      refine .some (values_suppliesPaired fun declared hdeclared => ?_)
      subst hdeclared
      exact ⟨hsession.charted.identity_lt hfound hvalue,
        hother.charted.identity_lt (hstore ▸ hfound) hvalue⟩
  have hstores : pairing.Stores session.unplaced.machine.store other.unplaced.machine.store := by
    rw [← hstore]
    refine ⟨fun {scope beside} hscope => ?_, fun _ => rfl⟩
    obtain rfl : scope = beside := hscope
    cases hfound : session.unplaced.machine.store.scopes[scope]? with
    | none => exact .none
    | some found =>
      refine .some ⟨?_, hvalues hfound⟩
      cases found.parent with
      | none => exact .none
      | some parent => exact .some ⟨rfl, Iff.rfl⟩
  exact ⟨pairing, rfl, {
    stores := hstores
    supply := fun count => .inr ⟨count, rfl, rfl⟩
    callDepth_eq := hsession.callDepth_eq_zero.trans hother.callDepth_eq_zero.symm
    reading_eq := h.reading_eq }, h.globals_eq⟩

/-! ### Running statements -/

/-- The same statements in machines that are alike print the same, and they have the same fault, or
end with the same error or none in machines that are alike. -/
theorem interpret_of_machines {pairing : Pairing} (hline : pairing.line = id)
    {earlier before : String} {session other : Session}
    (hmachines : pairing.MachinesBehind earlier before session.machine other.machine)
    (hglobals : pairing.scopes session.globals other.globals) (fuel : Nat)
    (statements : List Statement) :
    (∃ printed, session.outputWithin fuel statements = earlier ++ printed ∧
        other.outputWithin fuel statements = before ++ printed) ∧
      ((∃ fault, session.interpret fuel statements = .error fault ∧
          other.interpret fuel statements = .error fault) ∨
        ∃ raised after final, session.interpret fuel statements = .ok (raised, after) ∧
          other.interpret fuel statements = .ok (raised, final) ∧
            pairing.MachinesBehind earlier before after.machine final.machine ∧
              pairing.scopes after.globals final.globals) := by
  have hall := (pairing.allRelate (pairing.respects_machinesBehind earlier before)
    fuel).executeAll hglobals statements
  rw [hline, Statement.mapAllLines_id] at hall
  have hending := hall _ _ hmachines
  rw [interpret, interpret, outputWithin, outputWithin]
  generalize Run.executeAll fuel session.globals statements session.machine = ending,
    Run.executeAll fuel other.globals statements other.machine = image at hending
  cases hending with
  | ok hyields hleaves => exact ⟨hleaves.output, .inr ⟨_, _, _, rfl, rfl, hleaves, hglobals⟩⟩
  | error hinterrupts hleaves =>
    refine ⟨hleaves.output, ?_⟩
    cases hinterrupts with
    | fault fault => exact .inl ⟨fault, rfl, rfl⟩
    | raised cause place =>
      rw [hline]
      exact .inr ⟨_, _, _, rfl, rfl, hleaves, hglobals⟩

theorem outputWithin_shown (line : Nat → Nat) (printed : String) (fuel : Nat) (session : Session)
    (statements : List Statement) :
    (session.shown line printed).outputWithin fuel (statements.map (Statement.mapLines line)) =
      printed ++ session.outputWithin fuel statements := by
  have hmirror := (Run.allShow line printed fuel).executeAll session.globals statements
    session.machine
  rw [Statement.mapAllLines_eq_map] at hmirror
  rw [outputWithin, shown, hmirror, View.finalState_result]
  rfl

/-- What was printed before makes no difference. -/
theorem exists_interpret_silent {fuel : Nat} {session after : Session} {statements : List Statement}
    {raised : Option RuntimeError} (h : session.interpret fuel statements = .ok (raised, after)) :
    ∃ error final, session.silent.interpret fuel statements = .ok (error, final) ∧
      final.unplaced = after.unplaced := by
  have hsilent : session.shown (fun _ => 0) "" =
      session.silent.shown (fun _ => 0) session.machine.output := by
    simp [shown, Lox.shown, silent]
  obtain ⟨error, final, hfinal, -, hshown⟩ := interpret_of_same_lines rfl hsilent h
  exact ⟨error, final, hfinal, congrArg silent hshown⟩

/-- Sessions that are equal up to lines are left equal up to lines. -/
theorem unplaced_of_interpret {fuel : Nat} {session other after final : Session}
    {statements others : List Statement} {raised error : Option RuntimeError}
    (hsame : statements.map (Statement.mapLines fun _ => 0) =
      others.map (Statement.mapLines fun _ => 0))
    (hunplaced : session.unplaced = other.unplaced)
    (h : session.interpret fuel statements = .ok (raised, after))
    (hother : other.interpret fuel others = .ok (error, final)) :
    after.unplaced = final.unplaced := by
  obtain ⟨_, left, hleft, hafter⟩ := exists_interpret_silent h
  obtain ⟨_, right, hright, hfinal⟩ := exists_interpret_silent hother
  have hsilent : session.silent.shown (fun _ => 0) "" = other.silent.shown (fun _ => 0) "" :=
    hunplaced
  obtain ⟨_, beside, hbeside, -, hshown⟩ := interpret_of_same_lines hsame hsilent hleft
  rw [hright] at hbeside
  cases hbeside
  rw [← hafter, ← hfinal]
  exact (congrArg silent hshown).symm

theorem Alike.interpret {session other : Session} (h : session.Alike other)
    {statements others : List Statement}
    (hsame : statements.map (Statement.mapLines fun _ => 0) =
      others.map (Statement.mapLines fun _ => 0)) (fuel : Nat) :
    PrintAlike session other fuel statements others ∧
      InterpretedAlike session other (session.interpret fuel statements)
        (other.interpret fuel others) := by
  -- With no lines in them the sessions run the same statements, in machines that are alike.
  obtain ⟨pairing, hline, hmachines, hglobals⟩ := h
  have hbehind : pairing.MachinesBehind session.machine.output other.machine.output
      (session.shown (fun _ => 0) "").machine (other.shown (fun _ => 0) "").machine :=
    ⟨⟨hmachines.stores, hmachines.supply, hmachines.callDepth_eq, hmachines.reading_eq⟩,
      ⟨"", by simp [shown, Lox.shown]⟩⟩
  obtain ⟨hprint, hending⟩ := interpret_of_machines hline hbehind hglobals fuel
    (statements.map (Statement.mapLines fun _ => 0))
  constructor
  · rw [outputWithin_shown, hsame, outputWithin_shown] at hprint
    simpa [PrintAlike] using hprint
  rcases hending with
    ⟨fault, hfirst, hsecond⟩ | ⟨raised, _, _, hfirst, hsecond, hleaves, hbeside⟩
  · rw [hsame] at hsecond
    rw [interpret_eq_fault_of_shown hfirst, interpret_eq_fault_of_shown hsecond]
    exact .fault fault
  · rw [hsame] at hsecond
    obtain ⟨error, after, hafter, hraised, rfl⟩ := exists_of_interpret_shown hfirst
    obtain ⟨found, final, hfinal, rfl, rfl⟩ := exists_of_interpret_shown hsecond
    rw [hafter, hfinal]
    refine .ended ?_ (causes_eq_of_mapLines hraised) ⟨pairing, hline, ?_, hbeside⟩
      fun hunplaced => unplaced_of_interpret hsame hunplaced hafter hfinal
    · simpa [shown, Lox.shown] using hleaves.output
    · exact ⟨hleaves.stores, hleaves.supply, hleaves.callDepth_eq, hleaves.reading_eq⟩

/-! ### Running texts -/

theorem run_of_fault {fuel : Nat} {session : Session} {source : Source} {program : Program}
    {fault : Fault} (hprogram : Program.ofTokens (Scan.ofText source.text).tokens = .ok program)
    (h : session.silent.interpret fuel program.statements = .error fault) :
    session.run fuel source = .error (.fault fault) := by
  have hfresh : interpret fuel { session with machine := { session.machine with output := "" } }
      program.statements = .error fault := h
  simp [run, hprogram, hfresh, bind, Except.bind, pure, Except.pure, Except.mapError]

theorem Alike.run {session other : Session} (h : session.Alike other) {source text : Source}
    (hsame : (Scan.ofText source.text).tokens.map Token.unplaced =
      (Scan.ofText text.text).tokens.map Token.unplaced) (fuel : Nat) :
    PrintAlike session.silent other.silent fuel source.statements text.statements ∧
      RanAlike session other (session.run fuel source) (other.run fuel text) := by
  obtain ⟨tokens, ending, htokens, hending, -⟩ := Scan.exists_ending source.text
  obtain ⟨program, hprogram, hstatements⟩ := source.exists_ofTokens
  obtain ⟨image, himage, hmatches⟩ :=
    Program.exists_matches hsame ⟨ending, by simp [htokens], hending⟩ hprogram
  have hsilent : session.silent.Alike other.silent := h
  obtain ⟨hprint, hinterpreted⟩ := hsilent.interpret hmatches.symm.statements_eq fuel
  have hothers : text.statements = image.statements := by rw [Source.statements, himage]
  refine ⟨by rwa [hstatements, hothers], ?_⟩
  cases hfirst : session.silent.interpret fuel program.statements with
  | error fault =>
    rw [hfirst] at hinterpreted
    generalize hsecond : other.silent.interpret fuel image.statements = ending at hinterpreted
    cases hinterpreted
    rw [run_of_fault hprogram hfirst, run_of_fault himage hsecond]
    exact .fault fault
  | ok result =>
    obtain ⟨raised, after⟩ := result
    rw [hfirst] at hinterpreted
    generalize hsecond : other.silent.interpret fuel image.statements = ending at hinterpreted
    cases hinterpreted with
    | ended houtput hcause halike hunplaced =>
      rw [run_of_interpret hprogram hfirst, run_of_interpret himage hsecond]
      obtain ⟨printed, hprinted, hother⟩ := houtput
      exact .ended (hprinted.trans hother.symm) hcause halike hunplaced

/-- Layout does not show. Sessions with stores that are equal up to lines, and with the same readings
ahead, are alike, whatever was run in them. Tokens up to an end that agree in kinds, lexemes and
values, wherever they stand, are read as programs that are equal up to lines, with errors that are
equal up to the places of their tokens. However far these programs are run in sessions that are
alike, they print the same; they come to the same sort of end, and leave the sessions alike. So texts
with the same tokens, whatever is between these, print the same. -/
theorem layout_never_shows :
    (∀ {session other : Session}, session.Reachable → other.Reachable → session.SameStore other →
      session.Alike other) ∧
    (∀ {tokens others : List Token}, tokens.getLast?.map Token.kind = some .eof →
      (∀ token ∈ tokens, token.Valued) → tokens.map Token.unplaced = others.map Token.unplaced →
        ∃ program image, Program.ofTokens tokens = .ok program ∧ Program.ofTokens others = .ok image ∧
          program.Matches image ∧
            ∀ {session other : Session}, session.Alike other → ∀ fuel : Nat,
              PrintAlike session other fuel program.statements image.statements ∧
                InterpretedAlike session other (session.interpret fuel program.statements)
                  (other.interpret fuel image.statements)) ∧
    ∀ {source text : Source}, (Scan.ofText source.text).tokens.map Token.unplaced =
        (Scan.ofText text.text).tokens.map Token.unplaced →
      ∀ {session other : Session}, session.Alike other → ∀ fuel : Nat,
        PrintAlike session.silent other.silent fuel source.statements text.statements ∧
          RanAlike session other (session.run fuel source) (other.run fuel text) := by
  refine ⟨fun hsession hother hsame => hsame.alike hsession hother, ?_,
    fun hsame _ _ halike fuel => halike.run hsame fuel⟩
  intro tokens others hlast hvalued hsame
  obtain ⟨ending, hending, hkind⟩ := Option.map_eq_some_iff.1 hlast
  obtain ⟨program, hprogram⟩ := Program.exists_ofTokens hvalued
  obtain ⟨image, himage, hmatches⟩ := Program.exists_matches hsame
    ⟨ending, List.mem_of_getLast? hending, by simp [Token.isEnd, hkind]⟩ hprogram
  exact ⟨program, image, hprogram, himage, hmatches.symm,
    fun halike fuel => halike.interpret hmatches.symm.statements_eq fuel⟩

private def redefining : Source := ⟨"redefining", "fun f() \x7b\x7d var f;"⟩

private def defining : Source := ⟨"defining", "var f;"⟩

/-- A session in which a variable is bound to nothing, and so many identities were taken. -/
private def holding (supply : Nat) : Session :=
  let before := start { reading := fun _ => 0 }
  { before with machine := { before.machine.define 0 "f" .nil with nextIdentity := supply } }

private def terse : Source := ⟨"terse", "print f;"⟩

private def airy : Source := ⟨"airy", "// nothing is bound\nprint\n  f ;"⟩

set_option maxRecDepth 20000 in
/-- A comment and line feeds do not show, nor does it that a function was bound before. -/
theorem layout_never_shows_comment : (holding 2).Reachable ∧ (holding 1).Reachable ∧
    (holding 2).SameStore (holding 1) ∧ ∃ report after joined final,
      (holding 2).run 9 terse = .ok (report, after) ∧
        (holding 1).run 9 airy = .ok (joined, final) ∧
          joined.output = "nil\n" ∧ joined.runtimeError = none ∧ after.Alike final := by
  have hscanned : Scan.ofText redefining.text =
      ⟨[⟨.keyword .funWord, "fun", none, ⟨0, 3⟩, 1⟩, ⟨.identifier, "f", none, ⟨4, 1⟩, 1⟩,
        ⟨.leftParen, "(", none, ⟨5, 1⟩, 1⟩, ⟨.rightParen, ")", none, ⟨6, 1⟩, 1⟩,
        ⟨.leftBrace, "\x7b", none, ⟨8, 1⟩, 1⟩, ⟨.rightBrace, "\x7d", none, ⟨9, 1⟩, 1⟩,
        ⟨.keyword .varWord, "var", none, ⟨11, 3⟩, 1⟩, ⟨.identifier, "f", none, ⟨15, 1⟩, 1⟩,
        ⟨.semicolon, ";", none, ⟨16, 1⟩, 1⟩, .atEnd 17 1], []⟩ := by cbv
  have hscan : Scan.ofText defining.text =
      ⟨[⟨.keyword .varWord, "var", none, ⟨0, 3⟩, 1⟩, ⟨.identifier, "f", none, ⟨4, 1⟩, 1⟩,
        ⟨.semicolon, ";", none, ⟨5, 1⟩, 1⟩, .atEnd 6 1], []⟩ := by cbv
  have hterse : Scan.ofText terse.text =
      ⟨[⟨.keyword .printWord, "print", none, ⟨0, 5⟩, 1⟩, ⟨.identifier, "f", none, ⟨6, 1⟩, 1⟩,
        ⟨.semicolon, ";", none, ⟨7, 1⟩, 1⟩, .atEnd 8 1], []⟩ := by cbv
  have hairy : Scan.ofText airy.text =
      ⟨[⟨.keyword .printWord, "print", none, ⟨20, 5⟩, 2⟩, ⟨.identifier, "f", none, ⟨28, 1⟩, 3⟩,
        ⟨.semicolon, ";", none, ⟨30, 1⟩, 3⟩, .atEnd 31 3], []⟩ := by cbv
  have hredefines : Program.ofTokens (Scan.ofText redefining.text).tokens =
      .ok ⟨[some (.funDecl ⟨"f", 1⟩ [] []), some (.varDecl ⟨"f", 1⟩ none)], []⟩ := by
    rw [hscanned]
    cbv
  have hdefines : Program.ofTokens (Scan.ofText defining.text).tokens =
      .ok ⟨[some (.varDecl ⟨"f", 1⟩ none)], []⟩ := by
    rw [hscan]
    cbv
  have hprints : Program.ofTokens (Scan.ofText terse.text).tokens =
      .ok ⟨[some (.print ⟨#[.var ⟨"f", 1⟩], 0⟩)], []⟩ := by
    rw [hterse]
    cbv
  have htwice : (start { reading := fun _ => 0 }).silent.interpret 9
      [.funDecl ⟨"f", 1⟩ [] [], .varDecl ⟨"f", 1⟩ none] = .ok (none, holding 2) := rfl
  have honce : (start { reading := fun _ => 0 }).silent.interpret 9 [.varDecl ⟨"f", 1⟩ none] =
      .ok (none, holding 1) := rfl
  have hrun : (holding 2).silent.interpret 9 [.print ⟨#[.var ⟨"f", 1⟩], 0⟩] =
      .ok (none, { holding 2 with machine := { (holding 2).machine with output := "nil\n" } }) := by
    cbv
  have hfirst : (holding 2).Reachable := .run (.start _ _) (run_of_interpret hredefines htwice)
  have hsecond : (holding 1).Reachable := .run (.start _ _) (run_of_interpret hdefines honce)
  have hstore : (holding 2).SameStore (holding 1) := ⟨rfl, rfl, fun _ => rfl⟩
  have htokens : (Scan.ofText terse.text).tokens.map Token.unplaced =
      (Scan.ofText airy.text).tokens.map Token.unplaced := by
    rw [hterse, hairy]
    rfl
  have halike := layout_never_shows.1 hfirst hsecond hstore
  have hran := (layout_never_shows.2.2 htokens halike 9).2
  rw [run_of_interpret hprints hrun] at hran
  generalize (holding 1).run 9 airy = ending at hran ⊢
  cases hran with
  | ended houtput hcause hafter =>
    exact ⟨hfirst, hsecond, hstore, _, _, _, _, run_of_interpret hprints hrun, rfl,
      houtput.symm, Option.map_eq_none_iff.1 hcause.symm, hafter⟩

end Session

end Lox
