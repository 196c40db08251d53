import Mathlib
import Lox.Proofs.Eval.Lexical
import Lox.Proofs.Session.Meaning

/-!
# Scopes in sessions

A chronicle can be kept over all the texts that are run in a session. It is right when the session
starts and every run leaves it right, so at every moment of any run the scopes nest as the blocks and
the bodies of functions do in the text that is run, or in the one that a called function is from.
-/

namespace Lox

/-- In parsed programs, no declaration is a branch or the body of a loop. -/
theorem Statement.closed_orderly : Closed (fun _ => True)
    (fun statement => statement.isDeclaration = false ∧ statement.Orderly) Orderly where
  varDecl _ := .varDecl
  funDecl := .funDecl
  expression _ := ⟨rfl, .expression⟩
  print _ := ⟨rfl, .print⟩
  returnWith _ := ⟨rfl, .returnWith⟩
  block h := ⟨rfl, .block h⟩
  ifThen _ hsuccess := ⟨rfl, .ifThen hsuccess.1 hsuccess.2⟩
  ifElse _ hsuccess hfailure := ⟨rfl, .ifElse hsuccess.1 hsuccess.2 hfailure.1 hfailure.2⟩
  whileLoop _ hbody := ⟨rfl, .whileLoop hbody.1 hbody.2⟩
  entry := And.right

theorem Program.orderly_of_ofTokens {tokens : List Token} {program : Program}
    (h : Program.ofTokens tokens = .ok program) :
    ∀ statement ∈ program.statements, statement.Orderly :=
  forall_mem_statements Statement.closed_orderly trivial
    (fun _ hle => (Grammar.yields_expression hle).mono fun _ _ => trivial) h

/-- The statements that a text is parsed to; none where it cannot be run. -/
def Source.statements (source : Source) : List Statement :=
  match Program.ofTokens (Scan.ofText source.text).tokens with
  | .ok program => program.statements
  | .error _ => []

theorem Source.orderly_of_mem_statements (source : Source) :
    ∀ statement ∈ source.statements, statement.Orderly := by
  rw [statements]
  split
  · exact Program.orderly_of_ofTokens ‹_›
  · simp

namespace Session

/-- A run of a text runs its statements, with nothing printed yet. -/
theorem interpret_of_run {fuel : Nat} {session after : Session} {source : Source}
    {report : RunReport} (h : session.run fuel source = .ok (report, after)) :
    session.silent.interpret fuel source.statements = .ok (report.runtimeError, after) := by
  obtain ⟨program, raised, hprogram, hinterpret, rfl⟩ := run_eq_ok h
  have hstatements : source.statements = program.statements := by rw [Source.statements, hprogram]
  rw [hstatements]
  exact hinterpret

/-- Runs a text under watch, with a chronicle of what was run before it. -/
def watch (fuel : Nat) (session : Session) (chronicle : Chronicle) (source : Source) :
    EStateM.Result Interrupt Watched Completion :=
  Watch.executeAll fuel [] session.globals source.statements
    { chronicle with machine := session.silent.machine }

/-- The texts were run one after the other, from the start of a session up to this state of it, and
all that time the chronicle was kept. The clock may have been changed between any two of them. -/
inductive Past : List Source → Session → Chronicle → Prop where
  | start (clock : Clock) (style : Style) : Past [] (start clock style) {}
  | run {sources : List Source} {session after : Session} {chronicle : Chronicle} {fuel : Nat}
      {source : Source} {report : RunReport} (past : Past sources session chronicle)
      (ran : session.run fuel source = .ok (report, after)) :
      Past (sources ++ [source]) after
        (finalState (session.watch fuel chronicle source)).toChronicle
  | withClock {sources : List Source} {session : Session} {chronicle : Chronicle}
      (past : Past sources session chronicle) (clock : Clock) :
      Past sources (session.withClock clock) chronicle

/-- The programs of the texts that were run in the session. -/
def stage (sources : List Source) (session : Session) : Stage where
  programs := sources.map Source.statements
  globals := session.globals

theorem orderly_stage (sources : List Source) (session : Session) :
    (stage sources session).Orderly := by
  intro program hprogram
  obtain ⟨source, -, rfl⟩ := List.mem_map.1 hprogram
  exact source.orderly_of_mem_statements

/-- A run under watch is the run. -/
theorem executeAll_eq_watch (fuel : Nat) (session : Session) (chronicle : Chronicle)
    (source : Source) :
    Run.executeAll fuel session.globals source.statements session.silent.machine =
      Watch.machineOnly.result id (session.watch fuel chronicle source) :=
  (Watch.allErase fuel).executeAll [] session.globals source.statements
    { chronicle with machine := session.silent.machine }

theorem scopes_start (clock : Clock) (style : Style) :
    (start clock style).machine.store.scopes =
      #[⟨none, [(Native.clock.name, .native 0 .clock)]⟩] := rfl

theorem fits_start (clock : Clock) (style : Style) :
    (stage [] (start clock style)).Fits {} (start clock style).machine where
  length_eq := rfl
  outermost := rfl
  placed {scope found around} hfound hopened := by
    rw [scopes_start, Array.getElem?_singleton] at hfound
    split at hfound
    case isTrue hzero =>
      cases hfound
      cases hzero
      cases hopened
      exact ⟨List.forall_mem_singleton.2 (List.mem_append_left _ List.mem_cons_self), rfl, rfl⟩
    case isFalse => cases hfound
  knows {scope found name value} hfound hmem := by
    rw [scopes_start, Array.getElem?_singleton] at hfound
    split at hfound
    case isTrue =>
      cases hfound
      cases List.mem_singleton.1 hmem
      trivial
    case isFalse => cases hfound

theorem sound_watch {sources : List Source} {session : Session} {chronicle : Chronicle}
    (h : (stage sources session).Fits chronicle session.machine) (fuel : Nat) (source : Source) :
    (stage (sources ++ [source]) session).Sound
      (finalState (session.watch fuel chronicle source)) := by
  have hfits : (stage (sources ++ [source]) session).Fits chronicle session.silent.machine := by
    rw [stage, List.map_append]
    exact (h.more _).of_eq rfl rfl
  exact hfits.sound_executeAll (orderly_stage (sources ++ [source]) session)
    (List.mem_map_of_mem (List.mem_append_right _ List.mem_cons_self)) fuel

theorem finalState_of_interpret {fuel : Nat} {session after : Session} {statements : List Statement}
    {raised : Option RuntimeError}
    (h : session.interpret fuel statements = .ok (raised, after)) :
    finalState (Run.executeAll fuel session.globals statements session.machine) = after.machine := by
  obtain ⟨outcome, hends, -⟩ := ends_of_interpret h
  cases outcome with
  | ok completion => exact congrArg finalState hends
  | error error => exact congrArg finalState hends

/-- The watched run comes to the state that the run comes to. -/
theorem machine_watch {fuel : Nat} {session after : Session} {source : Source} {report : RunReport}
    (hrun : session.run fuel source = .ok (report, after)) (chronicle : Chronicle) :
    after.machine = (finalState (session.watch fuel chronicle source)).machine ∧
      after.globals = session.globals := by
  obtain ⟨-, -, hglobals, -⟩ := ends_of_interpret (interpret_of_run hrun)
  have hfinal : finalState (Run.executeAll fuel session.globals source.statements
      session.silent.machine) = after.machine := finalState_of_interpret (interpret_of_run hrun)
  rw [executeAll_eq_watch fuel session chronicle source, View.finalState_result] at hfinal
  exact ⟨hfinal.symm, hglobals⟩

theorem Past.fits {sources : List Source} {session : Session} {chronicle : Chronicle}
    (h : Past sources session chronicle) :
    (stage sources session).Fits chronicle session.machine := by
  induction h with
  | start clock style => exact fits_start clock style
  | @run sources session after chronicle fuel source report past ran ih =>
    obtain ⟨hmachine, hglobals⟩ := machine_watch ran chronicle
    have hsound := sound_watch ih fuel source
    rw [stage, hglobals, hmachine]
    exact hsound.fits
  | withClock past clock ih => exact ih.of_eq rfl rfl

/-- A chronicle can be kept that is right about the session, whatever is run in it. -/
def Charted (session : Session) : Prop :=
  ∃ (stage : Stage) (chronicle : Chronicle), stage.globals = session.globals ∧ stage.Orderly ∧
    stage.Fits chronicle session.machine

theorem Charted.silent {session : Session} (h : session.Charted) : session.silent.Charted := by
  obtain ⟨stage, chronicle, hglobals, horderly, hfits⟩ := h
  exact ⟨stage, chronicle, hglobals, horderly, hfits.of_eq rfl rfl⟩

theorem Charted.interpret {session after : Session} (h : session.Charted) {tokens : List Token}
    {program : Program} (hprogram : Program.ofTokens tokens = .ok program) {fuel : Nat}
    {raised : Option RuntimeError}
    (hrun : session.interpret fuel program.statements = .ok (raised, after)) : after.Charted := by
  obtain ⟨stage, chronicle, hglobals, horderly, hfits⟩ := h
  let watched : Watched := { chronicle with machine := session.machine }
  let more : Stage := { stage with programs := stage.programs ++ [program.statements] }
  have hmore : more.Orderly := List.forall_mem_append.2
    ⟨horderly, List.forall_mem_singleton.2 (Program.orderly_of_ofTokens hprogram)⟩
  have hall := (hfits.more [program.statements]).sound_executeAll hmore
    (List.mem_append_right _ List.mem_cons_self) fuel
  obtain ⟨-, -, hsame, -⟩ := ends_of_interpret hrun
  have herase : Run.executeAll fuel session.globals program.statements session.machine = _ :=
    (Watch.allErase fuel).executeAll [] session.globals program.statements watched
  have hfinal := finalState_of_interpret hrun
  rw [herase, View.finalState_result, ← hglobals] at hfinal
  refine ⟨more, (finalState (Watch.executeAll fuel [] stage.globals program.statements
    watched)).toChronicle, hglobals.trans hsame.symm, hmore, ?_⟩
  rw [← hfinal]
  exact hall.fits

theorem Reachable.charted {session : Session} (h : session.Reachable) : session.Charted := by
  induction h with
  | start clock style =>
    exact ⟨_, _, rfl, orderly_stage [] _, fits_start clock style⟩
  | run _ hran ih =>
    obtain ⟨program, raised, hprogram, hinterpret, -⟩ := run_eq_ok hran
    exact ih.silent.interpret hprogram hinterpret
  | interpret _ hprogram hran ih => exact ih.interpret hprogram hran
  | withClock _ clock ih =>
    obtain ⟨stage, chronicle, hglobals, horderly, hfits⟩ := ih
    exact ⟨stage, chronicle, hglobals, horderly, hfits.of_eq rfl rfl⟩

/-- Whatever texts were run before in a session, and however far a run of the next one comes: the run
can be watched, and whenever a statement or a node is about to be run in a scope, it stands in one of
the texts within as many blocks and bodies of functions as there are scopes from there outwards
before that of the top level. The innermost comes first, and in the scope for a block or a body
nothing is bound but what is declared directly in it and its parameters; at top level there are the
natives and what the texts declare there. -/
theorem nested_of_past {sources : List Source} {session : Session} {chronicle : Chronicle}
    (h : Past sources session chronicle) (fuel : Nat) (source : Source) :
    Run.executeAll fuel session.globals source.statements session.silent.machine =
        Watch.machineOnly.result id (session.watch fuel chronicle source) ∧
      ∀ moment ∈ (finalState (session.watch fuel chronicle source)).moments,
        moment.machine.store.Nested session.globals
            (topLevelNames ((sources ++ [source]).map Source.statements)) moment.scope
            moment.around ∧
          ∃ text ∈ sources ++ [source],
            Occurs text.statements moment.around moment.subject := by
  refine ⟨executeAll_eq_watch fuel session chronicle source, fun moment hmoment => ?_⟩
  obtain ⟨hnested, program, hprogram, hoccurs⟩ :=
    (sound_watch h.fits fuel source).lexical moment hmoment
  obtain ⟨text, htext, rfl⟩ := List.mem_map.1 hprogram
  exact ⟨hnested, text, htext, hoccurs⟩

private def declaring : Source := ⟨"first", "fun f(a) \x7b print a; \x7d"⟩

private def calling : Source := ⟨"second", "\x7b f(nil); \x7d"⟩

/-- The statement of `declaring`. -/
private def printing : Statement :=
  .funDecl ⟨"f", 1⟩ [⟨"a", 1⟩] [.print ⟨#[.var ⟨"a", 1⟩], 0⟩]

/-- What a run of `declaring` leaves. -/
private def declared : Session :=
  let before := start { reading := fun _ => 0 }
  { before with
    machine := { before.machine.define 0 "f"
      (.function ⟨1, ⟨"f", 1⟩, [⟨"a", 1⟩], [.print ⟨#[.var ⟨"a", 1⟩], 0⟩], 0⟩) with
        nextIdentity := 2 } }

set_option maxRecDepth 20000 in
/-- In a body that is called from a block there is no scope for that block. -/
theorem nested_of_past_call : ∃ session chronicle, Past [declaring] session chronicle ∧
    ∃ moment ∈ (finalState (session.watch 9 chronicle calling)).moments,
      moment.subject = .node #[.var ⟨"a", 1⟩] 0 ∧ moment.around.map Frame.names = [["a"]] ∧
        moment.machine.store.Nested session.globals ["clock", "f"] moment.scope moment.around := by
  have hdeclaring : Scan.ofText declaring.text =
      ⟨[⟨.keyword .funWord, "fun", none, ⟨0, 3⟩, 1⟩, ⟨.identifier, "f", none, ⟨4, 1⟩, 1⟩,
        ⟨.leftParen, "(", none, ⟨5, 1⟩, 1⟩, ⟨.identifier, "a", none, ⟨6, 1⟩, 1⟩,
        ⟨.rightParen, ")", none, ⟨7, 1⟩, 1⟩, ⟨.leftBrace, "\x7b", none, ⟨9, 1⟩, 1⟩,
        ⟨.keyword .printWord, "print", none, ⟨11, 5⟩, 1⟩, ⟨.identifier, "a", none, ⟨17, 1⟩, 1⟩,
        ⟨.semicolon, ";", none, ⟨18, 1⟩, 1⟩, ⟨.rightBrace, "\x7d", none, ⟨20, 1⟩, 1⟩,
        .atEnd 21 1], []⟩ := by cbv
  have hcalling : Scan.ofText calling.text =
      ⟨[⟨.leftBrace, "\x7b", none, ⟨0, 1⟩, 1⟩, ⟨.identifier, "f", none, ⟨2, 1⟩, 1⟩,
        ⟨.leftParen, "(", none, ⟨3, 1⟩, 1⟩, ⟨.keyword .nilWord, "nil", none, ⟨4, 3⟩, 1⟩,
        ⟨.rightParen, ")", none, ⟨7, 1⟩, 1⟩, ⟨.semicolon, ";", none, ⟨8, 1⟩, 1⟩,
        ⟨.rightBrace, "\x7d", none, ⟨10, 1⟩, 1⟩, .atEnd 11 1], []⟩ := by cbv
  have hprogram : Program.ofTokens (Scan.ofText declaring.text).tokens = .ok ⟨[some printing], []⟩ := by
    rw [hdeclaring]
    cbv
  have hcalls : calling.statements =
      [.block [.expression ⟨#[.var ⟨"f", 1⟩, .literal .nil, .call 0 [1] 1], 2⟩]] := by
    rw [Source.statements, hcalling]
    cbv
  have hdeclares : declaring.statements = [printing] := by rw [Source.statements, hprogram]; rfl
  have hinterpret : (start { reading := fun _ => 0 }).silent.interpret 9 [printing] =
      .ok (none, declared) := rfl
  have hpast : Past [declaring] declared _ :=
    .run (.start _ _) (run_of_interpret hprogram hinterpret)
  have hlatest : (finalState (declared.watch 9 (finalState ((start { reading := fun _ => 0 }).watch 9
      {} declaring)).toChronicle calling)).moments.head?.map
        (fun moment => (moment.subject, moment.around.map Frame.names)) =
          some (.node #[.var ⟨"a", 1⟩] 0, [["a"]]) := by
    rw [watch, watch, hdeclares, hcalls]
    cbv
  obtain ⟨moment, hmoment, hplace⟩ := Option.map_eq_some_iff.1 hlatest
  obtain ⟨hsubject, hnames⟩ := Prod.mk.inj hplace
  have hmem := List.mem_of_mem_head? hmoment
  have htop : topLevelNames (([declaring] ++ [calling]).map Source.statements) = ["clock", "f"] := by
    simp only [List.cons_append, List.nil_append, List.map_cons, List.map_nil, hdeclares, hcalls]
    rfl
  exact ⟨declared, _, hpast, moment, hmem, hsubject, hnames,
    htop ▸ ((nested_of_past hpast 9 calling).2 moment hmem).1⟩

end Session

end Lox
