import Lox.Proofs.Eval.Completeness
import Lox.Proofs.Grammar.Kept
import Lox.Session

/-!
# What sessions do

In every state that a session can come to, a parsed program does what its syntax trees mean: there is
a run with an outcome just if there is a derivation of it. Of a table of nodes only the tree matters
that is unfolded from its root.
-/

namespace Lox

/-! ### Tables -/

/-- Where two tables unfold into the same tree, they are evaluated alike, whatever else is in them. -/
theorem Run.evaluateNode_congr (fuel : Nat) :
    (∀ {nodes others : Array Node} {scope : ScopeId} {index other : Nat} {tree : Tree},
      Unfolds nodes index tree → Unfolds others other tree →
        evaluateNode fuel nodes scope index = evaluateNode fuel others scope other) ∧
    ∀ {nodes others : Array Node} {scope : ScopeId} {indices places : List Nat} {trees : List Tree},
      AllUnfold nodes indices trees → AllUnfold others places trees →
        evaluateNodes fuel nodes scope indices = evaluateNodes fuel others scope places := by
  induction fuel with
  | zero =>
    constructor <;> intros
    · rw [evaluateNode, evaluateNode]
    · rw [evaluateNodes, evaluateNodes]
  | succ fuel ih =>
    obtain ⟨hnode, hnodes⟩ := ih
    constructor
    · intro nodes others scope index other tree h hother
      cases h with
      | literal hfound =>
        cases hother with
        | literal hother => simp only [evaluateNode, hfound, hother]
      | var hfound =>
        cases hother with
        | var hother => simp only [evaluateNode, hfound, hother]
      | group hfound hinner =>
        cases hother with
        | group hother hinnerOther =>
          simp only [evaluateNode, hfound, hother, hnode hinner hinnerOther]
      | unary hfound hoperand =>
        cases hother with
        | unary hother hoperandOther =>
          simp only [evaluateNode, hfound, hother, hnode hoperand hoperandOther]
      | binary hfound hleft hright =>
        cases hother with
        | binary hother hleftOther hrightOther =>
          simp only [evaluateNode, hfound, hother, hnode hleft hleftOther, hnode hright hrightOther]
      | logical hfound hleft hright =>
        cases hother with
        | logical hother hleftOther hrightOther =>
          simp only [evaluateNode, hfound, hother, hnode hleft hleftOther, hnode hright hrightOther]
      | assign hfound hvalue =>
        cases hother with
        | assign hother hvalueOther =>
          simp only [evaluateNode, hfound, hother, hnode hvalue hvalueOther]
      | call hfound hcallee hall =>
        cases hother with
        | call hother hcalleeOther hallOther =>
          simp only [evaluateNode, hfound, hother, hnode hcallee hcalleeOther,
            hnodes hall hallOther]
    · intro nodes others scope indices places trees h hother
      cases h with
      | nil =>
        cases hother
        rw [evaluateNodes, evaluateNodes]
      | cons hunfolds hrest =>
        cases hother with
        | cons hunfoldsOther hrestOther =>
          rw [evaluateNodes, evaluateNodes, hnode hunfolds hunfoldsOther, hnodes hrest hrestOther]

/-- Every expression of a parsed program unfolds into a tree. -/
theorem Program.allKeep_legible {tokens : List Token} {program : Program}
    (h : Program.ofTokens tokens = .ok program) :
    Statement.AllKeep Expression.Legible program.statements := by
  intro statement hstatement expression hexpression
  obtain ⟨tree, htree, -⟩ := Program.sound_of_mem_expressions h expression
    (List.mem_flatMap.2 ⟨statement, hstatement, hexpression⟩)
  exact ⟨tree, Expression.unfolds_of_tree? htree⟩

namespace Session

/-! ### States of a session -/

/-- The session in which nothing has been printed. -/
def silent (session : Session) : Session :=
  { session with machine := { session.machine with output := "" } }

/-- A run of a text runs the statements that were parsed, with nothing printed yet. -/
theorem run_eq_ok {fuel : Nat} {session after : Session} {source : Source} {report : RunReport}
    (h : session.run fuel source = .ok (report, after)) : ∃ program raised,
      Program.ofTokens (Scan.ofText source.text).tokens = .ok program ∧
      interpret fuel { session with machine := { session.machine with output := "" } }
        program.statements = .ok (raised, after) ∧
      report = {
        output := after.machine.output
        diagnostics := (Scan.ofText source.text).errors.map (·.render session.style source) ++
          program.errors.map (·.render session.style source) ++
          raised.toList.map (·.render session.style source)
        hadCompileError := (Scan.ofText source.text).hasErrors || program.hasErrors
        runtimeError := raised } := by
  cases hprogram : Program.ofTokens (Scan.ofText source.text).tokens with
  | error missing =>
    simp [run, hprogram, bind, Except.bind, throw, throwThe, MonadExceptOf.throw] at h
  | ok program =>
    cases hrun : interpret fuel { session with machine := { session.machine with output := "" } }
        program.statements with
    | error fault =>
      simp [run, hprogram, hrun, bind, Except.bind, pure, Except.pure, Except.mapError] at h
    | ok ending =>
      obtain ⟨raised, final⟩ := ending
      simp only [run, hprogram, hrun, bind, Except.bind, pure, Except.pure, Except.mapError,
        Except.ok.injEq, Prod.mk.injEq] at h
      obtain ⟨rfl, rfl⟩ := h
      exact ⟨program, raised, rfl, hrun, rfl⟩

theorem run_of_interpret {fuel : Nat} {session after : Session} {source : Source}
    {program : Program} {raised : Option RuntimeError}
    (hprogram : Program.ofTokens (Scan.ofText source.text).tokens = .ok program)
    (hinterpret : session.silent.interpret fuel program.statements = .ok (raised, after)) :
    session.run fuel source = .ok ({
      output := after.machine.output
      diagnostics := (Scan.ofText source.text).errors.map (·.render session.style source) ++
        program.errors.map (·.render session.style source) ++
        raised.toList.map (·.render session.style source)
      hadCompileError := (Scan.ofText source.text).hasErrors || program.hasErrors
      runtimeError := raised }, after) := by
  have hfresh : interpret fuel { session with machine := { session.machine with output := "" } }
      program.statements = .ok (raised, after) := hinterpret
  simp [run, hprogram, hfresh, bind, Except.bind, pure, Except.pure, Except.mapError]

/-- What a session may come to by running texts or parsed programs, the clock being changed between
any two of them. -/
inductive Reachable : Session → Prop where
  | start (clock : Clock) (style : Style) : Reachable (start clock style)
  | run {fuel : Nat} {session after : Session} {source : Source} {report : RunReport}
      (reachable : Reachable session) (ran : session.run fuel source = .ok (report, after)) :
    Reachable after
  | interpret {fuel : Nat} {session after : Session} {tokens : List Token} {program : Program}
      {raised : Option RuntimeError} (reachable : Reachable session)
      (parsed : Program.ofTokens tokens = .ok program)
      (ran : session.interpret fuel program.statements = .ok (raised, after)) : Reachable after
  | withClock {session : Session} (reachable : Reachable session) (clock : Clock) :
    Reachable (session.withClock clock)

/-- The scope of top-level declarations is there, and everything in the store is as it has to be. -/
structure Sound (session : Session) : Prop where
  store : session.machine.store.WellFormed
  globals_lt : session.globals < session.machine.store.scopes.size

theorem sound_start (clock : Clock) (style : Style) : (start clock style).Sound where
  store := by
    have hroot : ((({} : Store).add none).2).WellFormed := Store.wellFormed_empty.add (by simp)
    exact hroot.define trivial
  globals_lt := Nat.zero_lt_one

theorem ends_of_interpret {fuel : Nat} {session after : Session} {statements : List Statement}
    {raised : Option RuntimeError}
    (h : session.interpret fuel statements = .ok (raised, after)) :
    ∃ outcome : Outcome Completion, (Run.executeAll fuel session.globals statements).Ends
        session.machine outcome after.machine ∧ after.globals = session.globals ∧
      after.style = session.style ∧ raised = match outcome with
        | .ok _ => none
        | .error error => some error := by
  rw [interpret] at h
  split at h
  case h_1 completion machine hrun =>
    cases h
    exact ⟨.ok completion, hrun, rfl, rfl, rfl⟩
  case h_2 error machine hrun =>
    cases h
    exact ⟨.error error, hrun, rfl, rfl, rfl⟩
  case h_3 => cases h

theorem Sound.interpret {fuel : Nat} {session after : Session} {statements : List Statement}
    {raised : Option RuntimeError} (h : session.Sound)
    (hkeep : Statement.AllKeep Expression.Legible statements)
    (hrun : session.interpret fuel statements = .ok (raised, after)) : after.Sound := by
  obtain ⟨outcome, hends, hglobals, -, -⟩ := ends_of_interpret hrun
  have hsafe := (Run.allSafe fuel).executeAll h.store h.globals_lt hkeep
  refine ⟨hsafe.wellFormed hends, ?_⟩
  rw [hglobals]
  exact Nat.lt_of_lt_of_le h.globals_lt (hsafe.grows hends).size_le

theorem Reachable.sound {session : Session} (h : session.Reachable) : session.Sound := by
  induction h with
  | start clock style => exact sound_start clock style
  | @run _ before _ _ _ _ hran ih =>
    obtain ⟨program, raised, hprogram, hrun, -⟩ := run_eq_ok hran
    have hfresh : Sound { before with machine := { before.machine with output := "" } } :=
      ⟨ih.store, ih.globals_lt⟩
    exact hfresh.interpret (Program.allKeep_legible hprogram) hrun
  | interpret _ hparsed hran ih => exact ih.interpret (Program.allKeep_legible hparsed) hran
  | withClock _ _ ih => exact ⟨ih.store, ih.globals_lt⟩

/-! ### Meaning -/

/-- What running statements at top level means: an error cuts them off, and what a top-level `return`
yields is dropped. -/
inductive Interprets (session : Session) (statements : List Statement) :
    Option RuntimeError → Session → Prop where
  | ended {completion : Completion} {machine : Machine}
      (executesAll : ExecutesAll session.machine session.globals statements (.ok completion)
        machine) : Interprets session statements none { session with machine }
  | raised {error : RuntimeError} {machine : Machine}
      (executesAll : ExecutesAll session.machine session.globals statements (.error error)
        machine) : Interprets session statements (some error) { session with machine }

section
variable {session : Session} {statements : List Statement} (hsound : session.Sound)
  (hkeep : Statement.AllKeep Expression.Legible statements)
include hsound hkeep

theorem interprets_of_interpret {fuel : Nat} {raised : Option RuntimeError} {after : Session}
    (hrun : session.interpret fuel statements = .ok (raised, after)) :
    session.Interprets statements raised after := by
  have hall := Run.allDerived fuel
  rw [interpret] at hrun
  split at hrun
  case h_1 completion machine hends =>
    cases hrun
    exact .ended (hall.executeAll hsound.store hsound.globals_lt hkeep hends)
  case h_2 error machine hends =>
    cases hrun
    exact .raised (hall.executeAll hsound.store hsound.globals_lt hkeep hends)
  case h_3 => cases hrun

theorem Interprets.eventually {raised : Option RuntimeError} {after : Session}
    (h : session.Interprets statements raised after) :
    Eventually fun fuel => session.interpret fuel statements = .ok (raised, after) := by
  cases h with
  | @ended completion machine hall =>
    obtain ⟨bound, hruns⟩ := hall.eventually hsound.store hsound.globals_lt hkeep
    refine ⟨bound, fun fuel hle => ?_⟩
    have hrun : Run.executeAll fuel session.globals statements session.machine =
        .ok completion machine := hruns fuel hle
    simp only [interpret, hrun]
  | @raised error machine hall =>
    obtain ⟨bound, hruns⟩ := hall.eventually hsound.store hsound.globals_lt hkeep
    refine ⟨bound, fun fuel hle => ?_⟩
    have hrun : Run.executeAll fuel session.globals statements session.machine =
        .error (.raised error) machine := hruns fuel hle
    simp only [interpret, hrun]

theorem fault_eq_of_interpret {fuel : Nat} {fault : Fault}
    (hrun : session.interpret fuel statements = .error fault) : fault = .outOfFuel := by
  rw [interpret] at hrun
  split at hrun
  case h_1 => cases hrun
  case h_2 => cases hrun
  case h_3 kind machine hends =>
    cases hrun
    exact ((Run.allSafe fuel).executeAll hsound.store hsound.globals_lt hkeep).fault_eq hends

end

/-- A parsed program, run in any state that a session comes to, ends in a way just if its syntax
trees mean so. There is one such way at most, and a run that does not end this way is one whose fuel
runs out. What is not part of a tree has no influence. -/
theorem interpret_iff_interprets {tokens : List Token} {program : Program} {session : Session}
    (hprogram : Program.ofTokens tokens = .ok program) (hsession : session.Reachable) :
    (∀ raised after, (∃ fuel, session.interpret fuel program.statements = .ok (raised, after)) ↔
      session.Interprets program.statements raised after) ∧
    (∀ fuel other ending final, session.interpret fuel program.statements = .ok ending →
      session.interpret other program.statements = .ok final → ending = final) ∧
    (∀ fuel fault, session.interpret fuel program.statements = .error fault → fault = .outOfFuel) ∧
    ∀ {nodes others : Array Node} {index other : Nat} {tree : Tree}, Unfolds nodes index tree →
      Unfolds others other tree → ∀ fuel scope,
        Run.evaluateNode fuel nodes scope index = Run.evaluateNode fuel others scope other := by
  have hkeep := Program.allKeep_legible hprogram
  have hsound := hsession.sound
  have hiff (raised : Option RuntimeError) (after : Session) :
      (∃ fuel, session.interpret fuel program.statements = .ok (raised, after)) ↔
        session.Interprets program.statements raised after := by
    constructor
    · rintro ⟨fuel, hrun⟩
      exact interprets_of_interpret hsound hkeep hrun
    · intro h
      obtain ⟨fuel, hrun⟩ := (h.eventually hsound hkeep).exists_fuel
      exact ⟨fuel, hrun⟩
  refine ⟨hiff, fun fuel other ending final hrun hother => ?_, fun fuel fault hrun => ?_,
    fun h hother fuel _ => (Run.evaluateNode_congr fuel).1 h hother⟩
  · obtain ⟨raised, after⟩ := ending
    obtain ⟨bound, hall⟩ := (interprets_of_interpret hsound hkeep hrun).eventually hsound hkeep
    obtain ⟨raisedOther, afterOther⟩ := final
    obtain ⟨most, hallOther⟩ :=
      (interprets_of_interpret hsound hkeep hother).eventually hsound hkeep
    have hsame := (hall _ (Nat.le_max_left bound most)).symm.trans
      (hallOther _ (Nat.le_max_right bound most))
    exact Except.ok.inj hsame
  · exact fault_eq_of_interpret hsound hkeep hrun

/-- The tokens of `print nil and x;`. -/
private def skipping : List Token :=
  [(Mark.plain (.keyword .printWord) "print" 1).token, (Mark.plain (.keyword .nilWord) "nil" 1).token,
    (Mark.plain (.keyword .andWord) "and" 1).token, (Mark.plain .identifier "x" 1).token,
    (Mark.plain .semicolon ";" 1).token, .atEnd 0 1]

/-- What `and` skips is not looked up. -/
theorem interpret_iff_interprets_skipping : ∃ after : Session,
    (start { reading := fun _ => 0 }).Interprets
      [.print ⟨#[.literal .nil, .var ⟨"x", 1⟩, .logical .and 0 1], 2⟩] none after ∧
        after.machine.output = "nil\n" := by
  have hprogram : Program.ofTokens skipping =
      .ok ⟨[some (.print ⟨#[.literal .nil, .var ⟨"x", 1⟩, .logical .and 0 1], 2⟩)], []⟩ := rfl
  have hadequate := (interpret_iff_interprets hprogram
    (.start { reading := fun _ => 0 } .basic)).1 none
  obtain ⟨after, hrun, houtput⟩ : ∃ after : Session,
      (start { reading := fun _ => 0 }).interpret 9
        [.print ⟨#[.literal .nil, .var ⟨"x", 1⟩, .logical .and 0 1], 2⟩] = .ok (none, after) ∧
          after.machine.output = "nil\n" := by
    refine ⟨_, rfl, ?_⟩
    rfl
  exact ⟨after, (hadequate after).1 ⟨9, hrun⟩, houtput⟩

end Session

end Lox
