import Mathlib
import Lox.Proofs.Eval.Sequence
import Lox.Proofs.Grammar.Reporting
import Lox.Proofs.Session.Meaning

/-!
# Returns at top level

A `return` at top level would end a program without a word. It is reported where it is read, so a
program for which that was not reported has none: it is run to its last statement, or up to an error.
-/

namespace Lox

namespace Session

/-- No `return` escapes that was not reported. If the errors of a parsed program tell of none outside
of functions, whatever else they tell, then none of its statements is ended by one, wherever it is
executed; and in every session a run of the program executes all of them, up to the first that
raises an error. -/
theorem no_return_escapes {tokens : List Token} {program : Program}
    (h : Program.ofTokens tokens = .ok program)
    (hunreported : ∀ error ∈ program.errors, error.cause ≠ .returnOutsideFunction) :
    (∀ statement ∈ program.statements, ∀ (fuel : Nat) (scope : ScopeId) (machine after : Machine)
      (value : Value), ¬ (Run.execute fuel scope statement).Ends machine (.ok (.returned value))
        after) ∧
    ∀ {fuel : Nat} {session after : Session} {raised : Option RuntimeError},
      session.interpret fuel program.statements = .ok (raised, after) →
        (raised = none ∧
          Run.Completes session.globals program.statements session.machine after.machine) ∨
        ∃ error done failing rest between, raised = some error ∧
          program.statements = done ++ failing :: rest ∧
          Run.Completes session.globals done session.machine between ∧
          ∃ most, (Run.execute most session.globals failing).Ends between (.error error)
            after.machine := by
  have hreturns := Program.returns_eq_false h hunreported
  constructor
  · intro statement hmem fuel scope machine after value hends
    have hpasses : (Run.execute fuel scope statement).Passes :=
      (Run.passes_of_returns_eq_false fuel).1 (hreturns statement hmem)
    exact nomatch hpasses _ _ _ hends
  · intro fuel session after raised hinterpret
    obtain ⟨outcome, hends, -, -, hraised⟩ := ends_of_interpret hinterpret
    obtain ⟨done, rest, between, hsplit, hdone, hstops⟩ := Run.exists_completes_of_executeAll hends
    cases hstops with
    | finished =>
      rw [List.append_nil] at hsplit
      exact .inl ⟨hraised, hsplit ▸ hdone⟩
    | @left most failing rest _ _ _ abnormal ended =>
      cases outcome with
      | error error =>
        exact .inr ⟨error, done, failing, rest, between, hraised, hsplit, hdone, most, ended⟩
      | ok completion =>
        have hmem : failing ∈ program.statements :=
          hsplit ▸ List.mem_append_right _ List.mem_cons_self
        have hpasses : (Run.execute most session.globals failing).Passes :=
          (Run.passes_of_returns_eq_false most).1 (hreturns failing hmem)
        exact absurd (congrArg Except.ok (hpasses _ _ _ ended)) abnormal

/-- An entry of the body of `f` is abandoned in front of a `return`, and then the declaration of a
function is. -/
private def broken : Source :=
  ⟨"broken", "fun f() \x7b ; return nil; \x7d fun g( f(); print nil;"⟩

/-- What `broken` is parsed to. -/
private def brokenProgram : Program where
  declarations :=
    [some (.funDecl ⟨"f", 1⟩ [] [.returnWith (some ⟨#[.literal .nil], 0⟩) 1]), none,
      some (.print ⟨#[.literal .nil], 0⟩)]
  errors :=
    [⟨.notExpression, ⟨.semicolon, ";", none, ⟨10, 1⟩, 1⟩⟩,
      ⟨.unexpected .rightParen "Expect ')' after parameters.",
        ⟨.leftParen, "(", none, ⟨34, 1⟩, 1⟩⟩]

set_option maxRecDepth 20000 in
/-- All is executed that is kept of a text with errors in and between its functions. -/
theorem no_return_escapes_broken :
    Program.ofTokens (Scan.ofText broken.text).tokens = .ok brokenProgram ∧
      (∀ fuel machine after value, ¬ (Run.execute fuel 0 (.print ⟨#[.literal .nil], 0⟩)).Ends
        machine (.ok (.returned value)) after) ∧
      ∃ after, Run.Completes 0 brokenProgram.statements (start { reading := fun _ => 0 }).machine
        after := by
  have hprogram : Program.ofTokens (Scan.ofText broken.text).tokens = .ok brokenProgram := by cbv
  have hunreported : ∀ error ∈ brokenProgram.errors, error.cause ≠ .returnOutsideFunction := by
    decide
  obtain ⟨hstatement, hruns⟩ := no_return_escapes hprogram hunreported
  refine ⟨hprogram, fun fuel => hstatement _ (by simp [brokenProgram, Program.statements]) fuel 0,
    ?_⟩
  have hinterpret : ∃ after, (start { reading := fun _ => 0 }).interpret 9
      brokenProgram.statements = .ok (none, after) := ⟨_, rfl⟩
  obtain ⟨after, hinterpret⟩ := hinterpret
  rcases hruns hinterpret with ⟨-, hcompletes⟩ | ⟨error, _, _, _, _, hraised, -⟩
  · exact ⟨after.machine, hcompletes⟩
  · cases hraised

end Session

end Lox
