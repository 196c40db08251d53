import Lox.Proofs.Eval.Depth
import Lox.Proofs.Session.Scoping

/-!
# Active calls in sessions

Between the runs of a session no call is active, whatever ended them, so every run has all levels.
-/

namespace Lox

namespace Session

theorem callDepth_of_interpret {fuel : Nat} {session after : Session} {statements : List Statement}
    {raised : Option RuntimeError}
    (h : session.interpret fuel statements = .ok (raised, after)) :
    after.machine.callDepth = session.machine.callDepth := by
  obtain ⟨outcome, hends, -⟩ := ends_of_interpret h
  exact (Task.balanced fuel (.statements session.globals statements)).callDepth_eq hends

theorem Reachable.callDepth_eq_zero {session : Session} (h : session.Reachable) :
    session.machine.callDepth = 0 := by
  induction h with
  | start => rfl
  | run _ hran ih =>
    obtain ⟨program, raised, -, hinterpret, -⟩ := run_eq_ok hran
    exact (callDepth_of_interpret hinterpret).trans ih
  | interpret _ _ hran ih => exact (callDepth_of_interpret hran).trans ih
  | withClock _ _ ih => exact ih

/-- In a run of a text, the machine is come to while the bodies of the functions are being executed,
outermost first. -/
def Comes (session : Session) (active : List Function) (machine : Machine) : Prop :=
  ∃ (source : Source) (fuel left : Nat) (task : Task),
    (Task.statements session.globals source.statements).Reaches fuel session.silent.machine active
      left task machine

/-- The number of active calls is exact. Whatever is run in a state that a session comes to, be it
between two runs or within one: at every moment as many calls are active as there are bodies of
functions being executed, and they are never more than there may be; however the run ends, as many
are active as before; and it ends with a stack overflow just if it comes to the call of a function,
with as many arguments as it takes, while all levels are taken, on the line of that call and with
nothing done behind that moment. Between two runs no call is active. -/
theorem callDepth_exact {session : Session} (h : session.Reachable) :
    session.machine.callDepth = 0 ∧
    ∀ {active : List Function} {machine : Machine}, session.Comes active machine →
      ∀ (task : Task) (fuel : Nat), task.Counted →
        (∀ {more : List Function} {left : Nat} {last : Task} {further : Machine},
          task.Reaches fuel machine more left last further →
            further.callDepth = (active ++ more).length ∧ further.callDepth ≤ maxCallDepth) ∧
        (finalState (task.run fuel machine)).callDepth = machine.callDepth ∧
        ∀ {line : Nat} {after : Machine},
          (task.run fuel).Ends machine (.error ⟨.stackOverflow, line⟩) after ↔
            ∃ more left declared arguments last, task.Reaches fuel machine more (left + 1)
                (.call (.function declared) arguments line) last ∧
              arguments.length = declared.parameters.length ∧
              (active ++ more).length = maxCallDepth ∧
              after = { last with callDepth := machine.callDepth } := by
  have hzero := h.callDepth_eq_zero
  refine ⟨hzero, fun {active machine} hcomes task fuel hcounted => ?_⟩
  obtain ⟨source, most, rest, sub, hcomes⟩ := hcomes
  have hsilent : session.silent.machine.callDepth = 0 := hzero
  have hactive : machine.callDepth = active.length := by
    rw [hcomes.callDepth_eq, hsilent, Nat.zero_add]
  have hle : machine.callDepth ≤ maxCallDepth := hcomes.callDepth_le (hsilent ▸ Nat.zero_le _)
  refine ⟨fun hreaches => ⟨?_, hreaches.callDepth_le hle⟩,
    (Task.balanced fuel task).callDepth_finalState machine, ?_⟩
  · rw [hreaches.callDepth_eq, hactive, List.length_append]
  · intro line after
    rw [Task.ends_stackOverflow_iff hcounted hle, hactive]
    simp only [List.length_append]

private def once : Source := ⟨"once", "fun f() \x7b print nil; \x7d f();"⟩

/-- The function in `once`. -/
private def printer : Function :=
  ⟨1, ⟨"f", 1⟩, [], [.print ⟨#[.literal .nil], 0⟩], 0⟩

/-- The machine in which the function is called. -/
private def ready : Machine :=
  (start { reading := fun _ => 0 }).silent.machine.declare 0 ⟨"f", 1⟩ [] printer.body

set_option maxRecDepth 20000 in
/-- In the body of a function one call is active, also behind what is run there. -/
theorem callDepth_exact_body :
    (start { reading := fun _ => 0 }).Comes [printer] (ready.called printer []) ∧
      (ready.called printer []).callDepth = 1 ∧
      ∀ fuel, (finalState ((Task.statements 1 printer.body).run fuel
        (ready.called printer []))).callDepth = 1 := by
  have hparsed : Program.ofTokens (Scan.ofText once.text).tokens =
      .ok ⟨[some (.funDecl ⟨"f", 1⟩ [] printer.body),
        some (.expression ⟨#[.var ⟨"f", 1⟩, .call 0 [] 1], 1⟩)], []⟩ := by cbv
  have hstatements : once.statements = [.funDecl ⟨"f", 1⟩ [] printer.body,
      .expression ⟨#[.var ⟨"f", 1⟩, .call 0 [] 1], 1⟩] := by
    rw [Source.statements, hparsed]
    rfl
  have hcallee : (Run.evaluateNode 5 #[.var ⟨"f", 1⟩, .call 0 [] 1] 0 0).Ends ready
      (.ok (.function printer)) ready := by
    rw [Run.Ends]
    cbv
  have hcomes : (start { reading := fun _ => 0 }).Comes [printer] (ready.called printer []) := by
    refine ⟨once, 9, 4, .statements 1 printer.body, ?_⟩
    rw [hstatements]
    refine .within (.later rfl) (.within .first (.within (.expression rfl) ?_))
    exact .within (.call rfl hcallee rfl rfl) (.into (by decide) .here)
  obtain ⟨-, hexact⟩ := callDepth_exact (.start { reading := fun _ => 0 } .basic)
  have hbody (fuel : Nat) := hexact hcomes (.statements 1 printer.body) fuel trivial
  have hdepth := ((hbody 0).1 .here).1
  exact ⟨hcomes, hdepth, fun fuel => (hbody fuel).2.1.trans hdepth⟩

end Session

end Lox
