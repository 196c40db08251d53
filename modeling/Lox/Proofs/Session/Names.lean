import Lox.Proofs.Eval.Sequence
import Lox.Proofs.Session.Scoping

/-!
# Names in sessions

What a text binds at top level are the names of those of its declarations that completed. Nothing
else that it runs adds a name to a scope that was there, nor takes one away.
-/

namespace Lox

namespace Session

def globalNames (session : Session) : List String :=
  session.machine.store.names session.globals

/-- A run of a text executes its statements up to the first that does not complete. -/
theorem exists_completes_of_run {fuel : Nat} {session after : Session} {source : Source}
    {report : RunReport} (h : session.run fuel source = .ok (report, after)) :
    ∃ done rest between outcome, source.statements = done ++ rest ∧
      Run.Completes session.globals done session.silent.machine between ∧
      Run.Stops session.globals rest between outcome after.machine ∧
      after.globals = session.globals ∧ report.runtimeError = match outcome with
        | .ok _ => none
        | .error error => some error := by
  obtain ⟨outcome, hends, hglobals, -, hraised⟩ := ends_of_interpret (interpret_of_run h)
  obtain ⟨done, rest, between, hsplit, hdone, hstops⟩ := Run.exists_completes_of_executeAll hends
  exact ⟨done, rest, between, outcome, hsplit, hdone, hstops, hglobals, hraised⟩

/-- Only a declaration adds a name, and only to its own scope. Whatever is evaluated, and whatever
statement is executed that is no declaration, in whatever machine and scope: each scope that was
there keeps its parent and its names, however it ends. A declaration that completes adds its name to
the scope that it is executed in, and one that fails adds none. So behind a run of a text the names
at top level are those before it and those of its declarations that completed. -/
theorem only_declarations_add_names :
    (∀ (fuel : Nat) (machine : Machine) (scope : ScopeId),
      (∀ (nodes : Array Node) (index : Nat), machine.store.Keeps (fun _ => False)
        (finalState (Run.evaluateNode fuel nodes scope index machine)).store) ∧
      (∀ statement : Statement, statement.Plain → machine.store.Keeps (fun _ => False)
        (finalState (Run.execute fuel scope statement machine)).store) ∧
      ∀ (statement : Statement) (name : String), statement.declared? = some name →
        match Run.execute fuel scope statement machine with
        | .ok completion after =>
          completion = .normal ∧ machine.store.Adds scope name after.store
        | .error _ after => machine.store.Keeps (fun _ => False) after.store) ∧
    ∀ {fuel : Nat} {session after : Session} {source : Source} {report : RunReport},
      session.Reachable → session.run fuel source = .ok (report, after) →
        ∃ done rest between outcome, source.statements = done ++ rest ∧
          Run.Completes session.globals done session.silent.machine between ∧
          Run.Stops session.globals rest between outcome after.machine ∧
          (report.runtimeError = match outcome with
            | .ok _ => none
            | .error error => some error) ∧
          ∀ name, name ∈ after.globalNames ↔
            name ∈ session.globalNames ∨ name ∈ Statement.declaredNames done := by
  constructor
  · intro fuel machine scope
    exact ⟨fun nodes index => Run.frames_evaluateNode fuel nodes scope index machine,
      fun statement hplain => Run.frames_execute hplain fuel scope machine,
      fun statement name hname => Run.adds_of_declared? hname fuel scope machine⟩
  · intro fuel session after source report hreachable hrun
    obtain ⟨done, rest, between, outcome, hsplit, hdone, hstops, hglobals, hraised⟩ :=
      exists_completes_of_run hrun
    refine ⟨done, rest, between, outcome, hsplit, hdone, hstops, hraised, fun name => ?_⟩
    have horderly := source.orderly_of_mem_statements
    rw [hsplit] at horderly
    have hscope : session.globals < session.silent.machine.store.scopes.size :=
      hreachable.sound.globals_lt
    have hstopped : after.globalNames = between.store.names session.globals := by
      rw [globalNames, hglobals]
      apply hstops.names_eq _ (hdone.lt_size hscope)
      exact fun statement hmem => horderly statement (List.mem_append_right _ hmem)
    rw [hstopped]
    apply hdone.mem_names _ hscope
    exact fun statement hmem => horderly statement (List.mem_append_left _ hmem)

private def failing : Source := ⟨"failing", "var a; \x7b var c; \x7d var b = -nil; var d;"⟩

/-- What a run of `failing` leaves: the scope of the block, and `a` at top level. -/
private def failed : Session :=
  let before := start { reading := fun _ => 0 }
  { before with
    machine := ((before.machine.define 0 "a" .nil).enter 0).define 1 "c" .nil }

set_option maxRecDepth 20000 in
/-- A block leaves no name behind, and a declaration whose initializer fails adds none. -/
theorem only_declarations_add_names_failing :
    failed.machine.store.Keeps (fun _ => False)
      (finalState (Run.execute 9 0 (.block [.varDecl ⟨"c", 1⟩ none]) failed.machine)).store ∧
    failed.machine.store.Adds 0 "b" (failed.machine.define 0 "b" .nil).store ∧
    ∃ done rest between outcome, failing.statements = done ++ rest ∧
      Run.Completes 0 done (start { reading := fun _ => 0 }).silent.machine between ∧
      Run.Stops 0 rest between outcome failed.machine ∧
      (∀ name, name ∈ ["clock", "a"] ↔
        name ∈ ["clock"] ∨ name ∈ Statement.declaredNames done) := by
  have hprogram : Program.ofTokens (Scan.ofText failing.text).tokens =
      .ok ⟨[some (.varDecl ⟨"a", 1⟩ none), some (.block [.varDecl ⟨"c", 1⟩ none]),
        some (.varDecl ⟨"b", 1⟩ (some ⟨#[.literal .nil, .unary .negate 0 1], 1⟩)),
        some (.varDecl ⟨"d", 1⟩ none)], []⟩ := by cbv
  have hinterpret : (start { reading := fun _ => 0 }).silent.interpret 9
      [.varDecl ⟨"a", 1⟩ none, .block [.varDecl ⟨"c", 1⟩ none],
        .varDecl ⟨"b", 1⟩ (some ⟨#[.literal .nil, .unary .negate 0 1], 1⟩),
        .varDecl ⟨"d", 1⟩ none] = .ok (some ⟨.notNumber, 1⟩, failed) := rfl
  have hplain : Statement.Plain (.block [.varDecl ⟨"c", 1⟩ none]) :=
    ⟨rfl, .block (List.forall_mem_singleton.2 .varDecl)⟩
  obtain ⟨hframe, hruns⟩ := only_declarations_add_names
  obtain ⟨-, hstatement, hdeclaration⟩ := hframe 9 failed.machine 0
  obtain ⟨done, rest, between, outcome, hsplit, hdone, hstops, -, hnames⟩ :=
    hruns (.start _ _) (run_of_interpret hprogram hinterpret)
  exact ⟨hstatement _ hplain, (hdeclaration (.varDecl ⟨"b", 1⟩ none) "b" rfl).2, done, rest,
    between, outcome, hsplit, hdone, hstops, hnames⟩

end Session

end Lox
