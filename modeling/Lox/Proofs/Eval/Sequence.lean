import Lox.Proofs.Eval.Names
import Lox.Proofs.Eval.Returns

/-!
# Statements in a row

Statements are executed one after the other, up to the first that does not complete. That one, if
there is any, decides how all of them end, and none behind it is executed. Where no `return` stands
outside of functions it is an error that cuts them off, and nothing else.
-/

namespace Lox

namespace Run

/-- Each of the statements completes where the one before it did. -/
inductive Completes (scope : ScopeId) : List Statement → Machine → Machine → Prop where
  | nil (machine : Machine) : Completes scope [] machine machine
  | cons {fuel : Nat} {statement : Statement} {rest : List Statement}
      {machine between after : Machine}
      (ended : (execute fuel scope statement).Ends machine (.ok .normal) between)
      (completes : Completes scope rest between after) :
    Completes scope (statement :: rest) machine after

/-- How it ends behind statements that completed: with nothing left to be executed, or with a
statement that does not complete. -/
inductive Stops (scope : ScopeId) :
    List Statement → Machine → Outcome Completion → Machine → Prop where
  | finished (machine : Machine) : Stops scope [] machine (.ok .normal) machine
  | left {fuel : Nat} {statement : Statement} {rest : List Statement} {machine after : Machine}
      {outcome : Outcome Completion} (abnormal : outcome ≠ .ok .normal)
      (ended : (execute fuel scope statement).Ends machine outcome after) :
    Stops scope (statement :: rest) machine outcome after

theorem exists_completes_of_executeAll {scope : ScopeId} {statements : List Statement} :
    ∀ {fuel : Nat} {machine after : Machine} {outcome : Outcome Completion},
      (executeAll fuel scope statements).Ends machine outcome after →
        ∃ done rest between, statements = done ++ rest ∧ Completes scope done machine between ∧
          Stops scope rest between outcome after := by
  induction statements with
  | nil =>
    intro fuel machine after outcome h
    cases fuel with
    | zero => exact absurd h not_ends_fail
    | succ fuel =>
      obtain ⟨rfl, rfl⟩ := ends_pure.1 h
      exact ⟨[], [], after, rfl, .nil after, .finished after⟩
  | cons statement rest ih =>
    intro fuel machine after outcome h
    cases fuel with
    | zero => exact absurd h not_ends_fail
    | succ fuel =>
      rw [executeAll] at h
      rcases ends_bind.1 h with ⟨completion, between, hended, h⟩ | ⟨error, hended, rfl⟩
      · cases completion with
        | normal =>
          obtain ⟨done, later, further, hsplit, hdone, hstops⟩ := ih h
          exact ⟨statement :: done, later, further, congrArg _ hsplit, .cons hended hdone, hstops⟩
        | returned value =>
          obtain ⟨rfl, rfl⟩ := ends_pure.1 h
          exact ⟨[], _, machine, rfl, .nil machine, .left nofun hended⟩
      · exact ⟨[], _, machine, rfl, .nil machine, .left nofun hended⟩

/-! ### Returns -/

/-- Where the run yields a completion, it is no value on its way to a call. -/
def Passes (run : Run Completion) : Prop :=
  ∀ (machine after : Machine) (completion : Completion),
    run machine = .ok completion after → completion = .normal

theorem passes_normal : Passes (pure .normal) := by
  intro machine after completion h
  cases h
  rfl

theorem passes_fail (fault : Fault) : Passes (fail fault) := by
  intro machine after completion h
  cases h

theorem Passes.behind {α : Type} {run : Run α} {next : α → Run Completion}
    (h : ∀ value, (next value).Passes) : (run >>= next).Passes := by
  intro machine after completion hrun
  rw [bind_apply] at hrun
  split at hrun
  · exact h _ _ _ _ hrun
  · cases hrun

theorem Passes.bind {run : Run Completion} {next : Completion → Run Completion}
    (first : run.Passes) (second : (next .normal).Passes) : (run >>= next).Passes := by
  intro machine after completion hrun
  rw [bind_apply] at hrun
  split at hrun
  · rename_i earlier between hfirst
    obtain rfl := first _ _ _ hfirst
    exact second _ _ _ hrun
  · cases hrun

theorem Passes.ite {condition : Prop} [Decidable condition] {run other : Run Completion}
    (h : run.Passes) (hother : other.Passes) : (if condition then run else other).Passes := by
  split
  · exact h
  · exact hother

/-- Only a `return` that stands in a statement outside of functions ends it with a value. -/
theorem passes_of_returns_eq_false (fuel : Nat) :
    (∀ {scope : ScopeId} {statement : Statement}, statement.returns = false →
      (execute fuel scope statement).Passes) ∧
    (∀ {scope : ScopeId} {statements : List Statement}, Statement.anyReturns statements = false →
      (executeAll fuel scope statements).Passes) ∧
    ∀ {scope : ScopeId} {condition : Expression} {body : Statement}, body.returns = false →
      (Run.loop fuel scope condition body).Passes := by
  induction fuel with
  | zero => exact ⟨fun _ => passes_fail _, fun _ => passes_fail _, fun _ => passes_fail _⟩
  | succ fuel ih =>
    obtain ⟨hstatement, hstatements, hloop⟩ := ih
    refine ⟨fun {scope statement} h => ?_, fun {scope statements} h => ?_,
      fun {scope condition body} h => .behind fun value => .ite ?_ passes_normal⟩
    · cases statement with
      | varDecl name initial =>
        cases initial with
        | none | some => exact .behind fun _ => .behind fun _ => passes_normal
      | funDecl name parameters body => exact .behind fun _ => .behind fun _ => passes_normal
      | expression value => exact .behind fun _ => passes_normal
      | print value => exact .behind fun _ => .behind fun _ => passes_normal
      | block body => exact .behind fun _ => hstatements h
      | ifThen condition success =>
        exact .behind fun value => .ite (hstatement h) passes_normal
      | ifElse condition success failure =>
        obtain ⟨hsuccess, hfailure⟩ := Bool.or_eq_false_iff.1 h
        apply Passes.behind
        intro value
        show (execute fuel scope (if value.isTruthy then success else failure)).Passes
        split
        · exact hstatement hsuccess
        · exact hstatement hfailure
      | whileLoop condition body => exact hloop h
      | returnWith value line => cases h
    · cases statements with
      | nil => exact passes_normal
      | cons statement rest =>
        obtain ⟨hfirst, hrest⟩ := Bool.or_eq_false_iff.1 h
        exact (hstatement hfirst).bind (hstatements hrest)
    · exact (hstatement h).bind (hloop h)

/-! ### Names -/

section
variable {scope : ScopeId} {machine after : Machine}

/-- A statement that completes adds the name to its scope that it declares. -/
theorem mem_names_of_ends {fuel : Nat} {statement : Statement} (h : statement.Orderly)
    (hends : (execute fuel scope statement).Ends machine (.ok .normal) after)
    (hscope : scope < machine.store.scopes.size) {name : String} :
    name ∈ after.store.names scope ↔
      name ∈ machine.store.names scope ∨ statement.declared? = some name := by
  cases hdeclared : statement.declared? with
  | some declared =>
    have hrun : execute fuel scope statement machine = .ok .normal after := hends
    have hadds := adds_of_declared? hdeclared fuel scope machine
    rw [hrun] at hadds
    rw [hadds.2.mem_names hscope, Option.some_inj, eq_comm (a := name)]
  | none =>
    have hplain := Statement.plain_of_declared?_eq_none h hdeclared
    rw [((frames_execute hplain fuel scope).keeps hends).names_eq hscope]
    exact (or_iff_left nofun).symm

theorem lt_size_of_ends {fuel : Nat} {statement : Statement} {outcome : Outcome Completion}
    (hends : (execute fuel scope statement).Ends machine outcome after)
    (hscope : scope < machine.store.scopes.size) : scope < after.store.scopes.size :=
  ((Task.frames fuel (.statement scope statement)).keeps hends).lt_size hscope

theorem Completes.mem_names {done : List Statement} (h : Completes scope done machine after)
    (horderly : ∀ statement ∈ done, statement.Orderly)
    (hscope : scope < machine.store.scopes.size) {name : String} :
    name ∈ after.store.names scope ↔
      name ∈ machine.store.names scope ∨ name ∈ Statement.declaredNames done := by
  induction h with
  | nil => exact (or_iff_left List.not_mem_nil).symm
  | @cons fuel statement rest machine between after ended _ ih =>
    obtain ⟨hfirst, hrest⟩ := List.forall_mem_cons.1 horderly
    rw [ih hrest (lt_size_of_ends ended hscope), mem_names_of_ends hfirst ended hscope, or_assoc]
    apply or_congr_right
    simp only [Statement.declaredNames, List.mem_filterMap, List.exists_mem_cons_iff]

theorem Completes.lt_size {done : List Statement} (h : Completes scope done machine after)
    (hscope : scope < machine.store.scopes.size) : scope < after.store.scopes.size := by
  induction h with
  | nil => exact hscope
  | cons ended _ ih => exact ih (lt_size_of_ends ended hscope)

/-- A statement that does not complete adds no name to the scope, be it a declaration or not. -/
theorem Stops.names_eq {rest : List Statement} {outcome : Outcome Completion}
    (h : Stops scope rest machine outcome after)
    (horderly : ∀ statement ∈ rest, statement.Orderly)
    (hscope : scope < machine.store.scopes.size) :
    after.store.names scope = machine.store.names scope := by
  cases h with
  | finished => rfl
  | @left fuel statement rest _ _ _ abnormal ended =>
    apply Store.Keeps.names_eq _ hscope
    cases hdeclared : statement.declared? with
    | none =>
      have hplain := Statement.plain_of_declared?_eq_none (horderly _ List.mem_cons_self) hdeclared
      exact (frames_execute hplain fuel scope).keeps ended
    | some declared =>
      have hadds := adds_of_declared? hdeclared fuel scope machine
      cases outcome with
      | ok completion =>
        have hrun : execute fuel scope statement machine = .ok completion after := ended
        rw [hrun] at hadds
        exact absurd (congrArg Except.ok hadds.1) abnormal
      | error error =>
        have hrun : execute fuel scope statement machine = .error (.raised error) after := ended
        rwa [hrun] at hadds

end

end Run

end Lox
