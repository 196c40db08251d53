import Lox.Proofs.Eval.Store

/-!
# Runs of the machine

How the steps that runs are made of end, one lemma for each of them. A run that ends has an outcome;
a fault is no outcome.
-/

namespace Lox

namespace Run

variable {α β : Type}

theorem bind_apply (run : Run α) (next : α → Run β) (machine : Machine) :
    (run >>= next) machine = match run machine with
      | .ok value after => next value after
      | .error interrupt after => .error interrupt after := by
  simp only [bind, EStateM.bind]
  cases run machine <;> rfl

theorem lookup_apply (scope : ScopeId) (name : Identifier) (machine : Machine) :
    lookup scope name machine = match machine.store.value? name.name scope with
      | some value => .ok value machine
      | none => .error (.raised ⟨.undefined name.name, name.line⟩) machine := by
  rw [lookup, bind_apply]
  change (match machine.store.value? name.name scope with
    | some value => pure value
    | none => raise (.undefined name.name) name.line : Run Value) machine = _
  cases machine.store.value? name.name scope <;> rfl

theorem assign_apply (scope : ScopeId) (name : Identifier) (value : Value) (machine : Machine) :
    assign scope name value machine = match machine.store.resolve? name.name scope with
      | some target => .ok () (machine.define target name.name value)
      | none => .error (.raised ⟨.undefined name.name, name.line⟩) machine := by
  rw [assign, bind_apply]
  change (match machine.store.resolve? name.name scope with
    | some target => define target name.name value
    | none => raise (.undefined name.name) name.line : Run Unit) machine = _
  cases machine.store.resolve? name.name scope <;> rfl

/-- From a machine, the run comes to an outcome and leaves a machine behind. -/
def Ends (run : Run α) (before : Machine) : Outcome α → Machine → Prop
  | .ok value, after => run before = .ok value after
  | .error error, after => run before = .error (.raised error) after

section
variable {before after : Machine} {outcome : Outcome β}

theorem Ends.unique {run : Run β} {other : Outcome β} {final : Machine}
    (h : run.Ends before outcome after) (hother : run.Ends before other final) :
    outcome = other ∧ after = final := by
  cases outcome <;> cases other <;> simp_all [Ends]

/-- A run that comes to an outcome has no fault. -/
theorem Ends.ne_fault {run : Run β} (h : run.Ends before outcome after) {fault : Fault}
    {final : Machine} : run before ≠ .error (.fault fault) final := by
  cases outcome <;> simp_all [Ends]

theorem ends_pure {value : β} :
    (pure value : Run β).Ends before outcome after ↔ outcome = .ok value ∧ after = before := by
  cases outcome <;> simp [Ends, pure, EStateM.pure, eq_comm]

theorem ends_raise {cause : RuntimeError.Cause} {line : Nat} :
    (raise cause line : Run β).Ends before outcome after ↔
      outcome = .error ⟨cause, line⟩ ∧ after = before := by
  have hrun : (raise cause line : Run β) before = .error (.raised ⟨cause, line⟩) before := rfl
  cases outcome <;> simp [Ends, hrun, eq_comm]

theorem not_ends_fail {fault : Fault} : ¬ (fail fault : Run β).Ends before outcome after := by
  have hrun : (fail fault : Run β) before = .error (.fault fault) before := rfl
  cases outcome <;> simp [Ends, hrun]

theorem ends_ofExcept {line : Nat} {result : Except RuntimeError.Cause β} :
    (ofExcept line result).Ends before outcome after ↔
      outcome = result.mapError (⟨·, line⟩) ∧ after = before := by
  cases result with
  | ok value => exact ends_pure
  | error cause => exact ends_raise

theorem ends_ofExcept_raised {line : Nat} {result : Except RuntimeError.Cause β}
    {error : RuntimeError} : (ofExcept line result).Ends before (.error error) after ↔
      ∃ cause, result = .error cause ∧ error = ⟨cause, line⟩ ∧ after = before := by
  rw [ends_ofExcept]
  cases result <;> simp [Except.mapError]

/-- Of two runs in a row, either both have an outcome or an error in the first one cuts off the
second. -/
theorem ends_bind {run : Run α} {next : α → Run β} :
    (run >>= next).Ends before outcome after ↔
      (∃ value between, run.Ends before (.ok value) between ∧
        (next value).Ends between outcome after) ∨
      ∃ error, run.Ends before (.error error) after ∧ outcome = .error error := by
  have hbind := bind_apply run next before
  cases hrun : run before with
  | ok value between =>
    rw [hrun] at hbind
    cases outcome <;> simp [Ends, hbind, hrun]
  | error interrupt between =>
    rw [hrun] at hbind
    cases outcome <;> cases interrupt <;> simp [Ends, hbind, hrun, and_comm, eq_comm]

theorem Ends.bind {run : Run α} {next : α → Run β} {value : α} {between : Machine}
    (first : run.Ends before (.ok value) between) (second : (next value).Ends between outcome after) :
    (run >>= next).Ends before outcome after :=
  ends_bind.2 (.inl ⟨value, between, first, second⟩)

theorem Ends.bindRaised {run : Run α} {next : α → Run β} {error : RuntimeError}
    (h : run.Ends before (.error error) after) : (run >>= next).Ends before (.error error) after :=
  ends_bind.2 (.inr ⟨error, h, rfl⟩)

theorem ends_bind_raised {run : Run α} {next : α → Run β} {error : RuntimeError} :
    (run >>= next).Ends before (.error error) after ↔ run.Ends before (.error error) after ∨
      ∃ value between, run.Ends before (.ok value) between ∧
        (next value).Ends between (.error error) after := by
  rw [ends_bind, or_comm]
  refine or_congr_left ⟨?_, fun h => ⟨error, h, rfl⟩⟩
  rintro ⟨other, h, ⟨⟩⟩
  exact h

theorem ends_bind_pure {run : Run α} {f : α → β} :
    (run >>= fun value => pure (f value)).Ends before outcome after ↔
      ∃ first : Outcome α, run.Ends before first after ∧ outcome = first.map f := by
  rw [ends_bind]
  constructor
  · rintro (⟨value, between, hrun, hpure⟩ | ⟨error, hrun, rfl⟩)
    · obtain ⟨rfl, rfl⟩ := ends_pure.1 hpure
      exact ⟨_, hrun, rfl⟩
    · exact ⟨_, hrun, rfl⟩
  · rintro ⟨value | value, hrun, rfl⟩
    · exact .inr ⟨value, hrun, rfl⟩
    · exact .inl ⟨value, after, hrun, ends_pure.2 ⟨rfl, rfl⟩⟩

/-! ### Steps that always yield a value -/

theorem ends_modifyGet {change : Machine → β × Machine} :
    (modifyGet change : Run β).Ends before outcome after ↔
      outcome = .ok (change before).1 ∧ after = (change before).2 := by
  have hrun : (modifyGet change : Run β) before = .ok (change before).1 (change before).2 := rfl
  cases outcome <;> simp [Ends, hrun, eq_comm]

theorem ends_get_bind {next : Machine → Run β} :
    (get >>= next).Ends before outcome after ↔ (next before).Ends before outcome after :=
  Iff.rfl.trans (by cases outcome <;> rfl)

/-- A step that always yields a value may be left out. -/
theorem ends_modifyGet_bind {change : Machine → α × Machine} {next : α → Run β} :
    ((modifyGet change : Run α) >>= next).Ends before outcome after ↔
      (next (change before).1).Ends (change before).2 outcome after := by
  cases outcome <;> rfl

end

section
variable {before after : Machine}

theorem ends_print_bind {value : Value} {next : Unit → Run β} {outcome : Outcome β} :
    (print value.render >>= next).Ends before outcome after ↔
      (next ()).Ends (before.print value) outcome after :=
  ends_modifyGet_bind

theorem ends_define {scope : ScopeId} {name : String} {value : Value} {outcome : Outcome Unit} :
    (define scope name value).Ends before outcome after ↔
      outcome = .ok () ∧ after = before.define scope name value :=
  ends_modifyGet

theorem ends_define_bind {scope : ScopeId} {name : String} {value : Value} {next : Unit → Run β}
    {outcome : Outcome β} : (define scope name value >>= next).Ends before outcome after ↔
      (next ()).Ends (before.define scope name value) outcome after :=
  ends_modifyGet_bind

theorem ends_newScope_bind {parent : ScopeId} {next : ScopeId → Run β} {outcome : Outcome β} :
    (newScope (some parent) >>= next).Ends before outcome after ↔
      (next before.newest).Ends (before.enter parent) outcome after :=
  ends_modifyGet_bind

theorem ends_bindAll {scope : ScopeId} {parameters : List Identifier} {arguments : List Value} :
    ∀ {before : Machine} {outcome : Outcome Unit},
      (bindAll scope parameters arguments).Ends before outcome after ↔
        outcome = .ok () ∧ after = before.bindAll scope (parameters.zip arguments) := by
  induction parameters generalizing arguments with
  | nil => exact ends_pure
  | cons parameter parameters ih =>
    cases arguments with
    | nil => exact ends_pure
    | cons argument arguments => exact ends_define_bind.trans ih

/-- The body of a call sees one call more. -/
theorem ends_asCall {body : Run β} {outcome : Outcome β} :
    (asCall body).Ends before outcome after ↔ ∃ final,
      body.Ends { before with callDepth := before.callDepth + 1 } outcome final ∧
        after = { final with callDepth := final.callDepth - 1 } := by
  cases hrun : body { before with callDepth := before.callDepth + 1 } with
  | ok value final => cases outcome <;> simp [Ends, asCall, hrun, and_comm, eq_comm]
  | error interrupt final =>
    cases outcome <;> cases interrupt <;> simp [Ends, asCall, hrun, and_comm, eq_comm]

end

end Run

end Lox
