import Lox.Proofs.Eval.Hereditary

/-!
# Active calls

Every run leaves as many calls active as there were before, however it ends. So at every moment
there are as many as bodies of functions have been entered and not been left, and a call fails for
want of a level just if all of them are taken at that moment.
-/

namespace Lox

namespace Run

variable {α β : Type}

/-- However the run ends, as many calls are active as before. A value that it yields is good. -/
def Balanced (run : Run α) (good : α → Prop) : Prop :=
  ∀ machine, match run machine with
    | .ok value after => after.callDepth = machine.callDepth ∧ good value
    | .error _ after => after.callDepth = machine.callDepth

section
variable {run : Run α} {good : α → Prop} {fine : β → Prop}

theorem Balanced.callDepth_finalState (h : run.Balanced good) (machine : Machine) :
    (finalState (run machine)).callDepth = machine.callDepth := by
  have hrun := h machine
  split at hrun
  · rename_i heq
    rw [heq]
    exact hrun.1
  · rename_i heq
    rw [heq]
    exact hrun

theorem Balanced.callDepth_eq (h : run.Balanced good) {before after : Machine}
    {outcome : Outcome α} (hends : run.Ends before outcome after) :
    after.callDepth = before.callDepth := by
  rw [← h.callDepth_finalState before]
  cases outcome with
  | ok value => exact congrArg (fun result => (finalState result).callDepth) (Eq.symm hends)
  | error error => exact congrArg (fun result => (finalState result).callDepth) (Eq.symm hends)

theorem Balanced.bind {next : α → Run β} (first : run.Balanced good)
    (second : ∀ value, good value → (next value).Balanced fine) : (run >>= next).Balanced fine := by
  intro machine
  have hfirst := first machine
  rw [bind_apply]
  cases hrun : run machine with
  | ok value between =>
    rw [hrun] at hfirst
    have hsecond := second value hfirst.2 between
    rwa [hfirst.1] at hsecond
  | error interrupt between =>
    rw [hrun] at hfirst
    exact hfirst

theorem Balanced.ite {condition : Prop} [Decidable condition] {other : Run α}
    (h : run.Balanced good) (hother : other.Balanced good) :
    (if condition then run else other).Balanced good := by
  split
  · exact h
  · exact hother

/-- The level that a call takes is given back, also where the body is cut off. -/
theorem Balanced.asCall (h : run.Balanced good) : (asCall run).Balanced good := by
  intro machine
  have hbody := h { machine with callDepth := machine.callDepth + 1 }
  rw [Run.asCall]
  cases hrun : run { machine with callDepth := machine.callDepth + 1 } with
  | ok value after =>
    rw [hrun] at hbody
    exact ⟨Nat.sub_eq_of_eq_add hbody.1, hbody.2⟩
  | error interrupt after =>
    rw [hrun] at hbody
    exact Nat.sub_eq_of_eq_add hbody

end

theorem balanced_lookup (scope : ScopeId) (name : Identifier) :
    (lookup scope name).Balanced (Value.Within fun _ => True) := by
  intro machine
  rw [lookup_apply]
  cases machine.store.value? name.name scope with
  | some value => exact ⟨rfl, value.within_of_forall fun _ => trivial⟩
  | none => rfl

theorem balanced_assign (scope : ScopeId) (name : Identifier) (value : Value) :
    (assign scope name value).Balanced fun _ => True := by
  intro machine
  rw [assign_apply]
  cases machine.store.resolve? name.name scope with
  | some target => exact ⟨rfl, trivial⟩
  | none => rfl

theorem hereditary_balanced : Hereditary (fun _ => True) Balanced where
  pure h := fun _ => ⟨rfl, h⟩
  bind := Balanced.bind
  raise _ _ := fun _ => rfl
  fail _ := fun _ => rfl
  lookup name _ := balanced_lookup _ name
  assign name value _ _ := balanced_assign _ name value
  define _ _ _ _ := fun _ => ⟨rfl, trivial⟩
  newScope _ := fun _ => ⟨rfl, trivial⟩
  newIdentity := fun _ => ⟨rfl, trivial⟩
  print _ := fun _ => ⟨rfl, trivial⟩
  readClock := fun _ => ⟨rfl, trivial⟩
  dependent hfull hroom := fun machine => hfull.ite hroom machine
  asCall := Balanced.asCall

end Run

namespace Task

open Run

/-- However a task ends, as many calls are active as before. -/
theorem balanced (fuel : Nat) (task : Task) :
    (task.run fuel).Balanced (task.Yields fun _ => True) :=
  hereditary_balanced.task fuel task (task.within_of_forall fun _ => trivial)

/-! ### Moments -/

/-- No call becomes active or ends where a task starts another one. -/
theorem Starts.callDepth_eq {fuel : Nat} {task sub : Task} {machine between : Machine}
    (h : task.Starts fuel machine sub between) : between.callDepth = machine.callDepth := by
  have hnode {nodes : Array Node} {scope : ScopeId} {index : Nat} {before after : Machine}
      {value : Value}
      (hended : (evaluateNode fuel nodes scope index).Ends before (.ok value) after) :
      after.callDepth = before.callDepth :=
    (balanced fuel (.node nodes scope index)).callDepth_eq hended
  cases h with
  | operand | head | expression | block | loop | first | condition => rfl
  | binaryRight _ ended | logicalRight _ ended _ | arguments _ ended _ | tail ended
  | success ended _ | branch ended | round ended _ => exact hnode ended
  | call _ ended _ endedAll =>
    exact ((balanced fuel (.nodes _ _ _)).callDepth_eq endedAll).trans (hnode ended)
  | later ended => exact (balanced fuel (.statement _ _)).callDepth_eq ended
  | again ended _ endedBody =>
    exact ((balanced fuel (.statement _ _)).callDepth_eq endedBody).trans (hnode ended)

theorem Starts.counted {fuel : Nat} {task sub : Task} {machine between : Machine}
    (h : task.Starts fuel machine sub between) : sub.Counted := by
  cases h with
  | call _ _ arity _ => exact arity
  | _ => trivial

section
variable {fuel left : Nat} {task last : Task} {machine further : Machine} {active : List Function}

theorem Reaches.counted (h : task.Reaches fuel machine active left last further)
    (hcounted : task.Counted) : last.Counted := by
  induction h with
  | here => exact hcounted
  | within starts _ ih => exact ih starts.counted
  | into _ _ ih => exact ih trivial

theorem Reaches.callDepth_eq (h : task.Reaches fuel machine active left last further) :
    further.callDepth = machine.callDepth + active.length := by
  induction h with
  | here => rfl
  | within starts _ ih => rw [ih, starts.callDepth_eq]
  | @into _ _ _ declared arguments _ machine _ active _ _ ih =>
    have hcalled : (machine.called declared arguments).callDepth = machine.callDepth + 1 := rfl
    rw [ih, hcalled, List.length_cons, Nat.add_assoc, Nat.add_comm 1]

/-- No body is entered that would make for more active calls than there may be. -/
theorem Reaches.callDepth_le (h : task.Reaches fuel machine active left last further)
    (hle : machine.callDepth ≤ maxCallDepth) : further.callDepth ≤ maxCallDepth := by
  induction h with
  | here => exact hle
  | within starts _ ih => exact ih (starts.callDepth_eq ▸ hle)
  | into room _ ih => exact ih room

end

/-! ### Errors -/

section
variable {fuel left : Nat} {task last : Task} {before machine after : Machine}
  {active : List Function} {error : RuntimeError}

/-- An error of a task that is reached ends the whole run, and of all that is on the way back only
the active calls are changed. -/
theorem Reaches.ends (h : task.Reaches fuel before active left last machine)
    (hends : (last.run left).Ends machine (.error error) after) :
    (task.run fuel).Ends before (.error error) { after with callDepth := before.callDepth } := by
  induction h with
  | @here _ task machine =>
    have hdepth := (balanced _ task).callDepth_eq hends
    rw [← hdepth]
    exact hends
  | within starts _ ih =>
    rw [← starts.callDepth_eq]
    exact starts.raised (ih hends)
  | @into fuel _ line declared arguments _ machine _ _ room _ ih =>
    exact ends_call_function.2 (.inr ⟨room, _, _, ih hends, rfl, rfl⟩)

theorem Reaches.exists_of_ends :
    ∀ {fuel : Nat} {task : Task} {before after : Machine},
      (task.run fuel).Ends before (.error error) after →
      ∃ active left last machine final, task.Reaches fuel before active (left + 1) last machine ∧
        last.Raises left machine error final ∧
          after = { final with callDepth := before.callDepth } := by
  intro fuel
  induction fuel with
  | zero => exact fun h => absurd h not_ends_zero
  | succ fuel ih =>
    intro task before after h
    have hdepth := (balanced _ task).callDepth_eq h
    cases origin_of_ends h with
    | own raises =>
      refine ⟨[], fuel, task, before, after, .here, raises, ?_⟩
      rw [← hdepth]
    | started starts ends =>
      obtain ⟨active, left, last, machine, final, hreaches, hraises, hafter⟩ := ih ends
      refine ⟨active, left, last, machine, final, .within starts hreaches, hraises, ?_⟩
      rw [hafter, starts.callDepth_eq]
    | @entered declared arguments line final calls room ends leaves =>
      subst calls
      have hbody : ((Task.statements before.newest declared.body).run fuel).Ends
          (before.called declared arguments) (.error error) final := ends
      obtain ⟨active, left, last, machine, raised, hreaches, hraises, hfinal⟩ := ih hbody
      refine ⟨declared :: active, left, last, machine, raised, .into room hreaches, hraises, ?_⟩
      rw [leaves, hfinal]
      rfl

/-- A run ends with an error just if it comes to a task that raises it by itself. -/
theorem ends_raised_iff : (task.run fuel).Ends before (.error error) after ↔
    ∃ active left last machine final, task.Reaches fuel before active (left + 1) last machine ∧
      last.Raises left machine error final ∧
        after = { final with callDepth := before.callDepth } := by
  refine ⟨Reaches.exists_of_ends, ?_⟩
  rintro ⟨active, left, last, machine, final, hreaches, hraises, rfl⟩
  exact hreaches.ends hraises.ends

end

/-! ### The last level -/

theorem raises_stackOverflow_iff {fuel line : Nat} {task : Task} {machine after : Machine} :
    task.Raises fuel machine ⟨.stackOverflow, line⟩ after ↔
      ∃ declared arguments, task = .call (.function declared) arguments line ∧
        maxCallDepth ≤ machine.callDepth ∧ after = machine := by
  constructor
  · intro h
    cases h with
    | unary _ _ fails =>
      -- No operator fails for want of a level.
      cases UnaryOperator.gives_iff.2 fails
    | binary _ _ _ fails => cases BinaryOperator.gives_iff.2 fails
    | @stackOverflow declared arguments _ _ full => exact ⟨declared, arguments, rfl, full, rfl⟩
  · rintro ⟨declared, arguments, rfl, hfull, rfl⟩
    exact .stackOverflow hfull

/-- A run ends with a stack overflow just if it comes to the call of a function, with as many
arguments as it takes, while all levels are taken. The line is that of the call, and the machine is
the one of that moment, up to the active calls. -/
theorem ends_stackOverflow_iff {fuel line : Nat} {task : Task} {before after : Machine}
    (hcounted : task.Counted) (hle : before.callDepth ≤ maxCallDepth) :
    (task.run fuel).Ends before (.error ⟨.stackOverflow, line⟩) after ↔
      ∃ active left declared arguments machine, task.Reaches fuel before active (left + 1)
          (.call (.function declared) arguments line) machine ∧
        arguments.length = declared.parameters.length ∧
        before.callDepth + active.length = maxCallDepth ∧
        after = { machine with callDepth := before.callDepth } := by
  rw [ends_raised_iff]
  constructor
  · rintro ⟨active, left, last, machine, final, hreaches, hraises, rfl⟩
    obtain ⟨declared, arguments, rfl, hfull, rfl⟩ := raises_stackOverflow_iff.1 hraises
    have hlength := Option.some.inj (hreaches.counted hcounted)
    have hdepth := Nat.le_antisymm (hreaches.callDepth_le hle) hfull
    exact ⟨active, left, declared, arguments, final, hreaches, hlength.symm,
      hreaches.callDepth_eq.symm.trans hdepth, rfl⟩
  · rintro ⟨active, left, declared, arguments, machine, hreaches, -, hfull, rfl⟩
    refine ⟨active, left, _, machine, machine, hreaches, .stackOverflow ?_, rfl⟩
    exact Nat.le_of_eq (hreaches.callDepth_eq.trans hfull).symm

end Task

end Lox
