import Mathlib
import Lox.Proofs.Eval.Hereditary

/-!
# Closures encapsulate their scopes

What is run uses the scopes that can be come to from where it begins, and those that it adds, and no
others: it changes no others, hands out no others, and would do the same whatever were in them. The
proof compares two runs in machines that agree in a region of the store, and the region is closed
all the time, since a run only puts into it what it found there.
-/

namespace Lox

/-! ### Machines that agree in a region -/

/-- The machines have the same scopes in the region, and as many outside of it. Everything else in
them is the same. -/
structure Machine.Agrees (region : ScopeId → Prop) (machine twin : Machine) : Prop where
  size_eq : twin.store.scopes.size = machine.store.scopes.size
  scopes_eq : ∀ {scope : ScopeId}, region scope →
    twin.store.scopes[scope]? = machine.store.scopes[scope]?
  nextIdentity_eq : twin.nextIdentity = machine.nextIdentity
  callDepth_eq : twin.callDepth = machine.callDepth
  output_eq : twin.output = machine.output
  clock_eq : twin.clock = machine.clock

/-- Nothing leads out of the region, and all scopes that will be added are to lie in it. -/
structure Machine.Fenced (region : ScopeId → Prop) (machine : Machine) : Prop where
  closed : machine.store.Closed region
  added : ∀ scope, machine.store.scopes.size ≤ scope → region scope

/-- No scope was taken away, and outside of the region none was changed. -/
structure Machine.Leaves (region : ScopeId → Prop) (before after : Machine) : Prop where
  size_le : before.store.scopes.size ≤ after.store.scopes.size
  scopes_eq : ∀ {scope : ScopeId}, ¬ region scope →
    after.store.scopes[scope]? = before.store.scopes[scope]?

/-- Two runs come to the same value or are interrupted by the same error, and what they leave agrees
in the region. -/
inductive Run.Alike {α : Type} (region : ScopeId → Prop) :
    EStateM.Result Interrupt Machine α → EStateM.Result Interrupt Machine α → Prop where
  | ok {value : α} {after other : Machine} (agrees : after.Agrees region other) :
    Alike region (.ok value after) (.ok value other)
  | error {interrupt : Interrupt} {after other : Machine} (agrees : after.Agrees region other) :
    Alike region (.error interrupt after) (.error interrupt other)

section
variable {region : ScopeId → Prop} {machine twin : Machine}

theorem Machine.Agrees.refl (machine : Machine) : machine.Agrees region machine :=
  ⟨rfl, fun _ => rfl, rfl, rfl, rfl, rfl⟩

theorem Machine.Leaves.refl (machine : Machine) : machine.Leaves region machine :=
  ⟨Nat.le_refl _, fun _ => rfl⟩

theorem Machine.Leaves.trans {between after : Machine} (h : machine.Leaves region between)
    (hmore : between.Leaves region after) : machine.Leaves region after :=
  ⟨Nat.le_trans h.size_le hmore.size_le, fun hscope =>
    (hmore.scopes_eq hscope).trans (h.scopes_eq hscope)⟩

theorem Machine.Fenced.define (h : machine.Fenced region) {scope : ScopeId} {name : String}
    {value : Value} (hvalue : value.Within region) :
    (machine.define scope name value).Fenced region where
  closed := h.closed.define hvalue
  added other hle := h.added other (Nat.le_trans (machine.grows_define ..).size_le hle)

theorem Machine.Leaves.define {scope : ScopeId} (hscope : region scope) (name : String)
    (value : Value) : machine.Leaves region (machine.define scope name value) where
  size_le := (machine.grows_define ..).size_le
  scopes_eq {other} hother := by
    have hne : scope ≠ other := fun heq => hother (heq ▸ hscope)
    rw [store_define, Store.define, Array.getElem?_modify, if_neg hne]

theorem Machine.Agrees.define (h : machine.Agrees region twin) (scope : ScopeId) (name : String)
    (value : Value) :
    (machine.define scope name value).Agrees region (twin.define scope name value) where
  size_eq := by rw [store_define, store_define, Store.size_define, Store.size_define, h.size_eq]
  scopes_eq {other} hother := by
    rw [store_define, store_define, Store.define, Store.define, Array.getElem?_modify,
      Array.getElem?_modify, h.scopes_eq hother]
  nextIdentity_eq := h.nextIdentity_eq
  callDepth_eq := h.callDepth_eq
  output_eq := h.output_eq
  clock_eq := h.clock_eq

theorem Machine.Fenced.enter (h : machine.Fenced region) {parent : ScopeId}
    (hparent : region parent) : (machine.enter parent).Fenced region where
  closed := h.closed.add hparent
  added scope hle := h.added scope (Nat.le_trans (machine.grows_enter parent).size_le hle)

theorem Machine.Leaves.enter (h : machine.Fenced region) (parent : ScopeId) :
    machine.Leaves region (machine.enter parent) where
  size_le := (machine.grows_enter parent).size_le
  scopes_eq {scope} hscope := by
    have hlt : scope < machine.store.scopes.size :=
      Nat.not_le.1 fun hle => hscope (h.added scope hle)
    exact Array.getElem?_push_lt hlt |>.trans (Array.getElem?_eq_getElem hlt).symm

theorem Machine.Agrees.enter (h : machine.Agrees region twin) (parent : ScopeId) :
    (machine.enter parent).Agrees region (twin.enter parent) where
  size_eq := by
    rw [size_enter, size_enter]
    exact congrArg (· + 1) h.size_eq
  scopes_eq {scope} hscope := by
    change (twin.store.scopes.push _)[scope]? = (machine.store.scopes.push _)[scope]?
    rw [Array.getElem?_push, Array.getElem?_push, h.size_eq, h.scopes_eq hscope]
  nextIdentity_eq := h.nextIdentity_eq
  callDepth_eq := h.callDepth_eq
  output_eq := h.output_eq
  clock_eq := h.clock_eq

end

/-! ### Runs in a region -/

namespace Run

variable {α β : Type} {region : ScopeId → Prop}

/-- What becomes of a machine and of one that agrees with it. -/
inductive Ended (region : ScopeId → Prop) (good : α → Prop) (machine : Machine) :
    EStateM.Result Interrupt Machine α → EStateM.Result Interrupt Machine α → Prop where
  | ok {value : α} {after other : Machine} (fenced : after.Fenced region)
      (leaves : machine.Leaves region after) (agrees : after.Agrees region other)
      (yields : good value) : Ended region good machine (.ok value after) (.ok value other)
  | error {interrupt : Interrupt} {after other : Machine} (fenced : after.Fenced region)
      (leaves : machine.Leaves region after) (agrees : after.Agrees region other) :
    Ended region good machine (.error interrupt after) (.error interrupt other)

/-- The run stays in the region, and what it yields is good. -/
def Confined (region : ScopeId → Prop) (run : Run α) (good : α → Prop) : Prop :=
  ∀ {machine twin : Machine}, machine.Fenced region → machine.Agrees region twin →
    Ended region good machine (run machine) (run twin)

section
variable {run : Run α} {good : α → Prop} {fine : β → Prop}

theorem Confined.bind {next : α → Run β} (first : Confined region run good)
    (second : ∀ value, good value → Confined region (next value) fine) :
    Confined region (run >>= next) fine := by
  intro machine twin hfenced hagrees
  have hfirst := first hfenced hagrees
  rw [bind_apply, bind_apply]
  generalize run machine = ending, run twin = other at hfirst
  cases hfirst with
  | error fenced leaves agrees => exact .error fenced leaves agrees
  | @ok value between beside fenced leaves agrees hgood =>
    have hsecond := second value hgood fenced agrees
    change Ended region fine machine (next value between) (next value beside)
    generalize next value between = ending, next value beside = other at hsecond
    cases hsecond with
    | ok fenced more agrees hfine => exact .ok fenced (leaves.trans more) agrees hfine
    | error fenced more agrees => exact .error fenced (leaves.trans more) agrees

theorem Confined.asCall (h : Confined region run good) : Confined region (asCall run) good := by
  intro machine twin hfenced hagrees
  have hcalled : ({ machine with callDepth := machine.callDepth + 1 } : Machine).Agrees region
      { twin with callDepth := twin.callDepth + 1 } :=
    { hagrees with callDepth_eq := congrArg (· + 1) hagrees.callDepth_eq }
  have hentered : ({ machine with callDepth := machine.callDepth + 1 } : Machine).Fenced region :=
    ⟨hfenced.closed, hfenced.added⟩
  have hbody := h hentered hcalled
  rw [Run.asCall, Run.asCall]
  generalize run { machine with callDepth := machine.callDepth + 1 } = ending,
    run { twin with callDepth := twin.callDepth + 1 } = other at hbody
  cases hbody with
  | ok fenced leaves agrees hgood =>
    exact .ok ⟨fenced.closed, fenced.added⟩ ⟨leaves.size_le, leaves.scopes_eq⟩
      { agrees with callDepth_eq := congrArg (· - 1) agrees.callDepth_eq } hgood
  | error fenced leaves agrees =>
    exact .error ⟨fenced.closed, fenced.added⟩ ⟨leaves.size_le, leaves.scopes_eq⟩
      { agrees with callDepth_eq := congrArg (· - 1) agrees.callDepth_eq }

theorem Confined.dependent {other : Run α} (h : Confined region run good)
    (hother : Confined region other good) : Confined region (get >>= fun machine =>
      if maxCallDepth ≤ machine.callDepth then run else other) good := by
  intro machine twin hfenced hagrees
  change Ended region good machine
    ((if maxCallDepth ≤ machine.callDepth then run else other) machine)
    ((if maxCallDepth ≤ twin.callDepth then run else other) twin)
  rw [hagrees.callDepth_eq]
  split
  · exact h hfenced hagrees
  · exact hother hfenced hagrees

end

theorem Ended.alike {good : α → Prop} {machine : Machine}
    {ending other : EStateM.Result Interrupt Machine α}
    (h : Ended region good machine ending other) : Alike region ending other := by
  cases h with
  | ok _ _ agrees => exact .ok agrees
  | error _ _ agrees => exact .error agrees

theorem confined_lookup {scope : ScopeId} (hscope : region scope) (name : Identifier) :
    Confined region (lookup scope name) (Value.Within region) := by
  intro machine twin hfenced hagrees
  rw [lookup_apply, lookup_apply, hfenced.closed.value?_eq hagrees.scopes_eq hscope]
  cases hvalue : machine.store.value? name.name scope with
  | none => exact .error hfenced (.refl machine) hagrees
  | some value =>
    exact .ok hfenced (.refl machine) hagrees (hfenced.closed.within_of_value? hscope hvalue)

theorem confined_define {scope : ScopeId} (hscope : region scope) (name : String) {value : Value}
    (hvalue : value.Within region) : Confined region (define scope name value) fun _ => True :=
  fun hfenced hagrees => .ok (hfenced.define hvalue) (.define hscope name value)
    (hagrees.define scope name value) trivial

theorem confined_assign {scope : ScopeId} (hscope : region scope) (name : Identifier)
    {value : Value} (hvalue : value.Within region) :
    Confined region (assign scope name value) fun _ => True := by
  intro machine twin hfenced hagrees
  rw [assign_apply, assign_apply, hfenced.closed.resolve?_eq hagrees.scopes_eq hscope]
  cases htarget : machine.store.resolve? name.name scope with
  | none => exact .error hfenced (.refl machine) hagrees
  | some target =>
    exact confined_define (hfenced.closed.region_of_resolve? hscope htarget) name.name hvalue
      hfenced hagrees

theorem confined_newScope {parent : ScopeId} (hparent : region parent) :
    Confined region (newScope (some parent)) region := by
  intro machine twin hfenced hagrees
  change Ended region region machine (.ok machine.newest (machine.enter parent))
    (.ok twin.newest (twin.enter parent))
  rw [show twin.newest = machine.newest from hagrees.size_eq]
  exact .ok (hfenced.enter hparent) (.enter hfenced parent) (hagrees.enter parent)
    (hfenced.added _ (Nat.le_refl _))

theorem confined_newIdentity : Confined region newIdentity fun _ => True := by
  intro machine twin hfenced hagrees
  change Ended region _ machine (.ok machine.nextIdentity { machine with
      nextIdentity := machine.nextIdentity + 1 })
    (.ok twin.nextIdentity { twin with nextIdentity := twin.nextIdentity + 1 })
  rw [hagrees.nextIdentity_eq]
  exact .ok ⟨hfenced.closed, hfenced.added⟩ ⟨Nat.le_refl _, fun _ => rfl⟩
    { hagrees with nextIdentity_eq := rfl } trivial

theorem confined_print (text : String) : Confined region (print text) fun _ => True :=
  fun hfenced hagrees => .ok ⟨hfenced.closed, hfenced.added⟩ ⟨Nat.le_refl _, fun _ => rfl⟩
    { hagrees with output_eq := congrArg (· ++ text ++ "\n") hagrees.output_eq } trivial

theorem confined_readClock : Confined region readClock fun _ => True := by
  intro machine twin hfenced hagrees
  change Ended region _ machine (.ok (machine.clock.reading machine.clock.taken) { machine with
      clock := { machine.clock with taken := machine.clock.taken + 1 } })
    (.ok (twin.clock.reading twin.clock.taken) { twin with
      clock := { twin.clock with taken := twin.clock.taken + 1 } })
  rw [hagrees.clock_eq]
  exact .ok ⟨hfenced.closed, hfenced.added⟩ ⟨Nat.le_refl _, fun _ => rfl⟩
    { hagrees with clock_eq := rfl } trivial

theorem hereditary_confined (region : ScopeId → Prop) : Hereditary region (Confined region) where
  pure h := fun hfenced hagrees => .ok hfenced (.refl _) hagrees h
  bind := Confined.bind
  raise _ _ := fun hfenced hagrees => .error hfenced (.refl _) hagrees
  fail _ := fun hfenced hagrees => .error hfenced (.refl _) hagrees
  lookup name hscope := confined_lookup hscope name
  assign name _ hscope hvalue := confined_assign hscope name hvalue
  define name _ hscope hvalue := confined_define hscope name hvalue
  newScope := confined_newScope
  newIdentity := confined_newIdentity
  print := confined_print
  readClock := confined_readClock
  dependent := Confined.dependent
  asCall := Confined.asCall

end Run

/-! ### What a task can come to -/

/-- A function leads to the scope that it was declared in. -/
def Value.Leads : Value → ScopeId → Prop
  | function declared, scope => declared.closure = scope
  | _, _ => False

theorem Value.within_iff {region : ScopeId → Prop} {value : Value} :
    value.Within region ↔ ∀ scope, value.Leads scope → region scope := by
  cases value with
  | function declared => exact ⟨fun h scope heq => heq ▸ h, fun h => h _ rfl⟩
  | _ => exact ⟨fun _ scope h => h.elim, fun _ => trivial⟩

namespace Task

/-- A task leads to the scopes that it is given. -/
def Leads : Task → ScopeId → Prop
  | node _ given _, scope | nodes _ given _, scope | statement given _, scope
  | statements given _, scope | loop given _ _, scope => given = scope
  | call callee arguments _, scope => ∃ value ∈ callee :: arguments, value.Leads scope

def ResultLeads : (task : Task) → task.Result → ScopeId → Prop
  | node .. | call .. => fun (value : Value) scope => value.Leads scope
  | nodes .. => fun (values : List Value) scope => ∃ value ∈ values, value.Leads scope
  | statement .. | statements .. | loop .. => fun (completion : Completion) scope =>
    completion.result.Leads scope

theorem within_of_leads {region : ScopeId → Prop} {task : Task}
    (h : ∀ scope, task.Leads scope → region scope) : task.Within region := by
  cases task with
  | call callee arguments =>
    refine ⟨Value.within_iff.2 fun scope hleads => h scope ⟨callee, List.mem_cons_self, hleads⟩, ?_⟩
    exact fun argument hmem => Value.within_iff.2 fun scope hleads =>
      h scope ⟨argument, List.mem_cons_of_mem _ hmem, hleads⟩
  | node | nodes | statement | statements | loop => exact h _ rfl

theorem Yields.region {region : ScopeId → Prop} {task : Task} {result : task.Result}
    (h : task.Yields region result) {scope : ScopeId} (hleads : task.ResultLeads result scope) :
    region scope := by
  cases task with
  | node | call | statement | statements | loop => exact Value.within_iff.1 h scope hleads
  | nodes =>
    obtain ⟨value, hmem, hleads⟩ := hleads
    exact Value.within_iff.1 (h value hmem) scope hleads

/-- The scopes that can be come to from those that the task is given. -/
def Region (task : Task) (store : Store) (scope : ScopeId) : Prop :=
  ∃ given, task.Leads given ∧ store.Reaches given scope

/-- These scopes and all that are added from now on. -/
def Fence (task : Task) (machine : Machine) (scope : ScopeId) : Prop :=
  task.Region machine.store scope ∨ machine.store.scopes.size ≤ scope

theorem fenced_fence (task : Task) (machine : Machine) : machine.Fenced (task.Fence machine) where
  closed := by
    have hfound {scope : ScopeId} {inner : Scope} (h : task.Fence machine scope)
        (hscope : machine.store.scopes[scope]? = some inner) : task.Region machine.store scope := by
      refine h.resolve_right fun hle => ?_
      rw [Array.getElem?_eq_none hle] at hscope
      cases hscope
    constructor
    · intro scope parent inner hfence hscope hinside
      obtain ⟨given, hleads, hreaches⟩ := hfound hfence hscope
      exact .inl ⟨given, hleads, hreaches.trans (.outside hscope hinside (.refl parent))⟩
    · intro scope inner name value hfence hscope hbound
      obtain ⟨given, hleads, hreaches⟩ := hfound hfence hscope
      cases value with
      | function declared =>
        exact .inl ⟨given, hleads, hreaches.trans (.function hscope hbound (.refl _))⟩
      | _ => trivial
  added _ := .inr

theorem within_fence (task : Task) (machine : Machine) : task.Within (task.Fence machine) :=
  within_of_leads fun scope hleads => .inl ⟨scope, hleads, .refl scope⟩

theorem agrees_fence {task : Task} {machine twin : Machine}
    (h : machine.Agrees (task.Region machine.store) twin) :
    machine.Agrees (task.Fence machine) twin :=
  { h with
    scopes_eq := by
      rintro scope (hregion | hle)
      · exact h.scopes_eq hregion
      · rw [Array.getElem?_eq_none hle, Array.getElem?_eq_none (h.size_eq ▸ hle)] }

theorem ended_run (task : Task) {machine twin : Machine}
    (h : machine.Agrees (task.Region machine.store) twin) (fuel : Nat) :
    Run.Ended (task.Fence machine) (task.Yields (task.Fence machine)) machine
      (task.run fuel machine) (task.run fuel twin) :=
  (Run.hereditary_confined _).task fuel task (task.within_fence machine)
    (task.fenced_fence machine) (agrees_fence h)

section
variable {task : Task} {machine after : Machine} {fuel : Nat}
  (hafter : finalState (task.run fuel machine) = after)
include hafter

theorem leaves_of_finalState :
    after.Fenced (task.Fence machine) ∧ machine.Leaves (task.Fence machine) after := by
  have hended := ended_run task (.refl machine) fuel
  generalize task.run fuel machine = ending at hended hafter
  subst hafter
  cases hended with
  | ok fenced leaves | error fenced leaves => exact ⟨fenced, leaves⟩

/-- Scopes that the task cannot come to are left as they were. -/
theorem scopes_eq_of_not_region {scope : ScopeId} (hlt : scope < machine.store.scopes.size)
    (h : ¬ task.Region machine.store scope) :
    after.store.scopes[scope]? = machine.store.scopes[scope]? :=
  (leaves_of_finalState hafter).2.scopes_eq (not_or.2 ⟨h, Nat.not_le.2 hlt⟩)

/-- What can be come to afterwards could be come to before, or was added. -/
theorem fence_of_reaches {given target : ScopeId}
    (hgiven : task.Leads given ∨ ∃ result, task.run fuel machine = .ok result after ∧
      task.ResultLeads result given) (hreaches : after.store.Reaches given target) :
    task.Fence machine target := by
  refine hreaches.stays (leaves_of_finalState hafter).1.closed ?_
  rcases hgiven with hleads | ⟨result, hrun, hleads⟩
  · exact .inl ⟨given, hleads, .refl given⟩
  · have hended := ended_run task (.refl machine) fuel
    rw [hrun] at hended
    cases hended with
    | ok _ _ _ yields => exact yields.region hleads

variable {other : Task} (hother : ∀ scope, other.Region machine.store scope →
  scope < machine.store.scopes.size ∧ (task.Region machine.store scope →
    after.store.scopes[scope]? = machine.store.scopes[scope]?))
include hother

/-- Where shared scopes are left as they were, so is all that the other task can come to. -/
theorem scopes_eq_of_apart {scope : ScopeId} (hscope : other.Region machine.store scope) :
    after.store.scopes[scope]? = machine.store.scopes[scope]? := by
  obtain ⟨hlt, hshared⟩ := hother scope hscope
  by_cases hregion : task.Region machine.store scope
  · exact hshared hregion
  · exact scopes_eq_of_not_region hafter hlt hregion

theorem region_iff_of_apart {scope : ScopeId} :
    other.Region after.store scope ↔ other.Region machine.store scope :=
  exists_congr fun given => and_congr_right fun hleads =>
    Store.reaches_congr fun _ hbetween =>
      scopes_eq_of_apart hafter hother ⟨given, hleads, hbetween⟩

end

/-- A task is confined to the scopes that it can come to. However it ends, it leaves the other ones
as they were; what can be come to afterwards from the scopes that it was given, or from its result,
could be come to before or was added by it; and it ends alike, with the same text printed, in a
machine in which the other scopes are altered. So it has no influence on a task that can come to no
scope that it has changed, be it that they share none or that it has only looked at these: that one
can come to the same scopes as before, finds in them what was there before, and ends alike whatever
is in the others. -/
theorem encapsulated {task : Task} {machine after : Machine} {fuel : Nat}
    (hafter : finalState (task.run fuel machine) = after) :
    (∀ scope < machine.store.scopes.size, ¬ task.Region machine.store scope →
      after.store.scopes[scope]? = machine.store.scopes[scope]?) ∧
    (∀ given target, (task.Leads given ∨ ∃ result, task.run fuel machine = .ok result after ∧
        task.ResultLeads result given) → after.store.Reaches given target →
      task.Region machine.store target ∨ machine.store.scopes.size ≤ target) ∧
    (∀ twin, machine.Agrees (task.Region machine.store) twin →
      Run.Alike (task.Fence machine) (task.run fuel machine) (task.run fuel twin)) ∧
    ∀ other : Task, (∀ scope, other.Region machine.store scope →
        scope < machine.store.scopes.size ∧ (task.Region machine.store scope →
          after.store.scopes[scope]? = machine.store.scopes[scope]?)) →
      (∀ scope, other.Region machine.store scope →
        after.store.scopes[scope]? = machine.store.scopes[scope]?) ∧
      (∀ scope, other.Region after.store scope ↔ other.Region machine.store scope) ∧
      ∀ more twin, after.Agrees (other.Region machine.store) twin →
        Run.Alike (other.Fence after) (other.run more after) (other.run more twin) := by
  refine ⟨fun scope => scopes_eq_of_not_region hafter,
    fun given target => fence_of_reaches hafter,
    fun twin hagrees => (ended_run task hagrees fuel).alike, fun other hother => ?_⟩
  have hregion (scope : ScopeId) :
      other.Region after.store scope ↔ other.Region machine.store scope :=
    region_iff_of_apart hafter hother
  refine ⟨fun scope => scopes_eq_of_apart hafter hother, hregion, fun more twin hagrees => ?_⟩
  have hsame : after.Agrees (other.Region after.store) twin :=
    { hagrees with scopes_eq := fun {scope} h => hagrees.scopes_eq ((hregion scope).1 h) }
  exact (ended_run other hsame more).alike

/-- Two scopes in a third one, with a variable of the same name. -/
private def twoScopes : Machine where
  store := ⟨#[⟨none, []⟩, ⟨some 0, [("i", .nil)]⟩, ⟨some 0, [("i", .nil)]⟩]⟩
  clock := { reading := fun _ => 0 }

/-- A function that was declared in a scope and sets the variable there. -/
private def setter (closure : Nat) : Value :=
  .function ⟨closure, ⟨"set", 1⟩, [⟨"x", 1⟩],
    [.expression ⟨#[.var ⟨"x", 1⟩, .assign ⟨"i", 1⟩ 0], 1⟩], closure⟩

private def setting (closure : Nat) : Task :=
  .call (setter closure) [.bool true] 1

/-- What is left behind the call of the function in the first scope. -/
private def firstSet : Machine :=
  { twoScopes with
    store := ⟨#[⟨none, []⟩, ⟨some 0, [("i", .bool true)]⟩, ⟨some 0, [("i", .nil)]⟩,
      ⟨some 1, [("x", .bool true)]⟩]⟩ }

private theorem region_setting {closure scope : Nat} (h : closure = 1 ∨ closure = 2)
    (hregion : (setting closure).Region twoScopes.store scope) : scope = closure ∨ scope = 0 := by
  obtain ⟨given, ⟨value, hmem, hleads⟩, hreaches⟩ := hregion
  have hcases {scope : Nat} (hscope : scope = closure ∨ scope = 0) :
      scope = 0 ∨ scope = 1 ∨ scope = 2 := by omega
  have hclosed : twoScopes.store.Closed fun scope => scope = closure ∨ scope = 0 := by
    constructor
    · intro scope parent inner hscope hfound hinside
      rcases hcases hscope with rfl | rfl | rfl <;> cases hfound <;> cases hinside
      all_goals exact .inr rfl
    · intro scope inner name value hscope hfound hbound
      have hmem := Scope.mem_of_value? hbound
      rcases hcases hscope with rfl | rfl | rfl <;> cases hfound
      · cases hmem
      all_goals
        cases List.mem_singleton.1 hmem
        trivial
  refine hreaches.stays hclosed ?_
  rcases List.mem_cons.1 hmem with rfl | hmem
  · exact .inl hleads.symm
  · rw [List.mem_singleton.1 hmem] at hleads
    exact hleads.elim

/-- Two closures that share the scope outside of both: a call of the one sets its own variable, and
the other one does the same behind that call, whatever is in the scope of the first. -/
theorem encapsulated_setters :
    (setting 1).run 9 twoScopes = .ok .nil firstSet ∧
      firstSet.store.scopes[2]? = twoScopes.store.scopes[2]? ∧
      ∀ fuel twin, firstSet.Agrees (fun scope => scope = 2 ∨ scope = 0) twin →
        Run.Alike ((setting 2).Fence firstSet) ((setting 2).run fuel firstSet)
          ((setting 2).run fuel twin) := by
  have hrun : (setting 1).run 9 twoScopes = .ok .nil firstSet := by
    change Run.call 9 (setter 1) [.bool true] 1 twoScopes = .ok .nil firstSet
    cbv
  obtain ⟨hunchanged, -, -, happart⟩ := encapsulated (congrArg finalState hrun)
  have hother : ∀ scope, (setting 2).Region twoScopes.store scope →
      scope < twoScopes.store.scopes.size ∧ ((setting 1).Region twoScopes.store scope →
        firstSet.store.scopes[scope]? = twoScopes.store.scopes[scope]?) := by
    intro scope hregion
    rcases region_setting (.inr rfl) hregion with rfl | rfl
    · exact ⟨by decide, fun _ => rfl⟩
    · exact ⟨by decide, fun _ => rfl⟩
  refine ⟨hrun, hunchanged 2 (by decide) fun hregion => ?_, fun fuel twin hagrees => ?_⟩
  · exact absurd (region_setting (.inl rfl) hregion) (by decide)
  · refine (happart (setting 2) hother).2.2 fuel twin { hagrees with scopes_eq := ?_ }
    exact fun hregion => hagrees.scopes_eq (region_setting (.inr rfl) hregion)

end Task

end Lox
