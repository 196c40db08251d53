import Lox.Proofs.Eval.Names
import Lox.Proofs.Eval.Region
import Lox.Proofs.Mirror

/-!
# Environments as nested bindings

Seen from outside, the scopes of the store are nested for good: where a scope lies is settled when
it is opened, so from each one there is a chain outwards that never changes. All that happens later
is that values are written to names in scopes. `Nest` has just these two things, the chains and what
was written in which order, and the store does as it says for anything that is done to environments.
-/

namespace Lox

/-! ### What is done to environments -/

/-- Something that is done to environments. They go by the order in which they were opened. -/
inductive Access where
  | new
  | inside (outer : ScopeId)
  | define (scope : ScopeId) (name : String) (value : Value)
  | assign (scope : ScopeId) (name : Identifier) (value : Value)
  | get (scope : ScopeId) (name : Identifier)

namespace Access

def perform : Access → Run Unit
  | new => do let _ ← Run.newScope none
  | inside outer => do let _ ← Run.newScope (some outer)
  | define scope name value => Run.define scope name value
  | assign scope name value => Run.assign scope name value
  | get scope name => do let _ ← Run.lookup scope name

/-- The machine behind a list of accesses, one after the other, whether or not they succeed. -/
def behind (accesses : List Access) (machine : Machine) : Machine :=
  accesses.foldl (fun machine access => finalState (access.perform machine)) machine

/-- What the access is done to is one of so many environments. -/
def Applies (opened : Nat) : Access → Prop
  | new => True
  | inside scope | define scope _ _ | assign scope _ _ | get scope _ => scope < opened

/-- How many environments there are behind the access. -/
def opens (opened : Nat) : Access → Nat
  | new | inside _ => opened + 1
  | define .. | assign .. | get .. => opened

/-- Each access is done to one of the environments that were opened until then. -/
inductive AllApply : (opened : Nat) → List Access → Prop where
  | nil {opened : Nat} : AllApply opened []
  | cons {opened : Nat} {access : Access} {accesses : List Access} (applies : access.Applies opened)
      (all : AllApply (access.opens opened) accesses) : AllApply opened (access :: accesses)

end Access

/-! ### Nested bindings -/

/-- A value that was written to a name in a scope. -/
structure Writing where
  scope : ScopeId
  name : String
  value : Value

structure Nest where
  /-- For each scope, itself and what it lies in, from the inside out. -/
  chains : List (List ScopeId) := []
  /-- What was written, the newest first. -/
  writings : List Writing := []

namespace Nest

def chain (nest : Nest) (scope : ScopeId) : List ScopeId :=
  nest.chains.getD scope []

/-- What was written last to the name in the scope itself, which binds the name if anything was. -/
def latest? (nest : Nest) (name : String) (scope : ScopeId) : Option Value :=
  (nest.writings.find? fun writing => writing.scope = scope ∧ writing.name = name).map (·.value)

/-- The first scope on the chain that binds the name. -/
def nearest? (nest : Nest) (name : String) (scope : ScopeId) : Option ScopeId :=
  (nest.chain scope).find? fun outer => (nest.latest? name outer).isSome

def value? (nest : Nest) (name : String) (scope : ScopeId) : Option Value := do
  nest.latest? name (← nest.nearest? name scope)

/-- What it comes to that a name is looked up. -/
def gets (nest : Nest) (scope : ScopeId) (name : Identifier) : Outcome Value :=
  match nest.value? name.name scope with
  | some value => .ok value
  | none => .error ⟨.undefined name.name, name.line⟩

/-- On the chain from the scope, the target comes before any other scope that binds the name. -/
def Exposes (nest : Nest) (name : String) (scope target : ScopeId) : Prop :=
  ∃ front back, nest.chain scope = front ++ target :: back ∧
    ∀ between ∈ front, between ≠ target ∧ nest.latest? name between = none

/-- A new scope inside of those on a chain. -/
def opening (nest : Nest) (around : List ScopeId) : Nest :=
  { nest with chains := nest.chains ++ [nest.chains.length :: around] }

def write (nest : Nest) (scope : ScopeId) (name : String) (value : Value) : Nest :=
  { nest with writings := ⟨scope, name, value⟩ :: nest.writings }

def perform (nest : Nest) : Access → Nest
  | .new => nest.opening []
  | .inside outer => nest.opening (nest.chain outer)
  | .define scope name value => nest.write scope name value
  | .assign scope name value =>
    match nest.nearest? name.name scope with
    | some target => nest.write target name.name value
    | none => nest
  | .get .. => nest

/-- The nest behind a list of accesses. -/
def of (accesses : List Access) : Nest :=
  accesses.foldl perform {}

section
variable (nest : Nest) (scope target : ScopeId) (name other : String) (value : Value)

@[simp] theorem chain_write : (nest.write target name value).chain scope = nest.chain scope := rfl

@[simp] theorem latest?_opening (around : List ScopeId) :
    (nest.opening around).latest? name scope = nest.latest? name scope := rfl

theorem chain_opening (around : List ScopeId) : (nest.opening around).chain scope =
    if scope = nest.chains.length then nest.chains.length :: around else nest.chain scope := by
  simp only [chain, opening, List.getD_eq_getElem?_getD, List.getElem?_append]
  rcases Nat.lt_trichotomy scope nest.chains.length with h | rfl | h
  · rw [if_pos h, if_neg (Nat.ne_of_lt h)]
  · simp
  · have hbeyond : nest.chains[scope]? = none := List.getElem?_eq_none (Nat.le_of_lt h)
    rw [if_neg (Nat.not_lt_of_gt h), if_neg (Nat.ne_of_gt h), hbeyond,
      List.getElem?_eq_none (Nat.sub_pos_of_lt h)]

theorem latest?_write : (nest.write target name value).latest? other scope =
    if target = scope ∧ name = other then some value else nest.latest? other scope := by
  unfold latest? write
  by_cases h : target = scope ∧ name = other
  · rw [if_pos h, List.find?_cons_of_pos (by simpa using h), Option.map_some]
  · rw [if_neg h, List.find?_cons_of_neg (by simpa using h)]

theorem value?_write_of_ne (h : name ≠ other) :
    (nest.write target name value).value? other scope = nest.value? other scope := by
  simp [value?, nearest?, latest?_write, h]

end

section
variable {nest : Nest} {scope target : ScopeId} {name : String}

theorem isSome_of_nearest? (h : nest.nearest? name scope = some target) :
    (nest.latest? name target).isSome :=
  List.find?_some (p := fun outer => (nest.latest? name outer).isSome) h

theorem value?_eq_none_iff :
    nest.value? name scope = none ↔ ∀ outer ∈ nest.chain scope, nest.latest? name outer = none := by
  have hnone : nest.value? name scope = none ↔ nest.nearest? name scope = none := by
    cases h : nest.nearest? name scope with
    | none => simp [value?, h]
    | some target => simp [value?, h, Option.isSome_iff_ne_none.1 (isSome_of_nearest? h)]
  rw [hnone, nearest?, List.find?_eq_none]
  simp

theorem exposes_iff : nest.Exposes name scope target ↔ (nest.chain scope).find?
    (fun outer => outer = target ∨ (nest.latest? name outer).isSome) = some target := by
  rw [List.find?_eq_some_iff_append]
  simp [Exposes]

theorem nearest?_write (value : Value) : (nest.write target name value).nearest? name scope =
    (nest.chain scope).find? fun outer => outer = target ∨ (nest.latest? name outer).isSome := by
  unfold nearest?
  congr 1
  funext outer
  by_cases h : target = outer
  · simp [latest?_write, h]
  · simp [latest?_write, h, Ne.symm h]

/-- What is written to a scope is seen from where the scope is exposed. -/
theorem Exposes.value?_write (h : nest.Exposes name scope target) (value : Value) :
    (nest.write target name value).value? name scope = some value := by
  rw [value?, nearest?_write, exposes_iff.1 h]
  simp [latest?_write]

/-- The first on a chain that is the target or good is the first good one, if not the target. -/
theorem find?_or_eq {chain : List ScopeId} {good : ScopeId → Bool}
    (h : chain.find? (fun outer => outer = target ∨ good outer) ≠ some target) :
    chain.find? (fun outer => outer = target ∨ good outer) = chain.find? good := by
  induction chain with
  | nil => rfl
  | cons outer chain ih =>
    by_cases hsame : outer = target
    · exact absurd (by simp [hsame]) h
    · by_cases hgood : good outer
      · simp [hgood]
      · simp only [List.find?_cons, hsame, hgood, false_or] at h ⊢
        exact ih h

theorem value?_write_of_not_exposes (h : ¬ nest.Exposes name scope target) (value : Value) :
    (nest.write target name value).value? name scope = nest.value? name scope := by
  have hnearest : (nest.write target name value).nearest? name scope = nest.nearest? name scope := by
    rw [nearest?_write]
    exact find?_or_eq fun heq => h (exposes_iff.2 heq)
  rw [value?, value?, hnearest]
  cases hfound : nest.nearest? name scope with
  | none => rfl
  | some outer =>
    have hother : target ≠ outer := by
      rintro rfl
      rw [← hnearest, nearest?_write] at hfound
      exact h (exposes_iff.2 hfound)
    simp [latest?_write, hother]

/-- Where the target binds the name already, it is exposed just where it is the nearest binding. -/
theorem exposes_iff_nearest? (h : (nest.latest? name target).isSome) :
    nest.Exposes name scope target ↔ nest.nearest? name scope = some target := by
  have hsame : (fun outer => decide (outer = target ∨ (nest.latest? name outer).isSome = true)) =
      fun outer => (nest.latest? name outer).isSome := by
    funext outer
    by_cases heq : outer = target
    · simp [heq, h]
    · simp [heq]
  rw [exposes_iff, nearest?, hsame]

end

end Nest

/-! ### Stores and nests -/

namespace Store

/-- What the scope itself binds the name to. -/
def bound? (store : Store) (name : String) (scope : ScopeId) : Option Value := do
  (← store.scopes[scope]?).value? name

/-- Going outwards from the scope, each step to a scope that is older, the chain is come through up
to one that lies in no other. -/
inductive Spells (store : Store) : (scope : ScopeId) → List ScopeId → Prop where
  | root {scope : ScopeId} {inner : Scope} (found : store.scopes[scope]? = some inner)
      (outermost : inner.parent = none) : Spells store scope [scope]
  | outside {scope parent : ScopeId} {inner : Scope} {chain : List ScopeId}
      (found : store.scopes[scope]? = some inner) (inside : inner.parent = some parent)
      (older : parent < scope) (spells : Spells store parent chain) :
    Spells store scope (scope :: chain)

/-- The store does as the nest says. -/
structure Realizes (store : Store) (nest : Nest) : Prop where
  size_eq : nest.chains.length = store.scopes.size
  spells : ∀ {scope : ScopeId}, scope < store.scopes.size → store.Spells scope (nest.chain scope)
  bound?_eq : ∀ (name : String) (scope : ScopeId), store.bound? name scope = nest.latest? name scope

section
variable {store : Store} {scope : ScopeId} {chain : List ScopeId}

theorem Spells.le_of_mem (h : store.Spells scope chain) : ∀ outer ∈ chain, outer ≤ scope := by
  induction h with
  | root => simp
  | outside _ _ older _ ih =>
    refine List.forall_mem_cons.2 ⟨Nat.le_refl _, fun outer hmem => ?_⟩
    exact Nat.le_of_lt (Nat.lt_of_le_of_lt (ih outer hmem) older)

/-- A chain comes through no scope twice. -/
theorem Spells.pairwise (h : store.Spells scope chain) : chain.Pairwise (· > ·) := by
  induction h with
  | root => exact List.pairwise_singleton _ _
  | outside _ _ older spells ih =>
    exact List.pairwise_cons.2
      ⟨fun outer hmem => Nat.lt_of_le_of_lt (spells.le_of_mem outer hmem) older, ih⟩

theorem Spells.mono {after : Store} {free : ScopeId → Prop} (h : store.Spells scope chain)
    (hkeeps : store.Keeps free after) : after.Spells scope chain := by
  induction h with
  | root found outermost =>
    obtain ⟨now, hnow, hparent, -⟩ := hkeeps _ _ found
    exact .root hnow (hparent.trans outermost)
  | outside found inside older _ ih =>
    obtain ⟨now, hnow, hparent, -⟩ := hkeeps _ _ found
    exact .outside hnow (hparent.trans inside) older ih

/-- Looking for a name goes along the chain. -/
theorem Spells.resolve?_eq (h : store.Spells scope chain) (name : String) :
    store.resolve? name scope = chain.find? fun outer => (store.bound? name outer).isSome := by
  induction h with
  | root found outermost =>
    rw [resolve?, found]
    simp [bound?, found, outermost, Scope.binds]
  | outside found inside older _ ih =>
    rw [resolve?, found, List.find?_cons]
    simp only [bound?, found, inside, older, Scope.binds, if_true, ih]
    split <;> simp_all

theorem keeps_writing (store : Store) (scope : ScopeId) (name : String) (value : Value) :
    store.Keeps (fun _ => True) (store.define scope name value) :=
  keeps_define (fun _ _ hfree => absurd trivial hfree) value

theorem keeps_add (store : Store) (parent : Option ScopeId) (free : ScopeId → Prop) :
    store.Keeps free (store.add parent).2 :=
  Keeps.of_add (.refl _ _)

theorem bound?_define (hscope : scope < store.scopes.size) (name other : String) (value : Value)
    (outer : ScopeId) : (store.define scope name value).bound? other outer =
      if scope = outer ∧ name = other then some value else store.bound? other outer := by
  unfold bound?
  cases hfound : store.scopes[outer]? with
  | none =>
    have hne : scope ≠ outer := fun heq =>
      absurd (Array.getElem?_eq_none_iff.1 hfound) (Nat.not_le_of_lt (heq ▸ hscope))
    simp [define, Array.getElem?_modify, hfound, hne]
  | some found =>
    rw [getElem?_define hfound]
    by_cases hsame : scope = outer
    · by_cases hname : name = other
      · simp [hsame, hname, Scope.value?_define]
      · simp [hsame, hname, Ne.symm hname, Scope.value?_define]
    · simp [hsame]

theorem bound?_add (parent : Option ScopeId) (name : String) (outer : ScopeId) :
    (store.add parent).2.bound? name outer = store.bound? name outer := by
  unfold bound? add
  rw [Array.getElem?_push]
  split
  case isTrue heq => simp [heq, Scope.value?]
  case isFalse => rfl

end

namespace Realizes

variable {store : Store} {nest : Nest} (h : store.Realizes nest)
include h

theorem resolve?_eq {scope : ScopeId} (hscope : scope < store.scopes.size) (name : String) :
    store.resolve? name scope = nest.nearest? name scope := by
  rw [(h.spells hscope).resolve?_eq name, Nest.nearest?, funext (h.bound?_eq name)]

theorem value?_eq {scope : ScopeId} (hscope : scope < store.scopes.size) (name : String) :
    store.value? name scope = nest.value? name scope := by
  rw [Store.value?, Nest.value?, h.resolve?_eq hscope]
  exact congrArg _ (funext fun outer => h.bound?_eq name outer)

theorem lt_of_nearest? {scope target : ScopeId} (hscope : scope < store.scopes.size) {name : String}
    (htarget : nest.nearest? name scope = some target) : target < store.scopes.size :=
  Nat.lt_of_le_of_lt ((h.spells hscope).le_of_mem target (List.mem_of_find?_eq_some htarget)) hscope

theorem write {scope : ScopeId} (hscope : scope < store.scopes.size) (name : String)
    (value : Value) : (store.define scope name value).Realizes (nest.write scope name value) where
  size_eq := by rw [size_define, ← h.size_eq, Nest.write]
  spells hlt := by
    rw [size_define] at hlt
    exact (h.spells hlt).mono (keeps_writing store scope name value)
  bound?_eq other outer := by rw [bound?_define hscope, Nest.latest?_write, h.bound?_eq]

theorem opening {parent : Option ScopeId} {around : List ScopeId}
    (hnew : (store.add parent).2.Spells store.scopes.size (store.scopes.size :: around)) :
    (store.add parent).2.Realizes (nest.opening around) where
  size_eq := by simp [Nest.opening, h.size_eq]
  spells {scope} hlt := by
    rw [size_add] at hlt
    rw [Nest.chain_opening, h.size_eq]
    by_cases heq : scope = store.scopes.size
    · rw [if_pos heq, heq]
      exact hnew
    · rw [if_neg heq]
      have hold : scope < store.scopes.size := Nat.lt_of_le_of_ne (Nat.le_of_lt_succ hlt) heq
      exact (h.spells hold).mono (keeps_add store parent fun _ => True)
  bound?_eq other outer := by rw [bound?_add, Nest.latest?_opening, h.bound?_eq]

end Realizes

end Store

namespace Access

/-- One access: the store goes on as the nest does, and every chain stays. -/
theorem realizes_perform {access : Access} {machine : Machine} {nest : Nest}
    (happlies : access.Applies machine.store.scopes.size) (h : machine.store.Realizes nest) :
    let after := finalState (access.perform machine)
    after.store.Realizes (nest.perform access) ∧
      after.store.scopes.size = access.opens machine.store.scopes.size ∧
      machine.store.Keeps (fun _ => True) after.store := by
  have hnew (parent : Option ScopeId) :
      (machine.store.add parent).2.scopes[machine.store.scopes.size]? = some ⟨parent, []⟩ := by
    simp [Store.add]
  cases access with
  | new =>
    exact ⟨h.opening (.root (hnew none) rfl), Store.size_add _ _, Store.keeps_add _ _ _⟩
  | inside outer =>
    have hkeeps := Store.keeps_add machine.store (some outer) fun _ => True
    have hchain := (h.spells happlies).mono hkeeps
    exact ⟨h.opening (.outside (hnew (some outer)) rfl happlies hchain), Store.size_add _ _, hkeeps⟩
  | define scope name value =>
    exact ⟨h.write happlies name value, Store.size_define _ _ _ _,
      Store.keeps_writing _ scope name value⟩
  | assign scope name value =>
    simp only [perform, Run.assign_apply, h.resolve?_eq happlies, Nest.perform]
    cases htarget : nest.nearest? name.name scope with
    | none => exact ⟨h, rfl, .refl _ _⟩
    | some target =>
      exact ⟨h.write (h.lt_of_nearest? happlies htarget) name.name value, Store.size_define _ _ _ _,
        Store.keeps_writing _ target name.name value⟩
  | get scope name =>
    have hafter : finalState ((get scope name).perform machine) = machine := by
      simp only [perform, Run.bind_apply, Run.lookup_apply]
      cases machine.store.value? name.name scope <;> rfl
    rw [hafter]
    exact ⟨h, rfl, .refl _ _⟩

theorem realizes_behind {accesses : List Access} : ∀ {machine : Machine} {nest : Nest},
    AllApply machine.store.scopes.size accesses → machine.store.Realizes nest →
    (behind accesses machine).store.Realizes (accesses.foldl Nest.perform nest) ∧
      machine.store.Keeps (fun _ => True) (behind accesses machine).store := by
  induction accesses with
  | nil => exact fun _ h => ⟨h, .refl _ _⟩
  | cons access accesses ih =>
    intro machine nest hall h
    cases hall with
    | cons happlies hall =>
      obtain ⟨hafter, hsize, hkeeps⟩ := realizes_perform happlies h
      rw [← hsize] at hall
      obtain ⟨hlast, hkeepsLast⟩ := ih hall hafter
      exact ⟨hlast, hkeeps.trans hkeepsLast⟩

end Access

/-! ### Operations on environments -/

section
variable {machine : Machine} {nest : Nest} {scope : ScopeId} (h : machine.store.Realizes nest)
  (hscope : scope < machine.store.scopes.size)
include h hscope

/-- Looking a name up comes to what the nest says, and changes nothing. -/
theorem ends_lookup_gets (name : Identifier) :
    (Run.lookup scope name).Ends machine (nest.gets scope name) machine := by
  unfold Nest.gets
  cases hvalue : nest.value? name.name scope <;>
    simp [Run.Ends, Run.lookup_apply, h.value?_eq hscope, hvalue]

/-- What is written to a scope is seen from where the scope is exposed, and nowhere else. -/
theorem ends_lookup_define {other : ScopeId} (hother : other < machine.store.scopes.size)
    (name : String) (value : Value) (sought : Identifier) :
    let after := machine.define scope name value
    (sought.name = name ∧ nest.Exposes name other scope →
        (Run.lookup other sought).Ends after (.ok value) after) ∧
      (¬ (sought.name = name ∧ nest.Exposes name other scope) →
        (Run.lookup other sought).Ends after (nest.gets other sought) after) := by
  intro after
  have hafter : after.store.Realizes (nest.write scope name value) := h.write hscope name value
  have hsize : other < after.store.scopes.size := (Store.size_define _ _ _ _).symm ▸ hother
  have hends := ends_lookup_gets hafter hsize sought
  refine ⟨fun hseen => ?_, fun hunseen => ?_⟩
  · obtain ⟨rfl, hexposes⟩ := hseen
    simpa [Nest.gets, hexposes.value?_write value] using hends
  · have hsame : (nest.write scope name value).value? sought.name other =
        nest.value? sought.name other := by
      by_cases hname : name = sought.name
      · subst hname
        exact Nest.value?_write_of_not_exposes (fun hexposes => hunseen ⟨rfl, hexposes⟩) value
      · exact Nest.value?_write_of_ne _ _ _ _ _ _ hname
    rwa [Nest.gets, hsame, ← Nest.gets] at hends

/-- An assignment writes to the nearest scope that binds the name, or else does nothing. -/
theorem assign_eq_nearest? (name : Identifier) (value : Value) :
    Run.assign scope name value machine = match nest.nearest? name.name scope with
      | some target => .ok () (machine.define target name.name value)
      | none => .error (.raised ⟨.undefined name.name, name.line⟩) machine := by
  cases hnearest : nest.nearest? name.name scope <;>
    simp only [Run.assign_apply, h.resolve?_eq hscope, hnearest]

end

/-- Environments are a store of nested bindings. Whatever was done to the environments opened so
far, the scopes are nested as they were opened and bind what was written to them last. From each
scope the parents lead through a finite chain of older and older scopes, which stays the same
whatever is done later. Looking a name up gives what was written last to the name in the first scope
on the chain that binds it, and fails just if none does. An assignment that succeeds is seen from
the scopes with the same nearest binding and by no other lookup, and one that fails changes nothing.
A definition is seen from the scopes that expose the one it is made in, and only under its name. -/
theorem environments_nest {accesses : List Access} (clock : Clock)
    (hall : Access.AllApply 0 accesses) :
    let machine := Access.behind accesses { clock }
    let nest := Nest.of accesses
    machine.store.Realizes nest ∧
      (∀ scope < machine.store.scopes.size,
        (nest.chain scope).Pairwise (· > ·) ∧
        ∀ later, Access.AllApply machine.store.scopes.size later →
          (Access.behind later machine).store.Spells scope (nest.chain scope)) ∧
      (∀ scope < machine.store.scopes.size, ∀ name : Identifier,
        (Run.lookup scope name).Ends machine (nest.gets scope name) machine ∧
        (nest.value? name.name scope = none ↔
          ∀ outer ∈ nest.chain scope, nest.latest? name.name outer = none)) ∧
      (∀ scope < machine.store.scopes.size, ∀ (name : Identifier) (value : Value),
        match nest.nearest? name.name scope with
        | some target => ∃ after, Run.assign scope name value machine = .ok () after ∧
            ∀ other < machine.store.scopes.size, ∀ sought : Identifier,
              (Run.lookup other sought).Ends after
                (if sought.name = name.name ∧ nest.nearest? name.name other = some target
                  then .ok value else nest.gets other sought) after
        | none => Run.assign scope name value machine =
            .error (.raised ⟨.undefined name.name, name.line⟩) machine) ∧
      ∀ scope < machine.store.scopes.size, ∀ (name : String) (value : Value),
        ∃ after, Run.define scope name value machine = .ok () after ∧
          ∀ other < machine.store.scopes.size, ∀ sought : Identifier,
            (sought.name = name ∧ nest.Exposes name other scope →
              (Run.lookup other sought).Ends after (.ok value) after) ∧
            (¬ (sought.name = name ∧ nest.Exposes name other scope) →
              (Run.lookup other sought).Ends after (nest.gets other sought) after) := by
  intro machine nest
  have hempty : ({} : Store).Realizes {} :=
    ⟨rfl, fun h => absurd h (Nat.not_lt_zero _), by simp [Store.bound?, Nest.latest?]⟩
  have hstart : Access.AllApply ({ clock } : Machine).store.scopes.size accesses := hall
  have h : machine.store.Realizes nest := (Access.realizes_behind hstart hempty).1
  refine ⟨h, fun scope hscope => ⟨(h.spells hscope).pairwise, fun later hlater => ?_⟩,
    fun scope hscope name => ⟨ends_lookup_gets h hscope name, Nest.value?_eq_none_iff⟩,
    fun scope hscope name value => ?_, fun scope hscope name value => ?_⟩
  · exact (h.spells hscope).mono (Access.realizes_behind hlater h).2
  · have hassign := assign_eq_nearest? h hscope name value
    cases hnearest : nest.nearest? name.name scope with
    | none => rwa [hnearest] at hassign
    | some target =>
      rw [hnearest] at hassign
      refine ⟨_, hassign, fun other hother sought => ?_⟩
      have hexposes : nest.Exposes name.name other target ↔
          nest.nearest? name.name other = some target :=
        Nest.exposes_iff_nearest? (Nest.isSome_of_nearest? hnearest)
      obtain ⟨hseen, hunseen⟩ := ends_lookup_define h (h.lt_of_nearest? hscope hnearest) hother
        name.name value sought
      rw [hexposes] at hseen hunseen
      split
      case isTrue hyes => exact hseen hyes
      case isFalse hno => exact hunseen hno
  · exact ⟨_, rfl, fun other hother sought => ends_lookup_define h hscope hother name value sought⟩

/-- A scope that shadows a name, with another one inside, and one beside them. -/
private def shadowing : List Access :=
  [.new, .define 0 "x" .nil, .inside 0, .define 1 "x" (.bool false), .inside 1, .inside 0]

/-- An assignment from the innermost scope is seen there, and not from the one beside. -/
theorem environments_nest_shadowing : Access.AllApply 0 shadowing ∧
    ∃ after, Run.assign 2 ⟨"x", 1⟩ (.bool true)
        (Access.behind shadowing { clock := ⟨fun _ => 0, 0⟩ }) = .ok () after ∧
      (Run.lookup 2 ⟨"x", 2⟩).Ends after (.ok (.bool true)) after ∧
      (Run.lookup 3 ⟨"x", 3⟩).Ends after (.ok .nil) after := by
  have hall : Access.AllApply 0 shadowing :=
    .cons trivial (.cons Nat.one_pos (.cons Nat.one_pos (.cons (Nat.lt_add_one 1)
      (.cons (Nat.lt_add_one 1) (.cons (Nat.succ_pos 2) .nil)))))
  obtain ⟨-, -, -, hassign, -⟩ := environments_nest ⟨fun _ => 0, 0⟩ hall
  obtain ⟨after, hafter, hseen⟩ := hassign 2 (by decide) ⟨"x", 1⟩ (.bool true)
  exact ⟨hall, after, hafter, hseen 2 (by decide) ⟨"x", 2⟩, hseen 3 (by decide) ⟨"x", 3⟩⟩

end Lox
