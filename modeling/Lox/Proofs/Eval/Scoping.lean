import Lox.Proofs.Eval.Safety
import Lox.Proofs.Eval.Watch

/-!
# Scopes nest as programs do

Whenever a statement or a node is run in a scope, the scopes from there outwards are one for each
frame around it, innermost first, and then that of the top level; and what is bound in each of them
was declared for it. This is so because every function that is bound anywhere, or handed around, has
a closure that was opened for the frames around its declaration: that is kept by every step, whether
it yields a value or is interrupted.
-/

namespace Lox

/-- From a scope outwards there is one scope for each of the frames, innermost first, in which nothing
but their names is bound, and then the scope of the top level with names of its own. -/
inductive Store.Nested (store : Store) (globals : ScopeId) (topLevel : List String) :
    ScopeId → List Frame → Prop where
  | globals {root : Scope} (found : store.scopes[globals]? = some root)
      (outermost : root.parent = none) (bound : ∀ binding ∈ root.bindings, binding.1 ∈ topLevel) :
    Nested store globals topLevel globals []
  | inside {scope parent : ScopeId} {inner : Scope} {frame : Frame} {around : List Frame}
      (found : store.scopes[scope]? = some inner) (inside : inner.parent = some parent)
      (bound : ∀ binding ∈ inner.bindings, binding.1 ∈ frame.names)
      (outside : Nested store globals topLevel parent around) :
    Nested store globals topLevel scope (frame :: around)

/-- The natives, and what the programs declare at top level. -/
def topLevelNames (programs : List (List Statement)) : List String :=
  Native.all.map Native.name ++ programs.flatMap Statement.declaredNames

/-- What the steps of a run have in common: the programs up to the one that is run, and the scope of
the top level. -/
structure Stage where
  programs : List (List Statement)
  globals : ScopeId

namespace Stage

variable (stage : Stage)

/-- In one of the programs, within these frames, stands the subject. -/
def Has (around : List Frame) (subject : Subject) : Prop :=
  ∃ program ∈ stage.programs, Occurs program around subject

/-- The names that may be bound in a scope for the first of the frames. -/
def names : List Frame → List String
  | [] => topLevelNames stage.programs
  | frame :: _ => frame.names

/-- The scopes nest as the frames around the subject do. -/
structure Lexical (moment : Moment) : Prop where
  nested : moment.machine.store.Nested stage.globals (topLevelNames stage.programs) moment.scope
    moment.around
  has : stage.Has moment.around moment.subject

/-- A function value was declared within the frames that its closure was opened for. -/
def Knows (chronicle : Chronicle) (nextIdentity : Nat) : Value → Prop
  | .function declared =>
    declared.identity < nextIdentity ∧
      chronicle.opened[declared.closure]? = some (chronicle.homes declared.identity) ∧
        stage.Has (chronicle.homes declared.identity)
          (.statement (.funDecl declared.name declared.parameters declared.body))
  | _ => True

/-- A scope for the first of the frames has a parent that was opened for the outer ones. -/
def Hangs (opened : List (List Frame)) (scope : ScopeId) (parent : Option ScopeId) :
    List Frame → Prop
  | [] => scope = stage.globals ∧ parent = none
  | _ :: outer => ∃ above, parent = some above ∧ opened[above]? = some outer

/-- The scope is where a scope for the first of the frames has to be, and only binds what it may. -/
structure Placed (opened : List (List Frame)) (scope : ScopeId) (found : Scope)
    (around : List Frame) : Prop where
  names : ∀ binding ∈ found.bindings, binding.1 ∈ stage.names around
  parent : stage.Hangs opened scope found.parent around

/-- The chronicle is right about the machine. -/
structure Fits (chronicle : Chronicle) (machine : Machine) : Prop where
  length_eq : chronicle.opened.length = machine.store.scopes.size
  outermost : chronicle.opened[stage.globals]? = some []
  placed : ∀ {scope : ScopeId} {found : Scope} {around : List Frame},
    machine.store.scopes[scope]? = some found → chronicle.opened[scope]? = some around →
      stage.Placed chronicle.opened scope found around
  knows : ∀ {scope : ScopeId} {found : Scope} {name : String} {value : Value},
    machine.store.scopes[scope]? = some found → (name, value) ∈ found.bindings →
      stage.Knows chronicle machine.nextIdentity value

/-- The chronicle is right, and so were the scopes at every moment. -/
structure Sound (watched : Watched) : Prop where
  fits : stage.Fits watched.toChronicle watched.machine
  lexical : ∀ moment ∈ watched.moments, stage.Lexical moment

end Stage

/-- The chronicle is only continued. -/
structure Watched.Extends (before after : Watched) : Prop where
  opened : before.opened <+: after.opened
  identity : before.machine.nextIdentity ≤ after.machine.nextIdentity
  homes : ∀ identity < before.machine.nextIdentity, after.homes identity = before.homes identity

namespace Watched.Extends

variable {before between after : Watched}

theorem refl (watched : Watched) : watched.Extends watched :=
  ⟨List.prefix_rfl, Nat.le_refl _, fun _ _ => rfl⟩

theorem trans (first : before.Extends between) (second : between.Extends after) :
    before.Extends after where
  opened := first.opened.trans second.opened
  identity := Nat.le_trans first.identity second.identity
  homes identity hlt :=
    (second.homes identity (Nat.lt_of_lt_of_le hlt first.identity)).trans (first.homes identity hlt)

theorem opened_eq (h : before.Extends after) {scope : ScopeId} {around : List Frame}
    (hopened : before.opened[scope]? = some around) : after.opened[scope]? = some around := by
  obtain ⟨more, hmore⟩ := h.opened
  rw [← hmore, List.getElem?_append_left (List.getElem?_eq_some_iff.1 hopened).1, hopened]

end Watched.Extends

/-! ### Stores -/

theorem Machine.nextIdentity_bindAll (machine : Machine) (scope : ScopeId)
    (bindings : List (Identifier × Value)) :
    (machine.bindAll scope bindings).nextIdentity = machine.nextIdentity := by
  induction bindings generalizing machine with
  | nil => rfl
  | cons binding rest ih => exact ih _

/-- The scope in which a name is found binds it. -/
theorem Store.exists_mem_of_resolve? {store : Store} {name : String} {scope target : ScopeId}
    (h : store.resolve? name scope = some target) : ∃ (found : Scope) (value : Value),
      store.scopes[target]? = some found ∧ (name, value) ∈ found.bindings := by
  induction scope using Nat.strongRecOn with
  | _ scope ih =>
    rw [resolve?] at h
    split at h
    case h_1 => cases h
    case h_2 found hfound =>
      split at h
      case isTrue hbinds =>
        cases h
        obtain ⟨value, hvalue⟩ := Option.isSome_iff_exists.1 hbinds
        exact ⟨found, value, hfound, Scope.mem_of_value? hvalue⟩
      case isFalse =>
        split at h
        case h_1 => cases h
        case h_2 parent _ =>
          split at h
          case isTrue hlt => exact ih parent hlt h
          case isFalse => cases h

theorem Store.exists_mem_of_value? {store : Store} {name : String} {scope : ScopeId} {value : Value}
    (h : store.value? name scope = some value) : ∃ (target : ScopeId) (found : Scope),
      store.scopes[target]? = some found ∧ (name, value) ∈ found.bindings := by
  obtain ⟨target, -, hfound⟩ := Option.bind_eq_some_iff.1 h
  obtain ⟨found, hfound, hvalue⟩ := Option.bind_eq_some_iff.1 hfound
  exact ⟨target, found, hfound, Scope.mem_of_value? hvalue⟩

namespace Stage

variable {stage : Stage}

theorem Knows.mono {before after : Watched} {value : Value}
    (h : stage.Knows before.toChronicle before.machine.nextIdentity value)
    (hextends : before.Extends after) :
    stage.Knows after.toChronicle after.machine.nextIdentity value := by
  cases value with
  | function declared =>
    obtain ⟨hidentity, hopened, hhas⟩ := h
    have hhome := hextends.homes _ hidentity
    exact ⟨Nat.lt_of_lt_of_le hidentity hextends.identity,
      hhome ▸ hextends.opened_eq hopened, hhome ▸ hhas⟩
  | _ => trivial

/-- What has no closure in any store is no function. -/
theorem knows_of_fits {value : Value} (h : value.Fits 0) (chronicle : Chronicle)
    (nextIdentity : Nat) : stage.Knows chronicle nextIdentity value := by
  cases value with
  | function declared => exact absurd h.1 (Nat.not_lt_zero _)
  | _ => trivial

section
variable {chronicle : Chronicle} {machine : Machine} (h : stage.Fits chronicle machine)
include h

theorem Fits.nested {around : List Frame} : ∀ {scope : ScopeId},
    chronicle.opened[scope]? = some around →
      machine.store.Nested stage.globals (topLevelNames stage.programs) scope around := by
  induction around with
  | nil =>
    intro scope hopened
    have hlt : scope < machine.store.scopes.size :=
      h.length_eq ▸ (List.getElem?_eq_some_iff.1 hopened).1
    have hfound := Array.getElem?_eq_getElem hlt
    obtain ⟨hnames, rfl, hparent⟩ := h.placed hfound hopened
    exact .globals hfound hparent hnames
  | cons frame outer ih =>
    intro scope hopened
    have hlt : scope < machine.store.scopes.size :=
      h.length_eq ▸ (List.getElem?_eq_some_iff.1 hopened).1
    have hfound := Array.getElem?_eq_getElem hlt
    obtain ⟨hnames, parent, hparent, houter⟩ := h.placed hfound hopened
    exact .inside hfound hparent hnames (ih houter)

theorem Fits.of_eq {other : Machine} (hstore : other.store = machine.store)
    (hidentity : other.nextIdentity = machine.nextIdentity) : stage.Fits chronicle other where
  length_eq := hstore ▸ h.length_eq
  outermost := h.outermost
  placed hfound hopened := h.placed (hstore ▸ hfound) hopened
  knows hfound hmem := hidentity ▸ h.knows (hstore ▸ hfound) hmem

theorem Fits.define {scope : ScopeId} {name : String} {value : Value}
    (hvalue : stage.Knows chronicle machine.nextIdentity value)
    (hname : ∀ around, chronicle.opened[scope]? = some around → name ∈ stage.names around) :
    stage.Fits chronicle (machine.define scope name value) where
  length_eq := by rw [Machine.store_define, Store.size_define, h.length_eq]
  outermost := h.outermost
  placed {other found around} hfound hopened := by
    obtain ⟨old, hold, rfl | ⟨rfl, rfl⟩⟩ := Store.exists_of_define hfound
    · exact h.placed hold hopened
    · obtain ⟨hnames, hparent⟩ := h.placed hold hopened
      refine ⟨fun (bound, kept) hmem => ?_, hparent⟩
      rcases Scope.mem_insert hmem with heq | hmem
      · cases heq
        exact hname around hopened
      · exact hnames _ hmem
  knows {other found bound kept} hfound hmem := by
    rcases Store.mem_of_define hfound hmem with rfl | ⟨old, hold, hmem⟩
    · exact hvalue
    · exact h.knows hold hmem

end

/-- What the chronicle is right about, it stays right about with more programs. -/
theorem Fits.more {chronicle : Chronicle} {machine : Machine} (h : stage.Fits chronicle machine)
    (programs : List (List Statement)) :
    ({ stage with programs := stage.programs ++ programs } : Stage).Fits chronicle machine where
  length_eq := h.length_eq
  outermost := h.outermost
  placed {scope found around} hfound hopened := by
    obtain ⟨hnames, hparent⟩ := h.placed hfound hopened
    refine ⟨fun binding hmem => ?_, ?_⟩
    · have hname := hnames binding hmem
      cases around with
      | nil =>
        rcases List.mem_append.1 hname with hnative | hdeclared
        · exact List.mem_append_left _ hnative
        · exact List.mem_append_right _
            (List.flatMap_append ▸ List.mem_append_left _ hdeclared)
      | cons frame outer => exact hname
    · cases around with
      | nil => exact hparent
      | cons frame outer => exact hparent
  knows {scope found name value} hfound hmem := by
    have hknows := h.knows hfound hmem
    cases value with
    | function declared =>
      obtain ⟨hidentity, hopened, program, hprogram, hoccurs⟩ := hknows
      exact ⟨hidentity, hopened, program, List.mem_append_left _ hprogram, hoccurs⟩
    | _ => trivial

theorem Fits.bindAll {chronicle : Chronicle} {scope : ScopeId}
    {bindings : List (Identifier × Value)} : ∀ {machine : Machine}, stage.Fits chronicle machine →
    (∀ binding ∈ bindings, stage.Knows chronicle machine.nextIdentity binding.2) →
    (∀ around, chronicle.opened[scope]? = some around →
      ∀ binding ∈ bindings, binding.1.name ∈ stage.names around) →
    stage.Fits chronicle (machine.bindAll scope bindings) := by
  induction bindings with
  | nil => exact fun h _ _ => h
  | cons binding rest ih =>
    intro machine h hvalues hnames
    obtain ⟨hvalue, hrest⟩ := List.forall_mem_cons.1 hvalues
    exact ih (h.define hvalue fun around hopened => hnames around hopened _ List.mem_cons_self) hrest
      fun around hopened other hother => hnames around hopened other (List.mem_cons_of_mem _ hother)

/-- A scope that is opened for a frame within the scope for the outer ones. -/
theorem Fits.add {chronicle : Chronicle} {machine : Machine} (h : stage.Fits chronicle machine)
    {parent : ScopeId} {frame : Frame} {outer : List Frame}
    (hparent : chronicle.opened[parent]? = some outer) :
    stage.Fits { chronicle with opened := chronicle.opened ++ [frame :: outer] }
      (machine.enter parent) := by
  have hold {scope : ScopeId} {around : List Frame}
      (hopened : chronicle.opened[scope]? = some around) :
      (chronicle.opened ++ [frame :: outer])[scope]? = some around := by
    rw [List.getElem?_append_left (List.getElem?_eq_some_iff.1 hopened).1, hopened]
  refine ⟨by simp [Machine.enter, Store.add, h.length_eq], hold h.outermost, ?_, ?_⟩
  · intro scope found around hfound hopened
    rcases Store.of_add hfound with ⟨rfl, rfl⟩ | hfound
    · rw [← h.length_eq, List.getElem?_concat_length] at hopened
      cases hopened
      exact ⟨by simp, parent, rfl, hold hparent⟩
    · have hlt : scope < chronicle.opened.length := by
        rw [h.length_eq]
        exact (Array.getElem?_eq_some_iff.1 hfound).1
      rw [List.getElem?_append_left hlt] at hopened
      obtain ⟨hnames, hplaced⟩ := h.placed hfound hopened
      refine ⟨hnames, ?_⟩
      cases around with
      | nil => exact hplaced
      | cons _ outside =>
        obtain ⟨above, habove, hopenedAbove⟩ := hplaced
        exact ⟨above, habove, hold hopenedAbove⟩
  · intro scope found name value hfound hmem
    have hknows := h.knows (Store.mem_of_add hfound hmem) hmem
    cases value with
    | function declared => exact ⟨hknows.1, hold hknows.2.1, hknows.2.2⟩
    | _ => trivial

/-! ### Steps -/

variable {α β : Type}

/-- The run keeps the chronicle right and the scopes as they should be, whether it is interrupted or
not; a value that it yields is good. -/
structure Keeps (stage : Stage) (watch : Watch α) (before : Watched) (good : Watched → α → Prop) :
    Prop where
  ok : ∀ {value : α} {after : Watched}, watch before = .ok value after →
    stage.Sound after ∧ before.Extends after ∧ good after value
  error : ∀ {interrupt : Interrupt} {after : Watched}, watch before = .error interrupt after →
    stage.Sound after

section
variable {before : Watched} {good : Watched → α → Prop} {fine : Watched → β → Prop}

theorem keeps_pure {value : α} (hbefore : stage.Sound before) (hgood : good before value) :
    stage.Keeps (pure value) before good where
  ok hrun := by
    cases hrun
    exact ⟨hbefore, .refl _, hgood⟩
  error hrun := by cases hrun

theorem Keeps.bind {watch : Watch α} {next : α → Watch β} (first : stage.Keeps watch before good)
    (second : ∀ value between, stage.Sound between → before.Extends between → good between value →
      stage.Keeps (next value) between fine) : stage.Keeps (watch >>= next) before fine := by
  cases hwatch : watch before with
  | ok value between =>
    have hbind : (watch >>= next) before = next value between := by
      simp only [Bind.bind, EStateM.bind, hwatch]
    obtain ⟨hbetween, hextends, hgood⟩ := first.ok hwatch
    have hnext := second value between hbetween hextends hgood
    constructor
    · intro result after hrun
      obtain ⟨hafter, hmore, hfine⟩ := hnext.ok (hbind ▸ hrun)
      exact ⟨hafter, hextends.trans hmore, hfine⟩
    · exact fun hrun => hnext.error (hbind ▸ hrun)
  | error interrupt between =>
    have hbind : (watch >>= next) before = .error interrupt between := by
      simp only [Bind.bind, EStateM.bind, hwatch]
    constructor <;> intro _ _ hrun <;> rw [hbind] at hrun <;> cases hrun
    exact first.error hwatch

theorem Keeps.ite {condition : Prop} [Decidable condition] {first second : Watch α}
    (hfirst : stage.Keeps first before good) (hsecond : stage.Keeps second before good) :
    stage.Keeps (if condition then first else second) before good := by
  split
  · exact hfirst
  · exact hsecond

theorem keeps_get_bind {next : Watched → Watch β} (h : stage.Keeps (next before) before fine) :
    stage.Keeps (get >>= next) before fine :=
  ⟨fun hrun => h.ok hrun, fun hrun => h.error hrun⟩

theorem keeps_note (hbefore : stage.Sound before) {around : List Frame} {scope : ScopeId}
    {subject : Subject} (hscope : before.opened[scope]? = some around)
    (hhas : stage.Has around subject) :
    stage.Keeps (Watch.note around scope subject) before fun _ _ => True where
  ok hrun := by
    cases hrun
    exact ⟨⟨hbefore.fits, List.forall_mem_cons.2 ⟨⟨hbefore.fits.nested hscope, hhas⟩,
      hbefore.lexical⟩⟩, ⟨List.prefix_rfl, Nat.le_refl _, fun _ _ => rfl⟩, trivial⟩
  error hrun := by cases hrun

/-- A step of the machine that leaves the chronicle right. -/
theorem keeps_step {run : Run α} (hbefore : stage.Sound before)
    (hok : ∀ {value : α} {machine : Machine}, run before.machine = .ok value machine →
      stage.Fits before.toChronicle machine ∧
        before.machine.nextIdentity ≤ machine.nextIdentity ∧ good { before with machine } value)
    (herror : ∀ {interrupt : Interrupt} {machine : Machine},
      run before.machine = .error interrupt machine → stage.Fits before.toChronicle machine) :
    stage.Keeps (Watch.step run) before good := by
  constructor
  · intro value after hrun
    rw [Watch.step] at hrun
    cases hstep : run before.machine with
    | ok found machine =>
      rw [hstep] at hrun
      cases hrun
      obtain ⟨hfits, hidentity, hgood⟩ := hok hstep
      exact ⟨⟨hfits, hbefore.lexical⟩, ⟨List.prefix_rfl, hidentity, fun _ _ => rfl⟩, hgood⟩
    | error interrupt machine =>
      rw [hstep] at hrun
      cases hrun
  · intro interrupt after hrun
    rw [Watch.step] at hrun
    cases hstep : run before.machine with
    | ok found machine =>
      rw [hstep] at hrun
      cases hrun
    | error found machine =>
      rw [hstep] at hrun
      cases hrun
      exact ⟨herror hstep, hbefore.lexical⟩

end

section
variable {before : Watched} {good : Watched → α → Prop} (hbefore : stage.Sound before)
include hbefore

theorem keeps_raise {cause : RuntimeError.Cause} {line : Nat} :
    stage.Keeps (Watch.step (Run.raise cause line)) before good :=
  keeps_step hbefore (fun hrun => by cases hrun) fun hrun => by
    cases hrun
    exact hbefore.fits

theorem keeps_fail {fault : Fault} :
    stage.Keeps (Watch.step (Run.fail fault)) before good :=
  keeps_step hbefore (fun hrun => by cases hrun) fun hrun => by
    cases hrun
    exact hbefore.fits

theorem keeps_ofExcept {line : Nat} {result : Except RuntimeError.Cause α}
    (hgood : ∀ value, result = .ok value → good before value) :
    stage.Keeps (Watch.step (Run.ofExcept line result)) before good := by
  cases result with
  | ok value =>
    refine keeps_step hbefore (fun hrun => ?_) fun hrun => by cases hrun
    cases hrun
    exact ⟨hbefore.fits, Nat.le_refl _, hgood value rfl⟩
  | error cause => exact keeps_raise hbefore

/-- A step that always yields a value. -/
theorem keeps_modifyGet {change : Machine → α × Machine}
    (hfits : stage.Fits before.toChronicle (change before.machine).2)
    (hidentity : before.machine.nextIdentity ≤ (change before.machine).2.nextIdentity)
    (hgood : good { before with machine := (change before.machine).2 }
      (change before.machine).1) :
    stage.Keeps (Watch.step (modifyGet change)) before good := by
  refine keeps_step hbefore (fun hrun => ?_) fun hrun => by cases hrun
  cases hrun
  exact ⟨hfits, hidentity, hgood⟩

theorem keeps_print {text : String} :
    stage.Keeps (Watch.step (Run.print text)) before fun _ _ => True :=
  keeps_modifyGet hbefore (hbefore.fits.of_eq rfl rfl) (Nat.le_refl _) trivial

theorem keeps_readClock : stage.Keeps (Watch.step Run.readClock) before fun _ _ => True :=
  keeps_modifyGet hbefore (hbefore.fits.of_eq rfl rfl) (Nat.le_refl _) trivial

theorem keeps_define {scope : ScopeId} {name : String} {value : Value}
    (hvalue : stage.Knows before.toChronicle before.machine.nextIdentity value)
    (hname : ∀ around, before.opened[scope]? = some around → name ∈ stage.names around) :
    stage.Keeps (Watch.step (Run.define scope name value)) before fun _ _ => True :=
  keeps_modifyGet hbefore (hbefore.fits.define hvalue hname) (Nat.le_refl _) trivial

theorem keeps_bindAll {scope : ScopeId} {parameters : List Identifier} {arguments : List Value}
    (hvalues : ∀ value ∈ arguments,
      stage.Knows before.toChronicle before.machine.nextIdentity value)
    (hnames : ∀ around, before.opened[scope]? = some around →
      ∀ parameter ∈ parameters, parameter.name ∈ stage.names around) :
    stage.Keeps (Watch.step (Run.bindAll scope parameters arguments)) before fun _ _ => True := by
  have hends : Run.bindAll scope parameters arguments before.machine =
      .ok () (before.machine.bindAll scope (parameters.zip arguments)) :=
    Run.ends_bindAll.2 ⟨rfl, rfl⟩
  refine keeps_step hbefore (fun hrun => ?_) fun hrun => by rw [hends] at hrun; cases hrun
  rw [hends] at hrun
  cases hrun
  refine ⟨hbefore.fits.bindAll (fun binding hmem => hvalues _ (List.of_mem_zip hmem).2)
    fun around hopened binding hmem => hnames around hopened _ (List.of_mem_zip hmem).1, ?_, trivial⟩
  exact Nat.le_of_eq (Machine.nextIdentity_bindAll before.machine scope _).symm

theorem keeps_lookup {scope : ScopeId} {name : Identifier} :
    stage.Keeps (Watch.step (Run.lookup scope name)) before fun after value =>
      stage.Knows after.toChronicle after.machine.nextIdentity value := by
  have hlookup := Run.lookup_apply scope name before.machine
  cases hvalue : before.machine.store.value? name.name scope with
  | none =>
    rw [hvalue] at hlookup
    refine keeps_step hbefore (fun hrun => ?_) fun hrun => ?_ <;> rw [hlookup] at hrun <;> cases hrun
    exact hbefore.fits
  | some value =>
    rw [hvalue] at hlookup
    refine keeps_step hbefore (fun hrun => ?_) fun hrun => ?_ <;> rw [hlookup] at hrun <;> cases hrun
    obtain ⟨target, found, hfound, hmem⟩ := Store.exists_mem_of_value? hvalue
    exact ⟨hbefore.fits, Nat.le_refl _, hbefore.fits.knows hfound hmem⟩

/-- The name is bound already where it is bound again. -/
theorem keeps_assign {scope : ScopeId} {name : Identifier} {value : Value}
    (hvalue : stage.Knows before.toChronicle before.machine.nextIdentity value) :
    stage.Keeps (Watch.step (Run.assign scope name value)) before fun _ _ => True := by
  have hassign := Run.assign_apply scope name value before.machine
  cases htarget : before.machine.store.resolve? name.name scope with
  | none =>
    rw [htarget] at hassign
    refine keeps_step hbefore (fun hrun => ?_) fun hrun => ?_ <;> rw [hassign] at hrun <;> cases hrun
    exact hbefore.fits
  | some target =>
    rw [htarget] at hassign
    refine keeps_step hbefore (fun hrun => ?_) fun hrun => ?_ <;> rw [hassign] at hrun <;> cases hrun
    obtain ⟨found, kept, hfound, hmem⟩ := Store.exists_mem_of_resolve? htarget
    exact ⟨hbefore.fits.define hvalue fun around hopened =>
      (hbefore.fits.placed hfound hopened).names _ hmem, Nat.le_refl _, trivial⟩

theorem keeps_openScope {parent : ScopeId} {frame : Frame} {outer : List Frame}
    (hparent : before.opened[parent]? = some outer) :
    stage.Keeps (Watch.openScope (frame :: outer) parent) before fun after scope =>
      after.opened[scope]? = some (frame :: outer) where
  ok hrun := by
    cases hrun
    refine ⟨⟨hbefore.fits.add hparent, hbefore.lexical⟩,
      ⟨List.prefix_append _ _, Nat.le_refl _, fun _ _ => rfl⟩, ?_⟩
    show (before.opened ++ [frame :: outer])[before.machine.store.scopes.size]? = _
    rw [← hbefore.fits.length_eq, List.getElem?_concat_length]
  error hrun := by cases hrun

theorem keeps_newHome {around : List Frame} :
    stage.Keeps (Watch.newHome around) before fun after identity =>
      identity < after.machine.nextIdentity ∧ after.homes identity = around where
  ok {identity after} hrun := by
    have hextends : before.Extends after := by
      cases hrun
      exact ⟨List.prefix_rfl, Nat.le_succ _, fun other hlt => if_neg (Nat.ne_of_lt hlt)⟩
    refine ⟨⟨⟨?_, ?_, ?_, ?_⟩, ?_⟩, hextends, ?_⟩
    · cases hrun
      exact hbefore.fits.length_eq
    · cases hrun
      exact hbefore.fits.outermost
    · cases hrun
      exact hbefore.fits.placed
    · intro scope found name value hfound hmem
      refine Knows.mono ?_ hextends
      cases hrun
      exact hbefore.fits.knows hfound hmem
    · cases hrun
      exact hbefore.lexical
    · cases hrun
      exact ⟨Nat.lt_succ_self _, if_pos rfl⟩
  error hrun := by cases hrun

end

theorem Keeps.asCall {before : Watched} {good : Watched → α → Prop} {body : Watch α}
    (h : stage.Keeps body { before with
      machine := { before.machine with callDepth := before.machine.callDepth + 1 } } good)
    (hgood : ∀ {after : Watched} {value : α}, good after value → good { after with
      machine := { after.machine with callDepth := after.machine.callDepth - 1 } } value) :
    stage.Keeps (Watch.asCall body) before good := by
  constructor
  · intro value after hrun
    rw [Watch.asCall] at hrun
    split at hrun
    case h_1 found final hbody =>
      cases hrun
      obtain ⟨hfinal, hextends, hvalue⟩ := h.ok hbody
      exact ⟨⟨hfinal.fits.of_eq rfl rfl, hfinal.lexical⟩,
        ⟨hextends.opened, hextends.identity, hextends.homes⟩, hgood hvalue⟩
    case h_2 => cases hrun
  · intro interrupt after hrun
    rw [Watch.asCall] at hrun
    split at hrun
    case h_1 => cases hrun
    case h_2 found final hbody =>
      cases hrun
      have hfinal := h.error hbody
      exact ⟨hfinal.fits.of_eq rfl rfl, hfinal.lexical⟩

end Stage

end Lox
