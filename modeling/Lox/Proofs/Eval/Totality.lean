import Lox.Proofs.Eval.Soundness

/-!
# Programs without loops

Where no loop stands in a program, nor in any function of the store, everything comes to an outcome.
What is run is a part of what it stands in, except for the bodies of functions: these come from the
store, and may be larger than all that led to their call. But a body is run on one level more, and
there are only so many. So the proof is by induction on the levels that are left, and on each level
by recursion on the tree or the statement.
-/

namespace Lox

namespace Statement

mutual

/-- Whether a loop stands in the statement, be it in the body of a function. -/
def loops : Statement → Bool
  | whileLoop .. => true
  | funDecl _ _ body => anyLoops body
  | block body => anyLoops body
  | ifThen _ success => success.loops
  | ifElse _ success failure => success.loops || failure.loops
  | varDecl .. | expression _ | print _ | returnWith .. => false

def anyLoops : List Statement → Bool
  | [] => false
  | statement :: rest => statement.loops || anyLoops rest

end

end Statement

/-! ### Stores without loops -/

/-- The value belongs to a store with so many scopes, and no loop stands in it. -/
def Value.Tame (size : Nat) : Value → Prop
  | function declared =>
    (function declared).Fits size ∧ Statement.anyLoops declared.body = false
  | _ => True

namespace Value.Tame

theorem fits {size : Nat} {value : Value} (h : value.Tame size) : value.Fits size := by
  cases value with
  | function declared => exact h.1
  | _ => trivial

theorem mono {size larger : Nat} {value : Value} (h : value.Tame size) (hle : size ≤ larger) :
    value.Tame larger := by
  cases value with
  | function declared => exact ⟨h.fits.mono hle, h.2⟩
  | _ => trivial

/-- What fits into every store is no function. -/
theorem of_fits {value : Value} (h : value.Fits 0) (size : Nat) : value.Tame size := by
  cases value with
  | function declared => exact absurd h.1 (Nat.not_lt_zero _)
  | _ => trivial

end Value.Tame

namespace Store

/-- The store is well-formed, and no loop stands in a function that is bound in it. -/
structure Tame (store : Store) : Prop where
  wellFormed : store.WellFormed
  tame : ∀ {scope : ScopeId} {found : Scope} {name : String} {value : Value},
    store.scopes[scope]? = some found → (name, value) ∈ found.bindings →
      value.Tame store.scopes.size

variable {store : Store} (h : store.Tame)
include h

theorem Tame.define {name : String} {value : Value} (hvalue : value.Tame store.scopes.size)
    (scope : ScopeId) : (store.define scope name value).Tame where
  wellFormed := h.wellFormed.define hvalue.fits
  tame {other found bound kept} hfound hmem := by
    rw [size_define]
    rcases mem_of_define hfound hmem with rfl | ⟨old, hold, hmem⟩
    · exact hvalue
    · exact h.tame hold hmem

theorem Tame.add {parent : ScopeId} (hparent : parent < store.scopes.size) :
    (store.add (some parent)).2.Tame where
  wellFormed := h.wellFormed.add fun scope hscope => Option.some.inj hscope ▸ hparent
  tame {scope found name value} hfound hmem := by
    rw [size_add]
    exact (h.tame (mem_of_add hfound hmem) hmem).mono (Nat.le_succ _)

theorem Finds.tame {name : String} {scope target : ScopeId} {value : Value}
    (hfinds : store.Finds name scope target value) : value.Tame store.scopes.size := by
  obtain ⟨inner, hinner, hbound⟩ := hfinds.exists_bound
  exact h.tame hinner (Scope.mem_of_value? hbound)

end Store

namespace Machine

variable {machine : Machine} (h : machine.store.Tame)
include h

theorem tame_bindAll {scope : ScopeId} {bindings : List (Identifier × Value)}
    (hbindings : ∀ binding ∈ bindings, binding.2.Tame machine.store.scopes.size) :
    (machine.bindAll scope bindings).store.Tame := by
  induction bindings generalizing machine with
  | nil => exact h
  | cons binding rest ih =>
    obtain ⟨hbinding, hrest⟩ := List.forall_mem_cons.1 hbindings
    refine ih (h.define hbinding scope) fun other hother => ?_
    rw [store_define, Store.size_define]
    exact hrest other hother

theorem tame_called {declared : Function}
    (hclosure : declared.closure < machine.store.scopes.size) {arguments : List Value}
    (harguments : ∀ argument ∈ arguments, argument.Tame machine.store.scopes.size) :
    (machine.called declared arguments).store.Tame := by
  have henter : (machine.enter declared.closure).store.Tame := h.add hclosure
  exact tame_bindAll henter fun binding hbinding =>
    (harguments _ (List.of_mem_zip hbinding).2).mono (machine.grows_enter _).size_le

end Machine

/-! ### Coming to an outcome -/

section
variable {α β : Type}

/-- From the machine, an outcome is come to. The store that is left is tame, and so is a value. -/
def Concludes (before : Machine) (ends : Outcome α → Machine → Prop) (tame : Nat → α → Prop) :
    Prop :=
  ∃ outcome after, ends outcome after ∧ after.store.Tame ∧ before.Grows after ∧
    ∀ value, outcome = .ok value → tame after.store.scopes.size value

namespace Concludes

variable {before after : Machine} {ends : Outcome α → Machine → Prop} {tame : Nat → α → Prop}
  {whole : Outcome β → Machine → Prop} {fine : Nat → β → Prop}

theorem ok {value : α} (h : ends (.ok value) after) (hstore : after.store.Tame)
    (hgrows : before.Grows after) (hvalue : tame after.store.scopes.size value) :
    Concludes before ends tame := by
  refine ⟨.ok value, after, h, hstore, hgrows, fun other heq => ?_⟩
  cases heq
  exact hvalue

theorem raised {error : RuntimeError} (h : ends (.error error) after) (hstore : after.store.Tame)
    (hgrows : before.Grows after) : Concludes before ends tame :=
  ⟨.error error, after, h, hstore, hgrows, fun _ heq => by cases heq⟩

/-- What comes first either cuts off the rest by an error, or yields a value with which the rest
comes to an outcome. -/
theorem bind (first : Concludes before ends tame)
    (cut : ∀ {error between}, ends (.error error) between → whole (.error error) between)
    (rest : ∀ {value between}, ends (.ok value) between → between.store.Tame →
      before.Grows between → tame between.store.scopes.size value → Concludes between whole fine) :
    Concludes before whole fine := by
  obtain ⟨outcome, between, hends, hstore, hgrows, hvalue⟩ := first
  cases outcome with
  | error error => exact raised (cut hends) hstore hgrows
  | ok value =>
    obtain ⟨outcome, after, hwhole, hafter, hmore, hfine⟩ :=
      rest hends hstore hgrows (hvalue value rfl)
    exact ⟨outcome, after, hwhole, hafter, hgrows.trans hmore, hfine⟩

/-- An operator has a result or an error. -/
theorem ofExcept {ends : Outcome Value → Machine → Prop} {line : Nat}
    {result : Except RuntimeError.Cause Value}
    (h : ends (result.mapError (⟨·, line⟩)) before) (hstore : before.store.Tame)
    (hfits : ∀ value, result = .ok value → value.Fits 0) :
    Concludes before ends Value.Tame := by
  cases result with
  | ok value => exact ok h hstore (.refl before) (.of_fits (hfits value rfl) _)
  | error cause => exact raised h hstore (.refl before)

end Concludes

end

/-- A call on the level that takes its arguments comes to an outcome. -/
def CallsConclude (depth : Nat) : Prop :=
  ∀ {machine : Machine} {callee : Value} {arguments : List Value} (line : Nat),
    machine.callDepth = depth → machine.store.Tame → callee.Tame machine.store.scopes.size →
    (∀ argument ∈ arguments, argument.Tame machine.store.scopes.size) →
    callee.arity? = some arguments.length →
    Concludes machine (Applies machine callee arguments line) Value.Tame

/-- The machine is on the level, its store is tame, and the scope is in it. -/
structure Machine.Offers (machine : Machine) (depth : Nat) (scope : ScopeId) : Prop where
  callDepth_eq : machine.callDepth = depth
  store : machine.store.Tame
  scope_lt : scope < machine.store.scopes.size

theorem Machine.Offers.grown {before after : Machine} {depth : Nat} {scope : ScopeId}
    (h : before.Offers depth scope) (hstore : after.store.Tame) (hgrows : before.Grows after) :
    after.Offers depth scope :=
  ⟨hgrows.callDepth_eq.trans h.callDepth_eq, hstore,
    Nat.lt_of_lt_of_le h.scope_lt hgrows.size_le⟩

theorem Machine.Offers.entered {machine : Machine} {depth : Nat} {scope : ScopeId}
    (h : machine.Offers depth scope) : (machine.enter scope).Offers depth machine.newest where
  callDepth_eq := h.callDepth_eq
  store := h.store.add h.scope_lt
  scope_lt := machine.size_enter scope ▸ Nat.lt_succ_self _

/-! ### Trees -/

section
variable {depth : Nat}

mutual

theorem Tree.concludes (hcalls : CallsConclude depth) : ∀ (tree : Tree) {machine : Machine}
    {scope : ScopeId}, machine.Offers depth scope →
    Concludes machine (Evaluates machine scope tree) Value.Tame
  | .literal value, machine, scope, h =>
    .ok (.literal value) h.store (.refl machine) (.of_fits (Value.fits_ofLiteral 0 value) _)
  | .var name, machine, scope, h => by
    rcases h.store.wellFormed.finds_or_unbound name.name scope h.scope_lt with
      ⟨target, value, hfinds⟩ | hunbound
    · exact .ok (.var hfinds) h.store (.refl machine) (hfinds.tame h.store)
    · exact .raised (.varUnbound hunbound) h.store (.refl machine)
  | .group inner, machine, scope, h => by
    obtain ⟨outcome, after, hinner, hrest⟩ := inner.concludes hcalls h
    exact ⟨outcome, after, .group hinner, hrest⟩
  | .unary operator operand line, machine, scope, h =>
    (operand.concludes hcalls h).bind .unaryRaised fun hoperand hstore _ _ =>
      .ofExcept (.unary hoperand (UnaryOperator.gives_iff.2 rfl)) hstore fun _ hresult =>
        UnaryOperator.fits_apply hresult 0
  | .binary operator left right line, machine, scope, h =>
    (left.concludes hcalls h).bind .binaryLeftRaised fun hleft hbetween hgrows _ =>
      (right.concludes hcalls (h.grown hbetween hgrows)).bind (.binaryRightRaised hleft)
        fun hright hstore _ _ =>
          .ofExcept (.binary hleft hright (operator.gives_apply _ _)) hstore fun _ hresult =>
            BinaryOperator.fits_apply hresult 0
  | .logical operator left right, machine, scope, h => by
    refine (left.concludes hcalls h).bind .logicalRaised
      fun {value between} hleft hbetween hgrows hvalue => ?_
    by_cases hsettles : operator.Settles value
    · exact .ok (.settled hleft hsettles) hbetween (.refl between) hvalue
    · obtain ⟨outcome, after, hright, hrest⟩ := right.concludes hcalls (h.grown hbetween hgrows)
      exact ⟨outcome, after, .open hleft hsettles hright, hrest⟩
  | .assign name tree, machine, scope, h => by
    refine (tree.concludes hcalls h).bind .assignRaised
      fun {value after} htree hafter hgrows hvalue => ?_
    have hoffers := h.grown hafter hgrows
    rcases hafter.wellFormed.finds_or_unbound name.name scope hoffers.scope_lt with
      ⟨target, old, hfinds⟩ | hunbound
    · exact .ok (.assign htree hfinds) (hafter.define hvalue target) (after.grows_define ..)
        (hvalue.mono (after.grows_define ..).size_le)
    · exact .raised (.assignUnbound htree hunbound) hafter (.refl after)
  | .call callee arguments line, machine, scope, h => by
    refine (callee.concludes hcalls h).bind .calleeRaised
      fun {called between} hcallee hbetween hgrows hcalled => ?_
    cases harity : called.arity? with
    | none => exact .raised (.notCallable hcallee harity) hbetween (.refl between)
    | some expected =>
      have hoffers := h.grown hbetween hgrows
      refine (Tree.allConclude hcalls arguments hoffers).bind (.argumentRaised hcallee harity)
        fun {values ready} hall hready hmore hvalues => ?_
      by_cases hlength : values.length = expected
      · subst hlength
        have hdepth := (hoffers.grown hready hmore).callDepth_eq
        obtain ⟨outcome, after, happlies, hrest⟩ :=
          hcalls line hdepth hready (hcalled.mono hmore.size_le) hvalues harity
        exact ⟨outcome, after, .call hcallee hall harity happlies, hrest⟩
      · exact .raised (.wrongArity hcallee harity hall hlength) hready (.refl ready)

theorem Tree.allConclude (hcalls : CallsConclude depth) : ∀ (trees : List Tree)
    {machine : Machine} {scope : ScopeId}, machine.Offers depth scope →
    Concludes machine (EvaluatesAll machine scope trees)
      fun size values => ∀ value ∈ values, value.Tame size
  | [], machine, scope, h => .ok .nil h.store (.refl machine) (by simp)
  | tree :: rest, machine, scope, h =>
    (tree.concludes hcalls h).bind .headRaised fun htree hbetween hgrows hvalue =>
      (Tree.allConclude hcalls rest (h.grown hbetween hgrows)).bind (.tailRaised htree)
        fun {values after} hrest hafter hmore hvalues =>
          .ok (.cons htree hrest) hafter (.refl after)
            (List.forall_mem_cons.2 ⟨hvalue.mono hmore.size_le, hvalues⟩)

end

/-! ### Statements -/

theorem Concludes.unfold (hcalls : CallsConclude depth) {machine : Machine} {scope : ScopeId}
    (h : machine.Offers depth scope) {expression : Expression} (hlegible : expression.Legible) :
    ∃ tree, expression.Unfolds tree ∧
      Concludes machine (Evaluates machine scope tree) Value.Tame := by
  obtain ⟨tree, hunfolds⟩ := hlegible
  exact ⟨tree, hunfolds, tree.concludes hcalls h⟩

mutual

theorem Statement.concludes (hcalls : CallsConclude depth) : ∀ (statement : Statement)
    {machine : Machine} {scope : ScopeId}, machine.Offers depth scope →
    statement.Keeps Expression.Legible → statement.loops = false →
    Concludes machine (Executes machine scope statement)
      fun size completion => completion.result.Tame size
  | .varDecl name none, machine, scope, h, _, _ =>
    .ok .var (h.store.define (show Value.nil.Tame _ from trivial) scope)
      (machine.grows_define ..) trivial
  | .varDecl name (some initial), machine, scope, h, hkeeps, _ => by
    obtain ⟨tree, hunfolds, htree⟩ := Concludes.unfold hcalls h (hkeeps initial List.mem_cons_self)
    exact htree.bind (.initialRaised hunfolds) fun {value between} hends hbetween _ hvalue =>
      .ok (.initialized hunfolds hends) (hbetween.define hvalue scope) (between.grows_define ..)
        trivial
  | .funDecl name parameters body, machine, scope, h, hkeeps, hloops => by
    rw [loops] at hloops
    have hvalue : (Value.function ⟨machine.nextIdentity, name, parameters, body, scope⟩).Tame
        machine.store.scopes.size :=
      ⟨⟨h.scope_lt, Statement.keeps_funDecl_iff.1 hkeeps⟩, hloops⟩
    exact .ok .function (h.store.define hvalue scope) (machine.grows_declare ..) trivial
  | .expression value, machine, scope, h, hkeeps, _ => by
    obtain ⟨tree, hunfolds, htree⟩ :=
      Concludes.unfold hcalls h (hkeeps value List.mem_cons_self)
    exact htree.bind (.expressionRaised hunfolds) fun {value between} hends hbetween _ _ =>
      .ok (.expression hunfolds hends) hbetween (.refl between) trivial
  | .print value, machine, scope, h, hkeeps, _ => by
    obtain ⟨tree, hunfolds, htree⟩ :=
      Concludes.unfold hcalls h (hkeeps value List.mem_cons_self)
    exact htree.bind (.printRaised hunfolds) fun {value between} hends hbetween _ _ =>
      .ok (.print hunfolds hends) hbetween ⟨Nat.le_refl _, rfl⟩ trivial
  | .block body, machine, scope, h, hkeeps, hloops => by
    rw [loops] at hloops
    obtain ⟨outcome, after, hends, hstore, hgrows, hvalue⟩ :=
      Statement.allConclude hcalls body h.entered (Statement.keeps_block_iff.1 hkeeps) hloops
    exact ⟨outcome, after, .block hends, hstore, (machine.grows_enter scope).trans hgrows, hvalue⟩
  | .ifThen condition success, machine, scope, h, hkeeps, hloops => by
    obtain ⟨hcondition, hsuccess⟩ := Statement.keeps_ifThen_iff.1 hkeeps
    rw [loops] at hloops
    obtain ⟨tree, hunfolds, htree⟩ := Concludes.unfold hcalls h hcondition
    refine htree.bind (.ifRaised hunfolds) fun {value between} hends hbetween hgrows _ => ?_
    by_cases hfalsy : value.Falsy
    · exact .ok (.ifFails hunfolds hends hfalsy) hbetween (.refl between) trivial
    · obtain ⟨outcome, after, hrun, hrest⟩ :=
        success.concludes hcalls (h.grown hbetween hgrows) hsuccess hloops
      exact ⟨outcome, after, .ifHolds hunfolds hends hfalsy hrun, hrest⟩
  | .ifElse condition success failure, machine, scope, h, hkeeps, hloops => by
    obtain ⟨hcondition, hsuccess, hfailure⟩ := Statement.keeps_ifElse_iff.1 hkeeps
    rw [loops, Bool.or_eq_false_iff] at hloops
    obtain ⟨tree, hunfolds, htree⟩ := Concludes.unfold hcalls h hcondition
    refine htree.bind (.elseRaised hunfolds) fun {value between} hends hbetween hgrows _ => ?_
    by_cases hfalsy : value.Falsy
    · obtain ⟨outcome, after, hrun, hrest⟩ :=
        failure.concludes hcalls (h.grown hbetween hgrows) hfailure hloops.2
      exact ⟨outcome, after, .elseFails hunfolds hends hfalsy hrun, hrest⟩
    · obtain ⟨outcome, after, hrun, hrest⟩ :=
        success.concludes hcalls (h.grown hbetween hgrows) hsuccess hloops.1
      exact ⟨outcome, after, .elseHolds hunfolds hends hfalsy hrun, hrest⟩
  | .whileLoop condition body, _, _, _, _, hloops => by
    rw [loops] at hloops
    cases hloops
  | .returnWith none line, machine, scope, h, _, _ =>
    .ok .returnNil h.store (.refl machine) trivial
  | .returnWith (some value) line, machine, scope, h, hkeeps, _ => by
    obtain ⟨tree, hunfolds, htree⟩ :=
      Concludes.unfold hcalls h (hkeeps value List.mem_cons_self)
    exact htree.bind (.returnRaised hunfolds) fun {value between} hends hbetween _ hvalue =>
      .ok (.returnWith hunfolds hends) hbetween (.refl between) hvalue

theorem Statement.allConclude (hcalls : CallsConclude depth) : ∀ (statements : List Statement)
    {machine : Machine} {scope : ScopeId}, machine.Offers depth scope →
    Statement.AllKeep Expression.Legible statements → Statement.anyLoops statements = false →
    Concludes machine (ExecutesAll machine scope statements)
      fun size completion => completion.result.Tame size
  | [], machine, scope, h, _, _ => .ok .nil h.store (.refl machine) trivial
  | statement :: rest, machine, scope, h, hkeep, hloops => by
    obtain ⟨hstatement, hrest⟩ := List.forall_mem_cons.1 hkeep
    rw [anyLoops, Bool.or_eq_false_iff] at hloops
    refine (statement.concludes hcalls h hstatement hloops.1).bind (fun hends => .left hends nofun)
      fun {completion between} hends hbetween hgrows hvalue => ?_
    cases completion with
    | normal =>
      obtain ⟨outcome, after, hrun, hmore⟩ :=
        Statement.allConclude hcalls rest (h.grown hbetween hgrows) hrest hloops.2
      exact ⟨outcome, after, .cons hends hrun, hmore⟩
    | returned value => exact .ok (.left hends nofun) hbetween (.refl between) hvalue

end

end

/-! ### Calls -/

/-- On a full level no body is run, and on any other one a body is run on the next level. -/
theorem callsConclude_of_next {depth : Nat}
    (hnext : depth < maxCallDepth → CallsConclude (depth + 1)) : CallsConclude depth := by
  intro machine callee arguments line hdepth hstore hcallee harguments harity
  cases callee with
  | native identity which =>
    cases which
    exact .ok .clock hstore ⟨Nat.le_refl _, rfl⟩ trivial
  | function declared =>
    by_cases hfull : maxCallDepth ≤ machine.callDepth
    · exact .raised (.stackOverflow hfull) hstore (.refl machine)
    · obtain ⟨⟨hclosure, hkeep⟩, hloops⟩ := hcallee
      have hroom := Nat.not_le.1 hfull
      obtain ⟨-, hscope, hcalled⟩ := Machine.wellFormed_called hstore.wellFormed hclosure
        fun argument hmem => (harguments argument hmem).fits
      have hoffers : (machine.called declared arguments).Offers (depth + 1) machine.newest :=
        ⟨hcalled.trans (congrArg _ hdepth), machine.tame_called hstore hclosure harguments, hscope⟩
      obtain ⟨outcome, after, hends, hafter, hgrows, hvalue⟩ :=
        Statement.allConclude (hnext (hdepth ▸ hroom)) declared.body hoffers hkeep hloops
      have hsize : machine.newest ≤ after.store.scopes.size :=
        Nat.le_trans (Nat.le_of_lt hscope) hgrows.size_le
      refine ⟨_, _, .function hroom hends, hafter, ⟨hsize, rfl⟩, fun value hok => ?_⟩
      cases outcome with
      | error error => cases hok
      | ok completion =>
        cases hok
        exact hvalue completion rfl
  | nil | bool | number | text => cases harity

theorem callsConclude (depth : Nat) : CallsConclude depth :=
  callsConclude_of_next fun _ => callsConclude (depth + 1)
termination_by maxCallDepth - depth

/-- Where the store is tame, statements without loops come to an outcome, and leave a tame store. -/
theorem ExecutesAll.exists_of_unlooped {machine : Machine} {scope : ScopeId}
    (hstore : machine.store.Tame) (hscope : scope < machine.store.scopes.size)
    {statements : List Statement} (hkeep : Statement.AllKeep Expression.Legible statements)
    (hloops : Statement.anyLoops statements = false) :
    ∃ outcome after, ExecutesAll machine scope statements outcome after ∧ after.store.Tame ∧
      machine.Grows after := by
  obtain ⟨outcome, after, hends, hafter, hgrows, -⟩ :=
    Statement.allConclude (callsConclude _) statements ⟨rfl, hstore, hscope⟩ hkeep hloops
  exact ⟨outcome, after, hends, hafter, hgrows⟩

end Lox
