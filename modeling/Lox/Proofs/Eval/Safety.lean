import Lox.Proofs.Eval.Run

/-!
# Runs that stay sound

In a well-formed store, a program whose expressions can be read runs without a fault, unless its fuel
runs out. However it ends, the store is still well-formed, scopes were only added, and as many calls
are active as before.
-/

namespace Lox

/-- What every run does to a machine. -/
structure Machine.Grows (before after : Machine) : Prop where
  size_le : before.store.scopes.size ≤ after.store.scopes.size
  callDepth_eq : after.callDepth = before.callDepth

theorem Machine.Grows.refl (machine : Machine) : machine.Grows machine := ⟨Nat.le_refl _, rfl⟩

theorem Machine.Grows.trans {first second third : Machine} (h : first.Grows second)
    (hmore : second.Grows third) : first.Grows third :=
  ⟨Nat.le_trans h.size_le hmore.size_le, hmore.callDepth_eq.trans h.callDepth_eq⟩

theorem Machine.grows_define (machine : Machine) (scope : ScopeId) (name : String) (value : Value) :
    machine.Grows (machine.define scope name value) :=
  ⟨Nat.le_of_eq (machine.store.size_define ..).symm, rfl⟩

theorem Machine.grows_declare (machine : Machine) (scope : ScopeId) (name : Identifier)
    (parameters : List Identifier) (body : List Statement) :
    machine.Grows (machine.declare scope name parameters body) :=
  ⟨Nat.le_of_eq (machine.store.size_define ..).symm, rfl⟩

theorem Machine.size_enter (machine : Machine) (parent : ScopeId) :
    (machine.enter parent).store.scopes.size = machine.newest + 1 :=
  machine.store.size_add parent

theorem Machine.grows_enter (machine : Machine) (parent : ScopeId) :
    machine.Grows (machine.enter parent) :=
  ⟨machine.size_enter parent ▸ Nat.le_succ _, rfl⟩

theorem Machine.grows_bindAll (scope : ScopeId) (bindings : List (Identifier × Value)) :
    ∀ machine : Machine, machine.Grows (machine.bindAll scope bindings) := by
  induction bindings with
  | nil => exact .refl
  | cons binding rest ih => exact fun machine => (machine.grows_define ..).trans (ih _)

theorem Machine.wellFormed_bindAll (scope : ScopeId) (bindings : List (Identifier × Value)) :
    ∀ {machine : Machine}, machine.store.WellFormed →
      (∀ binding ∈ bindings, binding.2.Fits machine.store.scopes.size) →
      (machine.bindAll scope bindings).store.WellFormed := by
  induction bindings with
  | nil => exact fun h _ => h
  | cons binding rest ih =>
    intro machine h hfits
    refine ih (h.define (hfits binding List.mem_cons_self)) fun other hother => ?_
    rw [Machine.store_define, Store.size_define]
    exact hfits other (List.mem_cons_of_mem _ hother)

/-- What a statement ended with belongs to a store with so many scopes. -/
def Completion.Fits (size : Nat) (completion : Completion) : Prop :=
  completion.result.Fits size

namespace Run

variable {α β : Type}

/-- From a machine, the run has no fault but the lack of fuel, and however it ends, the machine that
is left is sound. A value that it yields is good there. -/
structure Safe (run : Run α) (before : Machine) (good : Machine → α → Prop) : Prop where
  wellFormed : ∀ {outcome : Outcome α} {after : Machine}, run.Ends before outcome after →
    after.store.WellFormed
  grows : ∀ {outcome : Outcome α} {after : Machine}, run.Ends before outcome after →
    before.Grows after
  good : ∀ {value : α} {after : Machine}, run.Ends before (.ok value) after → good after value
  fault_eq : ∀ {fault : Fault} {after : Machine}, run before = .error (.fault fault) after →
    fault = .outOfFuel

section
variable {before : Machine} {good : Machine → α → Prop} {fine : Machine → β → Prop}

theorem safe_pure {value : α} (hstore : before.store.WellFormed) (hgood : good before value) :
    (pure value : Run α).Safe before good where
  wellFormed h := (ends_pure.1 h).2 ▸ hstore
  grows h := (ends_pure.1 h).2 ▸ .refl before
  good h := by
    obtain ⟨hvalue, rfl⟩ := ends_pure.1 h
    cases hvalue
    exact hgood
  fault_eq h := by cases h

theorem safe_raise {cause : RuntimeError.Cause} {line : Nat} (hstore : before.store.WellFormed) :
    (raise cause line : Run α).Safe before good where
  wellFormed h := (ends_raise.1 h).2 ▸ hstore
  grows h := (ends_raise.1 h).2 ▸ .refl before
  good h := by cases (ends_raise.1 h).1
  fault_eq h := by cases h

theorem safe_outOfFuel : (fail .outOfFuel : Run α).Safe before good where
  wellFormed h := absurd h not_ends_fail
  grows h := absurd h not_ends_fail
  good h := absurd h not_ends_fail
  fault_eq h := by
    cases h
    rfl

theorem safe_modifyGet {change : Machine → α × Machine}
    (hstore : (change before).2.store.WellFormed) (hgrows : before.Grows (change before).2)
    (hgood : good (change before).2 (change before).1) :
    (modifyGet change : Run α).Safe before good where
  wellFormed h := (ends_modifyGet.1 h).2 ▸ hstore
  grows h := (ends_modifyGet.1 h).2 ▸ hgrows
  good h := by
    obtain ⟨hvalue, rfl⟩ := ends_modifyGet.1 h
    cases hvalue
    exact hgood
  fault_eq h := by cases h

theorem Safe.bind {run : Run α} {next : α → Run β} (first : run.Safe before good)
    (second : ∀ value between, between.store.WellFormed → before.Grows between →
      good between value → (next value).Safe between fine) : (run >>= next).Safe before fine where
  wellFormed h := by
    obtain ⟨value, between, hrun, hnext⟩ | ⟨error, hrun, -⟩ := ends_bind.1 h
    · exact (second value between (first.wellFormed hrun) (first.grows hrun)
        (first.good hrun)).wellFormed hnext
    · exact first.wellFormed hrun
  grows h := by
    obtain ⟨value, between, hrun, hnext⟩ | ⟨error, hrun, -⟩ := ends_bind.1 h
    · exact (first.grows hrun).trans ((second value between (first.wellFormed hrun)
        (first.grows hrun) (first.good hrun)).grows hnext)
    · exact first.grows hrun
  good h := by
    obtain ⟨value, between, hrun, hnext⟩ | ⟨error, -, herror⟩ := ends_bind.1 h
    · exact (second value between (first.wellFormed hrun) (first.grows hrun)
        (first.good hrun)).good hnext
    · cases herror
  fault_eq h := by
    rw [bind_apply] at h
    cases hrun : run before with
    | ok value between =>
      rw [hrun] at h
      have hends : run.Ends before (.ok value) between := hrun
      exact (second value between (first.wellFormed hends) (first.grows hends)
        (first.good hends)).fault_eq h
    | error interrupt between =>
      rw [hrun] at h
      cases h
      exact first.fault_eq hrun

theorem safe_get_bind {next : Machine → Run β} (h : (next before).Safe before fine) :
    (get >>= next).Safe before fine where
  wellFormed hrun := h.wellFormed (ends_get_bind.1 hrun)
  grows hrun := h.grows (ends_get_bind.1 hrun)
  good hrun := h.good (ends_get_bind.1 hrun)
  fault_eq hrun := h.fault_eq hrun

theorem Safe.ite {condition : Prop} [Decidable condition] {first second : Run α}
    (hfirst : first.Safe before good) (hsecond : second.Safe before good) :
    (if condition then first else second).Safe before good := by
  split
  · exact hfirst
  · exact hsecond

/-- A call gives back the level that it takes. -/
theorem Safe.asCall {body : Run α}
    (h : body.Safe { before with callDepth := before.callDepth + 1 } good)
    (hgood : ∀ {machine : Machine} {value : α} {depth : Nat}, good machine value →
      good { machine with callDepth := depth } value) : (asCall body).Safe before good where
  wellFormed hrun := by
    obtain ⟨final, hbody, rfl⟩ := ends_asCall.1 hrun
    have hfinal : final.store.WellFormed := h.wellFormed hbody
    exact hfinal
  grows hrun := by
    obtain ⟨final, hbody, rfl⟩ := ends_asCall.1 hrun
    have hgrows := h.grows hbody
    exact ⟨hgrows.size_le, by simp [hgrows.callDepth_eq]⟩
  good hrun := by
    obtain ⟨final, hbody, rfl⟩ := ends_asCall.1 hrun
    exact hgood (h.good hbody)
  fault_eq hrun := by
    rw [Run.asCall] at hrun
    split at hrun
    case h_1 => cases hrun
    case h_2 hbody =>
      cases hrun
      exact h.fault_eq hbody

end

/-! ### Steps -/

section
variable {before : Machine} (hstore : before.store.WellFormed)
include hstore

theorem safe_define {scope : ScopeId} {name : String} {value : Value}
    (hvalue : value.Fits before.store.scopes.size) :
    (define scope name value).Safe before fun _ _ => True :=
  safe_modifyGet (hstore.define hvalue) (before.grows_define ..) trivial

theorem safe_newScope {parent : ScopeId} (hparent : parent < before.store.scopes.size) :
    (newScope (some parent)).Safe before fun after scope => scope < after.store.scopes.size := by
  refine safe_modifyGet (hstore.add fun scope hscope => ?_) (before.grows_enter parent) ?_
  · cases hscope
    exact hparent
  · simp [Store.add]

theorem safe_print {text : String} : (print text).Safe before fun _ _ => True :=
  safe_modifyGet hstore ⟨Nat.le_refl _, rfl⟩ trivial

theorem safe_newIdentity : newIdentity.Safe before fun _ _ => True :=
  safe_modifyGet hstore ⟨Nat.le_refl _, rfl⟩ trivial

theorem safe_readClock : readClock.Safe before fun _ _ => True :=
  safe_modifyGet hstore ⟨Nat.le_refl _, rfl⟩ trivial

theorem safe_bindAll {scope : ScopeId} {parameters : List Identifier} {arguments : List Value}
    (harguments : ∀ argument ∈ arguments, argument.Fits before.store.scopes.size) :
    (bindAll scope parameters arguments).Safe before fun _ _ => True := by
  have hends : ∀ {outcome : Outcome Unit} {after : Machine},
      (bindAll scope parameters arguments).Ends before outcome after →
        after = before.bindAll scope (parameters.zip arguments) := fun h => (ends_bindAll.1 h).2
  refine ⟨fun h => hends h ▸ ?_, fun h => hends h ▸ before.grows_bindAll .., fun _ => trivial,
    fun h => ?_⟩
  · exact before.wellFormed_bindAll scope _ hstore fun binding hbinding =>
      harguments _ (List.of_mem_zip hbinding).2
  · exact absurd h (ends_bindAll.2 ⟨rfl, rfl⟩).ne_fault

variable {scope : ScopeId} (hscope : scope < before.store.scopes.size) {name : Identifier}
include hscope

theorem ends_lookup {outcome : Outcome Value} {after : Machine} :
    (lookup scope name).Ends before outcome after ↔ after = before ∧
      ((∃ target value, before.store.Finds name.name scope target value ∧ outcome = .ok value) ∨
        before.store.Unbound name.name scope ∧
          outcome = .error ⟨.undefined name.name, name.line⟩) := by
  rw [lookup, ends_get_bind]
  rcases hstore.finds_or_unbound name.name scope hscope with ⟨target, value, hfinds⟩ | hunbound
  · have hvalue := hfinds.value?_eq hstore
    rw [hvalue]
    rw [ends_pure]
    constructor
    · rintro ⟨rfl, rfl⟩
      exact ⟨rfl, .inl ⟨target, value, hfinds, rfl⟩⟩
    · rintro ⟨rfl, ⟨other, found, hother, rfl⟩ | ⟨hunbound, -⟩⟩
      · have hsame := hother.value?_eq hstore
        rw [hvalue] at hsame
        cases hsame
        exact ⟨rfl, rfl⟩
      · rw [hunbound.value?_eq] at hvalue
        cases hvalue
  · have hnone := hunbound.value?_eq
    rw [hnone]
    rw [ends_raise]
    constructor
    · rintro ⟨rfl, rfl⟩
      exact ⟨rfl, .inr ⟨hunbound, rfl⟩⟩
    · rintro ⟨rfl, ⟨other, found, hother, rfl⟩ | ⟨-, rfl⟩⟩
      · rw [hother.value?_eq hstore] at hnone
        cases hnone
      · exact ⟨rfl, rfl⟩

theorem ends_assign {value : Value} {outcome : Outcome Unit} {after : Machine} :
    (assign scope name value).Ends before outcome after ↔
      (∃ target old, before.store.Finds name.name scope target old ∧ outcome = .ok () ∧
        after = before.define target name.name value) ∨
      (before.store.Unbound name.name scope ∧
        outcome = .error ⟨.undefined name.name, name.line⟩ ∧ after = before) := by
  rw [assign, ends_get_bind]
  rcases hstore.finds_or_unbound name.name scope hscope with ⟨target, old, hfinds⟩ | hunbound
  · have htarget := hfinds.resolve?_eq hstore
    rw [htarget]
    refine ends_define.trans ⟨fun h => .inl ⟨target, old, hfinds, h⟩, ?_⟩
    rintro (⟨other, found, hother, h⟩ | ⟨hunbound, -⟩)
    · rw [hother.resolve?_eq hstore] at htarget
      cases htarget
      exact h
    · rw [hunbound.resolve?_eq] at htarget
      cases htarget
  · have hnone := hunbound.resolve?_eq
    rw [hnone]
    refine ends_raise.trans ⟨fun h => .inr ⟨hunbound, h⟩, ?_⟩
    rintro (⟨other, found, hother, -⟩ | ⟨-, h⟩)
    · rw [hother.resolve?_eq hstore] at hnone
      cases hnone
    · exact h

theorem safe_lookup : (lookup scope name).Safe before fun after value =>
    value.Fits after.store.scopes.size := by
  refine ⟨fun h => ?_, fun h => ?_, fun h => ?_, fun h => ?_⟩
  · exact ((ends_lookup hstore hscope).1 h).1 ▸ hstore
  · exact ((ends_lookup hstore hscope).1 h).1 ▸ .refl before
  · obtain ⟨rfl, ⟨target, value, hfinds, hvalue⟩ | ⟨-, hvalue⟩⟩ := (ends_lookup hstore hscope).1 h
    · cases hvalue
      exact hfinds.fits hstore
    · cases hvalue
  · rcases hstore.finds_or_unbound name.name scope hscope with ⟨target, value, hfinds⟩ | hunbound
    · exact absurd h ((ends_lookup hstore hscope).2
        ⟨rfl, .inl ⟨target, value, hfinds, rfl⟩⟩).ne_fault
    · exact absurd h ((ends_lookup hstore hscope).2 ⟨rfl, .inr ⟨hunbound, rfl⟩⟩).ne_fault

theorem safe_assign {value : Value} (hvalue : value.Fits before.store.scopes.size) :
    (assign scope name value).Safe before fun _ _ => True := by
  have hdefine (target : ScopeId) : (define target name.name value).Safe before fun _ _ => True :=
    safe_define hstore hvalue
  refine ⟨fun h => ?_, fun h => ?_, fun _ => trivial, fun h => ?_⟩
  · obtain ⟨target, old, -, houtcome, hafter⟩ | ⟨-, -, rfl⟩ := (ends_assign hstore hscope).1 h
    · exact (hdefine target).wellFormed (ends_define.2 ⟨houtcome, hafter⟩)
    · exact hstore
  · obtain ⟨target, old, -, houtcome, hafter⟩ | ⟨-, -, rfl⟩ := (ends_assign hstore hscope).1 h
    · exact (hdefine target).grows (ends_define.2 ⟨houtcome, hafter⟩)
    · exact .refl _
  · rcases hstore.finds_or_unbound name.name scope hscope with ⟨target, old, hfinds⟩ | hunbound
    · exact absurd h ((ends_assign hstore hscope).2
        (.inl ⟨target, old, hfinds, rfl, rfl⟩)).ne_fault
    · exact absurd h ((ends_assign hstore hscope).2 (.inr ⟨hunbound, rfl, rfl⟩)).ne_fault

end

theorem safe_ofExcept {before : Machine} (hstore : before.store.WellFormed) {line : Nat}
    {result : Except RuntimeError.Cause Value} {good : Machine → Value → Prop}
    (hgood : ∀ value, result = .ok value → good before value) :
    (ofExcept line result).Safe before good := by
  cases result with
  | ok value => exact safe_pure hstore (hgood value rfl)
  | error cause => exact safe_raise hstore

end Run

/-! ### Operators -/

theorem UnaryOperator.fits_apply {operator : UnaryOperator} {operand value : Value}
    (h : operator.apply operand = .ok value) (size : Nat) : value.Fits size := by
  cases operator with
  | not =>
    cases h
    trivial
  | negate =>
    cases operand <;> cases h
    trivial

theorem Value.fits_onNumbers {operation : Float → Float → Value} {left right value : Value}
    {size : Nat} (h : onNumbers operation left right = .ok value)
    (hoperation : ∀ first second, (operation first second).Fits size) : value.Fits size := by
  unfold onNumbers at h
  split at h
  · cases h
    exact hoperation _ _
  · cases h

theorem Value.fits_add {left right value : Value} (h : left.add right = .ok value) (size : Nat) :
    value.Fits size := by
  unfold add at h
  split at h <;> cases h <;> trivial

theorem BinaryOperator.fits_apply {operator : BinaryOperator} {left right value : Value}
    (h : operator.apply left right = .ok value) (size : Nat) : value.Fits size := by
  cases operator with
  | add => exact Value.fits_add h size
  | equal | notEqual =>
    cases h
    trivial
  | _ => exact Value.fits_onNumbers h fun _ _ => trivial

namespace Run

/-! ### Programs -/

/-- With this much fuel, everything that can be read runs safely. -/
structure AllSafe (fuel : Nat) : Prop where
  node : ∀ {before : Machine} {nodes : Array Node} {scope : ScopeId} {index : Nat} {tree : Tree},
    before.store.WellFormed → scope < before.store.scopes.size → Unfolds nodes index tree →
      (evaluateNode fuel nodes scope index).Safe before fun after value =>
        value.Fits after.store.scopes.size
  nodes : ∀ {before : Machine} {nodes : Array Node} {scope : ScopeId} {indices : List Nat}
    {trees : List Tree}, before.store.WellFormed → scope < before.store.scopes.size →
      AllUnfold nodes indices trees →
        (evaluateNodes fuel nodes scope indices).Safe before fun after values =>
          ∀ value ∈ values, value.Fits after.store.scopes.size
  call : ∀ {before : Machine} {callee : Value} {arguments : List Value} {line : Nat},
    before.store.WellFormed → callee.Fits before.store.scopes.size →
      (∀ argument ∈ arguments, argument.Fits before.store.scopes.size) →
        (call fuel callee arguments line).Safe before fun after value =>
          value.Fits after.store.scopes.size
  execute : ∀ {before : Machine} {scope : ScopeId} {statement : Statement},
    before.store.WellFormed → scope < before.store.scopes.size →
      statement.Keeps Expression.Legible →
        (execute fuel scope statement).Safe before fun after completion =>
          completion.Fits after.store.scopes.size
  executeAll : ∀ {before : Machine} {scope : ScopeId} {statements : List Statement},
    before.store.WellFormed → scope < before.store.scopes.size →
      Statement.AllKeep Expression.Legible statements →
        (executeAll fuel scope statements).Safe before fun after completion =>
          completion.Fits after.store.scopes.size
  loop : ∀ {before : Machine} {scope : ScopeId} {condition : Expression} {body : Statement},
    before.store.WellFormed → scope < before.store.scopes.size → condition.Legible →
      body.Keeps Expression.Legible →
        (loop fuel scope condition body).Safe before fun after completion =>
          completion.Fits after.store.scopes.size

theorem allSafe_zero : AllSafe 0 := by
  constructor <;> intros
  · rw [evaluateNode]
    exact safe_outOfFuel
  · rw [evaluateNodes]
    exact safe_outOfFuel
  · rw [call]
    exact safe_outOfFuel
  · rw [execute]
    exact safe_outOfFuel
  · rw [executeAll]
    exact safe_outOfFuel
  · rw [loop]
    exact safe_outOfFuel

namespace AllSafe

variable {fuel : Nat} (h : AllSafe fuel) {before : Machine} (hstore : before.store.WellFormed)
  {scope : ScopeId}
include h hstore

theorem call_succ {callee : Value} {arguments : List Value} {line : Nat}
    (hcallee : callee.Fits before.store.scopes.size)
    (harguments : ∀ argument ∈ arguments, argument.Fits before.store.scopes.size) :
    (Run.call (fuel + 1) callee arguments line).Safe before fun after value =>
      value.Fits after.store.scopes.size := by
  cases callee with
  | native identity which =>
    cases which
    rw [Run.call]
    exact (safe_readClock hstore).bind fun _ _ hbetween _ _ => safe_pure hbetween trivial
  | function declared =>
    obtain ⟨hclosure, hbody⟩ := hcallee
    rw [Run.call]
    refine safe_get_bind (.ite (safe_raise hstore) ?_)
    refine (safe_newScope hstore hclosure).bind fun scope entered hentered hgrows hscope => ?_
    refine (safe_bindAll hentered fun argument hmem =>
      (harguments argument hmem).mono hgrows.size_le).bind fun _ bound hbound hmore _ => ?_
    have hsafe : (Run.executeAll fuel scope declared.body).Safe
        { bound with callDepth := bound.callDepth + 1 } _ :=
      h.executeAll hbound (Nat.lt_of_lt_of_le hscope hmore.size_le) hbody
    exact (hsafe.asCall id).bind fun completion final hfinal _ hfits => safe_pure hfinal hfits
  | nil | bool value | number value | text value =>
    simp only [Run.call]
    exact safe_raise hstore

variable (hscope : scope < before.store.scopes.size)
include hscope

theorem node_succ {nodes : Array Node} {index : Nat} {tree : Tree} (hunfolds : Unfolds nodes index tree) :
    (evaluateNode (fuel + 1) nodes scope index).Safe before fun after value =>
      value.Fits after.store.scopes.size := by
  cases hunfolds with
  | literal hfound =>
    simp only [evaluateNode, hfound]
    exact safe_pure hstore (Value.fits_ofLiteral _ _)
  | var hfound =>
    simp only [evaluateNode, hfound]
    exact safe_lookup hstore hscope
  | group hfound hinner =>
    simp only [evaluateNode, hfound]
    exact h.node hstore hscope hinner
  | unary hfound hoperand =>
    simp only [evaluateNode, hfound]
    exact (h.node hstore hscope hoperand).bind fun value between hbetween _ _ =>
      safe_ofExcept hbetween fun result hresult => UnaryOperator.fits_apply hresult _
  | binary hfound hleft hright =>
    simp only [evaluateNode, hfound]
    exact (h.node hstore hscope hleft).bind fun first between hbetween hgrows _ =>
      (h.node hbetween (Nat.lt_of_lt_of_le hscope hgrows.size_le) hright).bind
        fun second further hfurther _ _ =>
          safe_ofExcept hfurther fun result hresult => BinaryOperator.fits_apply hresult _
  | logical hfound hleft hright =>
    simp only [evaluateNode, hfound]
    exact (h.node hstore hscope hleft).bind fun value between hbetween hgrows hvalue =>
      .ite (safe_pure hbetween hvalue)
        (h.node hbetween (Nat.lt_of_lt_of_le hscope hgrows.size_le) hright)
  | assign hfound hvalue =>
    simp only [evaluateNode, hfound]
    exact (h.node hstore hscope hvalue).bind fun value between hbetween hgrows hfits =>
      (safe_assign hbetween (Nat.lt_of_lt_of_le hscope hgrows.size_le) hfits).bind
        fun _ further hfurther hmore _ => safe_pure hfurther (hfits.mono hmore.size_le)
  | call hfound hcallee harguments =>
    simp only [evaluateNode, hfound]
    refine (h.node hstore hscope hcallee).bind fun callee between hbetween hgrows hfits => ?_
    split
    · exact safe_raise hbetween
    · exact (h.nodes hbetween (Nat.lt_of_lt_of_le hscope hgrows.size_le) harguments).bind
        fun values further hfurther hmore hvalues =>
          .ite (h.call hfurther (hfits.mono hmore.size_le) hvalues) (safe_raise hfurther)

theorem nodes_succ {nodes : Array Node} {indices : List Nat} {trees : List Tree}
    (hall : AllUnfold nodes indices trees) :
    (evaluateNodes (fuel + 1) nodes scope indices).Safe before fun after values =>
      ∀ value ∈ values, value.Fits after.store.scopes.size := by
  cases hall with
  | nil =>
    rw [evaluateNodes]
    exact safe_pure hstore (by simp)
  | cons hunfolds hrest =>
    rw [evaluateNodes]
    exact (h.node hstore hscope hunfolds).bind fun value between hbetween hgrows hfits =>
      (h.nodes hbetween (Nat.lt_of_lt_of_le hscope hgrows.size_le) hrest).bind
        fun values further hfurther hmore hvalues =>
          safe_pure hfurther (List.forall_mem_cons.2 ⟨hfits.mono hmore.size_le, hvalues⟩)

theorem execute_succ {statement : Statement} (hkeeps : statement.Keeps Expression.Legible) :
    (Run.execute (fuel + 1) scope statement).Safe before fun after completion =>
      completion.Fits after.store.scopes.size := by
  cases statement with
  | varDecl name initial =>
    cases initial with
    | none =>
      have hnil : (pure .nil : Run Value).Safe before fun after value =>
          value.Fits after.store.scopes.size := safe_pure hstore trivial
      rw [Run.execute]
      exact hnil.bind fun value between hbetween _ hfits => (safe_define hbetween hfits).bind
        fun _ further hfurther _ _ => safe_pure hfurther trivial
    | some expression =>
      obtain ⟨tree, htree⟩ := hkeeps expression List.mem_cons_self
      rw [Run.execute]
      exact (h.node hstore hscope htree).bind fun value between hbetween _ hfits =>
        (safe_define hbetween hfits).bind fun _ further hfurther _ _ => safe_pure hfurther trivial
  | funDecl name parameters body =>
    rw [Run.execute]
    refine (safe_newIdentity hstore).bind fun identity between hbetween hgrows _ => ?_
    have hfits : (Value.function ⟨identity, name, parameters, body, scope⟩).Fits
        between.store.scopes.size :=
      ⟨Nat.lt_of_lt_of_le hscope hgrows.size_le, Statement.keeps_funDecl_iff.1 hkeeps⟩
    exact (safe_define hbetween hfits).bind fun _ further hfurther _ _ => safe_pure hfurther trivial
  | expression expression =>
    obtain ⟨tree, htree⟩ := hkeeps expression List.mem_cons_self
    rw [Run.execute]
    exact (h.node hstore hscope htree).bind fun _ between hbetween _ _ => safe_pure hbetween trivial
  | print expression =>
    obtain ⟨tree, htree⟩ := hkeeps expression List.mem_cons_self
    rw [Run.execute]
    exact (h.node hstore hscope htree).bind fun value between hbetween _ _ =>
      (safe_print hbetween).bind fun _ further hfurther _ _ => safe_pure hfurther trivial
  | block body =>
    rw [Run.execute]
    exact (safe_newScope hstore hscope).bind fun inner between hbetween _ hinner =>
      h.executeAll hbetween hinner (Statement.keeps_block_iff.1 hkeeps)
  | ifThen condition success =>
    obtain ⟨⟨tree, htree⟩, hsuccess⟩ := Statement.keeps_ifThen_iff.1 hkeeps
    rw [Run.execute]
    exact (h.node hstore hscope htree).bind fun value between hbetween hgrows _ =>
      .ite (h.execute hbetween (Nat.lt_of_lt_of_le hscope hgrows.size_le) hsuccess)
        (safe_pure hbetween trivial)
  | ifElse condition success failure =>
    obtain ⟨⟨tree, htree⟩, hsuccess, hfailure⟩ := Statement.keeps_ifElse_iff.1 hkeeps
    rw [Run.execute]
    refine (h.node hstore hscope htree).bind fun value between hbetween hgrows _ =>
      h.execute hbetween (Nat.lt_of_lt_of_le hscope hgrows.size_le) ?_
    split
    · exact hsuccess
    · exact hfailure
  | whileLoop condition body =>
    obtain ⟨hcondition, hbody⟩ := Statement.keeps_whileLoop_iff.1 hkeeps
    rw [Run.execute]
    exact h.loop hstore hscope hcondition hbody
  | returnWith value line =>
    cases value with
    | none =>
      rw [Run.execute]
      exact safe_pure hstore trivial
    | some expression =>
      obtain ⟨tree, htree⟩ := hkeeps expression List.mem_cons_self
      rw [Run.execute]
      exact (h.node hstore hscope htree).bind fun value between hbetween _ hfits =>
        safe_pure hbetween hfits

theorem executeAll_succ {statements : List Statement}
    (hkeep : Statement.AllKeep Expression.Legible statements) :
    (Run.executeAll (fuel + 1) scope statements).Safe before fun after completion =>
      completion.Fits after.store.scopes.size := by
  cases statements with
  | nil =>
    rw [Run.executeAll]
    exact safe_pure hstore trivial
  | cons statement rest =>
    obtain ⟨hstatement, hrest⟩ := List.forall_mem_cons.1 hkeep
    rw [Run.executeAll]
    refine (h.execute hstore hscope hstatement).bind fun completion between hbetween hgrows hfits =>
      ?_
    cases completion with
    | normal => exact h.executeAll hbetween (Nat.lt_of_lt_of_le hscope hgrows.size_le) hrest
    | returned value => exact safe_pure hbetween hfits

theorem loop_succ {condition : Expression} {body : Statement} (hcondition : condition.Legible)
    (hbody : body.Keeps Expression.Legible) :
    (Run.loop (fuel + 1) scope condition body).Safe before fun after completion =>
      completion.Fits after.store.scopes.size := by
  obtain ⟨tree, htree⟩ := hcondition
  rw [Run.loop]
  refine (h.node hstore hscope htree).bind fun value between hbetween hgrows _ => ?_
  have hinner := Nat.lt_of_lt_of_le hscope hgrows.size_le
  refine .ite ((h.execute hbetween hinner hbody).bind fun completion further hfurther hmore hfits =>
    ?_) (safe_pure hbetween trivial)
  cases completion with
  | normal => exact h.loop hfurther (Nat.lt_of_lt_of_le hinner hmore.size_le) ⟨tree, htree⟩ hbody
  | returned value => exact safe_pure hfurther hfits

end AllSafe

theorem allSafe (fuel : Nat) : AllSafe fuel := by
  induction fuel with
  | zero => exact allSafe_zero
  | succ fuel ih =>
    exact ⟨fun hstore hscope => ih.node_succ hstore hscope,
      fun hstore hscope => ih.nodes_succ hstore hscope, fun hstore => ih.call_succ hstore,
      fun hstore hscope => ih.execute_succ hstore hscope,
      fun hstore hscope => ih.executeAll_succ hstore hscope,
      fun hstore hscope => ih.loop_succ hstore hscope⟩

end Run

end Lox
