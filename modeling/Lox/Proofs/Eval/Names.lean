import Lox.Proofs.Eval.Scoping
import Lox.Proofs.Eval.Task

/-!
# The names that scopes bind

Only a declaration adds a name, and only to the scope that it is executed in. Parameters and what is
declared in a block or a body are added to a scope that was not there before, and an assignment
writes to a name that is bound already. So whatever is run, each scope that was there keeps its parent
and its names, but for one in which declarations are executed.
-/

namespace Lox

/-- The statement is no declaration, and none stands in it where only a statement may stand. -/
structure Statement.Plain (statement : Statement) : Prop where
  plain : statement.isDeclaration = false
  orderly : statement.Orderly

theorem Statement.plain_of_declared?_eq_none {statement : Statement} (h : statement.Orderly)
    (hnone : statement.declared? = none) : statement.Plain where
  plain := by
    cases statement with
    | varDecl | funDecl => cases hnone
    | _ => rfl
  orderly := h

theorem Statement.Plain.of_mem_branches {statement inner : Statement} (h : statement.Plain)
    (hmem : inner ∈ statement.branches) : inner.Plain :=
  have hinner := h.orderly.of_mem_branches hmem
  ⟨hinner.1, hinner.2⟩

namespace Scope

/-- The names that the scope binds, oldest first. -/
def names (scope : Scope) : List String :=
  scope.bindings.map Prod.fst

theorem map_fst_insert (name : String) (value : Value) (bindings : List (String × Value)) :
    (insert name value bindings).map Prod.fst =
      if name ∈ bindings.map Prod.fst then bindings.map Prod.fst
      else bindings.map Prod.fst ++ [name] := by
  induction bindings with
  | nil => rfl
  | cons binding rest ih =>
    obtain ⟨bound, old⟩ := binding
    rw [insert]
    by_cases hbound : bound = name
    · subst hbound
      rw [if_pos rfl, List.map_cons, List.map_cons, if_pos List.mem_cons_self]
    · have hiff : name ∈ bound :: rest.map Prod.fst ↔ name ∈ rest.map Prod.fst := by
        rw [List.mem_cons, or_iff_right (Ne.symm hbound)]
      rw [if_neg hbound, List.map_cons, List.map_cons, ih]
      simp only [hiff]
      split <;> rfl

theorem names_define_of_mem {scope : Scope} {name : String} (h : name ∈ scope.names)
    (value : Value) : (scope.define name value).names = scope.names :=
  (map_fst_insert name value scope.bindings).trans (if_pos h)

theorem mem_names_define {scope : Scope} {name bound : String} {value : Value} :
    bound ∈ (scope.define name value).names ↔ bound ∈ scope.names ∨ bound = name := by
  by_cases hname : name ∈ scope.names
  · rw [names_define_of_mem hname, or_iff_left_of_imp]
    exact fun hbound => hbound ▸ hname
  · have hnames : (scope.define name value).names = scope.names ++ [name] :=
      (map_fst_insert name value scope.bindings).trans (if_neg hname)
    rw [hnames, List.mem_append, List.mem_singleton]

end Scope

namespace Store

/-- The names that a scope of the store binds; none if it has no such scope. -/
def names (store : Store) (scope : ScopeId) : List String :=
  (store.scopes[scope]?.map Scope.names).getD []

/-- Behind a change every scope is still there and lies in the same one, and it binds the same names,
unless it is free to bind others. -/
def Keeps (free : ScopeId → Prop) (before after : Store) : Prop :=
  ∀ scope found, before.scopes[scope]? = some found →
    ∃ now, after.scopes[scope]? = some now ∧ now.parent = found.parent ∧
      (¬ free scope → now.names = found.names)

/-- Behind a change every scope is still there and lies in the same one, and it binds the same names;
one of them binds another name besides. -/
def Adds (scope : ScopeId) (name : String) (before after : Store) : Prop :=
  ∀ other found, before.scopes[other]? = some found →
    ∃ now, after.scopes[other]? = some now ∧ now.parent = found.parent ∧
      ∀ bound, bound ∈ now.names ↔ bound ∈ found.names ∨ other = scope ∧ bound = name

section
variable {free : ScopeId → Prop} {before between after : Store}

theorem Keeps.refl (free : ScopeId → Prop) (store : Store) : store.Keeps free store :=
  fun _ found hfound => ⟨found, hfound, rfl, fun _ => rfl⟩

theorem Keeps.trans (h : before.Keeps free between) (hmore : between.Keeps free after) :
    before.Keeps free after := by
  intro scope found hfound
  obtain ⟨now, hnow, hparent, hnames⟩ := h scope found hfound
  obtain ⟨last, hlast, hparentLast, hnamesLast⟩ := hmore scope now hnow
  exact ⟨last, hlast, hparentLast.trans hparent,
    fun hfree => (hnamesLast hfree).trans (hnames hfree)⟩

theorem Keeps.mono {more : ScopeId → Prop} (h : before.Keeps free after)
    (himp : ∀ scope, free scope → more scope) : before.Keeps more after := by
  intro scope found hfound
  obtain ⟨now, hnow, hparent, hnames⟩ := h scope found hfound
  exact ⟨now, hnow, hparent, fun hmore => hnames fun hfree => hmore (himp scope hfree)⟩

/-- A scope that is new is not one of those that were there. -/
theorem Keeps.of_add {parent : Option ScopeId}
    (h : (before.add parent).2.Keeps (fun scope => free scope ∨ scope = before.scopes.size) after) :
    before.Keeps free after := by
  intro scope found hfound
  have hlt : scope < before.scopes.size := (Array.getElem?_eq_some_iff.1 hfound).1
  have hadded : (before.add parent).2.scopes[scope]? = some found := by
    rw [add, Array.getElem?_push, if_neg (Nat.ne_of_lt hlt), hfound]
  obtain ⟨now, hnow, hparent, hnames⟩ := h scope found hadded
  refine ⟨now, hnow, hparent, fun hfree => hnames ?_⟩
  rintro (hold | rfl)
  · exact hfree hold
  · exact Nat.lt_irrefl _ hlt

theorem getElem?_define {store : Store} {other : ScopeId} {found : Scope}
    (h : store.scopes[other]? = some found) (scope : ScopeId) (name : String) (value : Value) :
    (store.define scope name value).scopes[other]? =
      some (if scope = other then found.define name value else found) := by
  rw [define, Array.getElem?_modify, h]
  split <;> rfl

theorem adds_define (store : Store) (scope : ScopeId) (name : String) (value : Value) :
    store.Adds scope name (store.define scope name value) := by
  intro other found hfound
  refine ⟨_, getElem?_define hfound scope name value, ?_, fun bound => ?_⟩
  · split <;> rfl
  · split
    case isTrue hsame => rw [Scope.mem_names_define, and_iff_right hsame.symm]
    case isFalse hother => rw [or_iff_left fun h => hother h.1.symm]

theorem keeps_define {store : Store} {scope : ScopeId} {name : String}
    (h : ∀ found, store.scopes[scope]? = some found → ¬ free scope → name ∈ found.names)
    (value : Value) : store.Keeps free (store.define scope name value) := by
  intro other found hfound
  refine ⟨_, getElem?_define hfound scope name value, ?_, fun hfree => ?_⟩
  · split <;> rfl
  · split
    case isTrue hsame =>
      subst hsame
      exact Scope.names_define_of_mem (h found hfound hfree) value
    case isFalse => rfl

/-- Writing to a name that is found adds none. -/
theorem keeps_of_resolve? {store : Store} {scope target : ScopeId} {name : String}
    (h : store.resolve? name scope = some target) (free : ScopeId → Prop) (value : Value) :
    store.Keeps free (store.define target name value) := by
  apply keeps_define
  intro found hfound _
  obtain ⟨bound, old, hbound, hmem⟩ := exists_mem_of_resolve? h
  obtain rfl : found = bound := Option.some.inj (hfound.symm.trans hbound)
  exact List.mem_map.2 ⟨_, hmem, rfl⟩

theorem Adds.of_keeps {scope : ScopeId} {name : String}
    (h : before.Keeps (fun _ => False) between) (hadds : between.Adds scope name after) :
    before.Adds scope name after := by
  intro other found hfound
  obtain ⟨now, hnow, hparent, hnames⟩ := h other found hfound
  obtain ⟨last, hlast, hparentLast, hnamesLast⟩ := hadds other now hnow
  refine ⟨last, hlast, hparentLast.trans hparent, fun bound => ?_⟩
  rw [hnamesLast, hnames not_false]

theorem Keeps.lt_size (h : before.Keeps free after) {scope : ScopeId}
    (hscope : scope < before.scopes.size) : scope < after.scopes.size := by
  obtain ⟨now, hnow, -⟩ := h scope _ (Array.getElem?_eq_getElem hscope)
  exact (Array.getElem?_eq_some_iff.1 hnow).1

theorem Keeps.names_eq (h : before.Keeps (fun _ => False) after) {scope : ScopeId}
    (hscope : scope < before.scopes.size) : after.names scope = before.names scope := by
  have hfound := Array.getElem?_eq_getElem hscope
  obtain ⟨now, hnow, -, hnames⟩ := h scope _ hfound
  rw [names, names, hnow, hfound, Option.map_some, Option.map_some, hnames not_false]

theorem Adds.mem_names {scope : ScopeId} {name : String} (h : before.Adds scope name after)
    (hscope : scope < before.scopes.size) {bound : String} :
    bound ∈ after.names scope ↔ bound ∈ before.names scope ∨ bound = name := by
  have hfound := Array.getElem?_eq_getElem hscope
  obtain ⟨now, hnow, -, hnames⟩ := h scope _ hfound
  rw [names, names, hnow, hfound, Option.map_some, Option.map_some, Option.getD_some,
    Option.getD_some, hnames, and_iff_right rfl]

end

end Store

namespace Run

/-- However the run ends, every scope keeps its parent and its names, but for the free ones. -/
def Frames {α : Type} (free : ScopeId → Prop) (run : Run α) : Prop :=
  ∀ machine : Machine, machine.store.Keeps free (finalState (run machine)).store

section
variable {α β : Type} {free : ScopeId → Prop}

theorem Frames.mono {more : ScopeId → Prop} {run : Run α} (h : run.Frames free)
    (himp : ∀ scope, free scope → more scope) : run.Frames more :=
  fun machine => (h machine).mono himp

theorem Frames.keeps {run : Run α} (h : run.Frames free) {before after : Machine}
    {outcome : Outcome α} (hends : run.Ends before outcome after) :
    before.store.Keeps free after.store := by
  have hfinal : finalState (run before) = after := by
    cases outcome with
    | ok value => exact congrArg finalState hends
    | error error => exact congrArg finalState hends
  exact hfinal ▸ h before

theorem frames_pure (value : α) : (pure value : Run α).Frames free :=
  fun machine => .refl free machine.store

theorem frames_raise (cause : RuntimeError.Cause) (line : Nat) :
    (raise cause line : Run α).Frames free :=
  fun machine => .refl free machine.store

theorem frames_fail (fault : Fault) : (fail fault : Run α).Frames free :=
  fun machine => .refl free machine.store

theorem frames_ofExcept (line : Nat) (result : Except RuntimeError.Cause α) :
    (ofExcept line result).Frames free := by
  cases result with
  | ok value => exact frames_pure value
  | error cause => exact frames_raise cause line

theorem frames_lookup (scope : ScopeId) (name : Identifier) : (lookup scope name).Frames free := by
  intro machine
  rw [lookup_apply]
  cases machine.store.value? name.name scope <;> exact .refl free machine.store

theorem frames_assign (scope : ScopeId) (name : Identifier) (value : Value) :
    (assign scope name value).Frames free := by
  intro machine
  rw [assign_apply]
  cases htarget : machine.store.resolve? name.name scope with
  | none => exact .refl free machine.store
  | some target => exact Store.keeps_of_resolve? htarget free value

theorem frames_define {scope : ScopeId} (h : free scope) (name : String) (value : Value) :
    (define scope name value).Frames free :=
  fun _ => Store.keeps_define (fun _ _ hfree => absurd h hfree) value

theorem Frames.bind {run : Run α} {next : α → Run β} (first : run.Frames free)
    (second : ∀ value, (next value).Frames free) : (run >>= next).Frames free := by
  intro machine
  have hfirst := first machine
  rw [bind_apply]
  cases hrun : run machine with
  | ok value between =>
    rw [hrun] at hfirst
    exact hfirst.trans (second value between)
  | error interrupt between =>
    rw [hrun] at hfirst
    exact hfirst

theorem Frames.ite {condition : Prop} [Decidable condition] {run other : Run α}
    (h : run.Frames free) (hother : other.Frames free) :
    (if condition then run else other).Frames free := by
  split
  · exact h
  · exact hother

theorem Frames.asCall {body : Run α} (h : body.Frames free) : (asCall body).Frames free := by
  intro machine
  have hbody := h { machine with callDepth := machine.callDepth + 1 }
  rw [Run.asCall]
  cases hrun : body { machine with callDepth := machine.callDepth + 1 } with
  | ok value after =>
    rw [hrun] at hbody
    exact hbody
  | error interrupt after =>
    rw [hrun] at hbody
    exact hbody

/-- What is run in a new scope may declare there as it likes. -/
theorem Frames.opened {parent : Option ScopeId} {next : ScopeId → Run β}
    (h : ∀ scope, (next scope).Frames (· = scope)) : (newScope parent >>= next).Frames free := by
  intro machine
  have hnext := h machine.store.scopes.size { machine with store := (machine.store.add parent).2 }
  exact (hnext.mono fun _ => Or.inr).of_add

theorem frames_bindAll (scope : ScopeId) (parameters : List Identifier) :
    ∀ arguments : List Value, (bindAll scope parameters arguments).Frames (· = scope) := by
  induction parameters with
  | nil => exact fun _ => frames_pure ()
  | cons parameter parameters ih =>
    intro arguments
    cases arguments with
    | nil => exact frames_pure ()
    | cons argument arguments =>
      apply Frames.bind
      · apply frames_define
        rfl
      · exact fun _ => ih arguments

end

end Run

namespace Task

open Run

/-- The scope to which the task may add names: that of declarations which it executes itself. -/
def Frees : Task → ScopeId → Prop
  | node .. | nodes .. | call .. => fun _ => False
  | statement scope single => fun other => ¬ single.Plain ∧ other = scope
  | statements scope _ => fun other => other = scope
  | loop scope _ body => fun other => ¬ body.Plain ∧ other = scope

section
variable {fuel : Nat} (ih : ∀ task : Task, (task.run fuel).Frames task.Frees)
include ih

theorem frames_node_succ (nodes : Array Node) (scope : ScopeId) (index : Nat) :
    (evaluateNode (fuel + 1) nodes scope index).Frames fun _ => False := by
  have hnode (operand : Nat) : (evaluateNode fuel nodes scope operand).Frames fun _ => False :=
    ih (.node nodes scope operand)
  rw [evaluateNode]
  cases nodes[index]? with
  | none => exact frames_fail _
  | some node =>
    cases node with
    | literal value => exact frames_pure _
    | var name => exact frames_lookup scope name
    | group inner => exact hnode inner
    | unary operator operand line => exact (hnode operand).bind fun _ => frames_ofExcept _ _
    | binary operator left right line =>
      exact (hnode left).bind fun _ => (hnode right).bind fun _ => frames_ofExcept _ _
    | logical operator left right =>
      exact (hnode left).bind fun _ => .ite (frames_pure _) (hnode right)
    | assign name operand =>
      exact (hnode operand).bind fun value =>
        (frames_assign scope name value).bind fun _ => frames_pure value
    | call callee arguments line =>
      apply (hnode callee).bind
      intro called
      cases called.arity? with
      | none => exact frames_raise _ _
      | some arity =>
        apply Frames.bind (ih (.nodes nodes scope arguments))
        intro values
        exact .ite (ih (.call called values line)) (frames_raise _ _)

theorem frames_nodes_succ (nodes : Array Node) (scope : ScopeId) (indices : List Nat) :
    (evaluateNodes (fuel + 1) nodes scope indices).Frames fun _ => False := by
  cases indices with
  | nil => exact frames_pure _
  | cons index rest =>
    apply Frames.bind (ih (.node nodes scope index))
    intro value
    exact Frames.bind (ih (.nodes nodes scope rest)) fun _ => frames_pure _

/-- Parameters and what a body declares are bound in the scope that is made for them. -/
theorem frames_call_succ (callee : Value) (arguments : List Value) (line : Nat) :
    (Run.call (fuel + 1) callee arguments line).Frames fun _ => False := by
  cases callee with
  | native identity which =>
    cases which
    exact fun machine => .refl _ machine.store
  | function declared =>
    have hroom : (newScope (some declared.closure) >>= fun scope =>
        bindAll scope declared.parameters arguments >>= fun _ =>
          asCall (executeAll fuel scope declared.body) >>= fun completion =>
            (pure completion.result : Run Value)).Frames fun _ => False := by
      apply Frames.opened
      intro scope
      apply (frames_bindAll scope declared.parameters arguments).bind
      intro _
      exact (ih (.statements scope declared.body)).asCall.bind fun _ => frames_pure _
    exact fun machine => Frames.ite (frames_raise _ _) hroom machine
  | nil | bool | number | text => exact frames_raise _ _

theorem frames_statement_succ (scope : ScopeId) (statement : Statement) :
    (execute (fuel + 1) scope statement).Frames (Frees (.statement scope statement)) := by
  have hvalue {free : ScopeId → Prop} (expression : Expression) :
      (evaluateNode fuel expression.nodes scope expression.root).Frames free :=
    Frames.mono (ih (.node expression.nodes scope expression.root)) fun _ => False.elim
  have hdeclares {declaration : Statement} (h : declaration.isDeclaration = true) (name : String)
      (value : Value) : (Run.define scope name value >>= fun _ =>
        (pure .normal : Run Completion)).Frames (Frees (.statement scope declaration)) := by
    have hfree : Frees (.statement scope declaration) scope :=
      ⟨fun hplain => Bool.false_ne_true (hplain.plain.symm.trans h), rfl⟩
    exact (frames_define hfree name value).bind fun _ => frames_pure _
  have hbranch {inner : Statement} (hmem : inner ∈ statement.branches) :
      (execute fuel scope inner).Frames (Frees (.statement scope statement)) := by
    apply Frames.mono (ih (.statement scope inner))
    exact fun other hother => ⟨fun hplain => hother.1 (hplain.of_mem_branches hmem), hother.2⟩
  cases statement with
  | varDecl name initial =>
    cases initial with
    | none => exact hdeclares rfl name.name .nil
    | some expression => exact (hvalue expression).bind fun value => hdeclares rfl name.name value
  | funDecl name parameters body =>
    have hidentity : Frames (Frees (.statement scope (.funDecl name parameters body)))
        newIdentity := fun machine => .refl _ machine.store
    exact hidentity.bind fun identity => hdeclares rfl name.name _
  | expression value => exact (hvalue value).bind fun _ => frames_pure _
  | print value =>
    have hprint (text : String) : Frames (Frees (.statement scope (.print value)))
        (Run.print text) := fun machine => .refl _ machine.store
    exact (hvalue value).bind fun found => (hprint found.render).bind fun _ => frames_pure _
  | block body => exact .opened fun inner => ih (.statements inner body)
  | ifThen condition success =>
    exact (hvalue condition).bind fun _ => .ite (hbranch List.mem_cons_self) (frames_pure _)
  | ifElse condition success failure =>
    apply (hvalue condition).bind
    intro value
    show (execute fuel scope (if value.isTruthy then success else failure)).Frames _
    split
    · exact hbranch List.mem_cons_self
    · exact hbranch (List.mem_cons_of_mem _ List.mem_cons_self)
  | whileLoop condition body =>
    apply Frames.mono (ih (.loop scope condition body))
    exact fun other hother =>
      ⟨fun hplain => hother.1 (hplain.of_mem_branches List.mem_cons_self), hother.2⟩
  | returnWith value line =>
    cases value with
    | none => exact frames_pure _
    | some expression => exact (hvalue expression).bind fun _ => frames_pure _

theorem frames_statements_succ (scope : ScopeId) (statements : List Statement) :
    (executeAll (fuel + 1) scope statements).Frames (· = scope) := by
  cases statements with
  | nil => exact frames_pure _
  | cons statement rest =>
    apply (Frames.mono (ih (.statement scope statement)) fun _ => And.right).bind
    intro completion
    cases completion with
    | normal => exact ih (.statements scope rest)
    | returned value => exact frames_pure _

theorem frames_loop_succ (scope : ScopeId) (condition : Expression) (body : Statement) :
    (Run.loop (fuel + 1) scope condition body).Frames (Frees (.loop scope condition body)) := by
  apply (Frames.mono (ih (.node condition.nodes scope condition.root)) fun _ => False.elim).bind
  intro value
  apply Frames.ite _ (frames_pure _)
  apply Frames.bind (ih (.statement scope body))
  intro completion
  cases completion with
  | normal => exact ih (.loop scope condition body)
  | returned value => exact frames_pure _

end

/-- Whatever is run, however it ends, each scope keeps its parent and its names, but for the one
in which the task executes declarations. -/
theorem frames (fuel : Nat) : ∀ task : Task, (task.run fuel).Frames task.Frees := by
  induction fuel with
  | zero =>
    intro task
    cases task <;> exact frames_fail _
  | succ fuel ih =>
    intro task
    cases task with
    | node nodes scope index => exact frames_node_succ ih nodes scope index
    | nodes nodes scope indices => exact frames_nodes_succ ih nodes scope indices
    | call callee arguments line => exact frames_call_succ ih callee arguments line
    | statement scope statement => exact frames_statement_succ ih scope statement
    | statements scope statements => exact frames_statements_succ ih scope statements
    | loop scope condition body => exact frames_loop_succ ih scope condition body

end Task

namespace Run

theorem frames_evaluateNode (fuel : Nat) (nodes : Array Node) (scope : ScopeId) (index : Nat) :
    (evaluateNode fuel nodes scope index).Frames fun _ => False :=
  Task.frames fuel (.node nodes scope index)

theorem frames_execute {statement : Statement} (h : statement.Plain) (fuel : Nat)
    (scope : ScopeId) : (execute fuel scope statement).Frames fun _ => False :=
  Frames.mono (Task.frames fuel (.statement scope statement)) fun _ hother => hother.1 h

/-- A declaration that completes adds its name to its scope, and one that does not adds none. -/
theorem adds_of_declared? {statement : Statement} {name : String}
    (h : statement.declared? = some name) (fuel : Nat) (scope : ScopeId) (machine : Machine) :
    match execute fuel scope statement machine with
    | .ok completion after =>
      completion = .normal ∧ machine.store.Adds scope name after.store
    | .error _ after => machine.store.Keeps (fun _ => False) after.store := by
  cases fuel with
  | zero => exact .refl _ machine.store
  | succ fuel =>
    cases statement with
    | varDecl declared initial =>
      obtain rfl : declared.name = name := Option.some.inj h
      cases initial with
      | none => exact ⟨rfl, Store.adds_define _ _ _ _⟩
      | some expression =>
        have hframes := frames_evaluateNode fuel expression.nodes scope expression.root machine
        simp only [execute]
        rw [bind_apply]
        cases hrun : evaluateNode fuel expression.nodes scope expression.root machine with
        | ok value between =>
          rw [hrun] at hframes
          exact ⟨rfl, .of_keeps hframes (Store.adds_define _ _ _ _)⟩
        | error interrupt between =>
          rw [hrun] at hframes
          exact hframes
    | funDecl declared parameters body =>
      obtain rfl : declared.name = name := Option.some.inj h
      exact ⟨rfl, Store.adds_define _ _ _ _⟩
    | _ => cases h

end Run

end Lox
