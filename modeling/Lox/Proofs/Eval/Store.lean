import Lox.Proofs.Eval.Semantics
import Lox.Proofs.Grammar.Yields

/-!
# The store of a running program

Scopes are only added and a parent comes before its children, so a name is looked up in finitely
many scopes, and it is either found in one of them or bound in none. A function that is bound
anywhere was declared in a scope that is still there, and every expression in it unfolds into a tree.
-/

namespace Lox

/-- The expression unfolds into a tree. -/
def Expression.Legible (expression : Expression) : Prop :=
  ∃ tree, expression.Unfolds tree

/-- A function value belongs to a store with so many scopes, and can be read. -/
def Value.Fits (size : Nat) : Value → Prop
  | function declared =>
    declared.closure < size ∧ Statement.AllKeep Expression.Legible declared.body
  | _ => True

theorem Value.Fits.mono {size larger : Nat} {value : Value} (h : value.Fits size)
    (hle : size ≤ larger) : value.Fits larger := by
  cases value with
  | function declared => exact ⟨Nat.lt_of_lt_of_le h.1 hle, h.2⟩
  | _ => trivial

theorem Value.fits_ofLiteral (size : Nat) (value : Literal) : (ofLiteral value).Fits size := by
  cases value <;> trivial

namespace Statement

variable {good : Expression → Prop}

theorem allKeep_iff {body : List Statement} :
    (∀ expression ∈ allExpressions body, good expression) ↔ AllKeep good body := by
  rw [allExpressions_eq_flatMap]
  exact ⟨fun h statement hstatement expression hexpression =>
      h expression (List.mem_flatMap.2 ⟨statement, hstatement, hexpression⟩),
    fun h => allExpressions_eq_flatMap body ▸ h.good_of_mem⟩

theorem keeps_block_iff {body : List Statement} : (block body).Keeps good ↔ AllKeep good body :=
  allKeep_iff

theorem keeps_funDecl_iff {name : Identifier} {parameters : List Identifier}
    {body : List Statement} : (funDecl name parameters body).Keeps good ↔ AllKeep good body :=
  allKeep_iff

theorem keeps_ifThen_iff {condition : Expression} {success : Statement} :
    (ifThen condition success).Keeps good ↔ good condition ∧ success.Keeps good :=
  List.forall_mem_cons

theorem keeps_ifElse_iff {condition : Expression} {success failure : Statement} :
    (ifElse condition success failure).Keeps good ↔
      good condition ∧ success.Keeps good ∧ failure.Keeps good :=
  List.forall_mem_cons.trans (and_congr_right' List.forall_mem_append)

theorem keeps_whileLoop_iff {condition : Expression} {body : Statement} :
    (whileLoop condition body).Keeps good ↔ good condition ∧ body.Keeps good :=
  List.forall_mem_cons

end Statement

namespace Scope

theorem mem_insert {name other : String} {value found : Value} {bindings : List (String × Value)}
    (h : (other, found) ∈ insert name value bindings) :
    (other, found) = (name, value) ∨ (other, found) ∈ bindings := by
  induction bindings with
  | nil => exact .inl (List.mem_singleton.1 h)
  | cons binding rest ih =>
    obtain ⟨bound, old⟩ := binding
    rw [insert] at h
    split at h
    · exact (List.mem_cons.1 h).imp_right (List.mem_cons_of_mem _)
    · rcases List.mem_cons.1 h with h | h
      · exact .inr (h ▸ List.mem_cons_self)
      · exact (ih h).imp_right (List.mem_cons_of_mem _)

theorem mem_of_value? {scope : Scope} {name : String} {value : Value}
    (h : scope.value? name = some value) : (name, value) ∈ scope.bindings := by
  obtain ⟨front, back, hsplit, -⟩ := List.lookup_eq_some_iff.1 h
  simp [hsplit]

end Scope

namespace Store

/-- Parents come before their children, and every function that is bound belongs here. -/
structure WellFormed (store : Store) : Prop where
  parent_lt : ∀ {scope : ScopeId} {found : Scope} {parent : ScopeId},
    store.scopes[scope]? = some found → found.parent = some parent → parent < scope
  fits : ∀ {scope : ScopeId} {found : Scope} {name : String} {value : Value},
    store.scopes[scope]? = some found → (name, value) ∈ found.bindings →
      value.Fits store.scopes.size

theorem wellFormed_empty : ({} : Store).WellFormed := ⟨by simp, by simp⟩

@[simp] theorem size_define (store : Store) (scope : ScopeId) (name : String) (value : Value) :
    (store.define scope name value).scopes.size = store.scopes.size :=
  Array.size_modify

@[simp] theorem size_add (store : Store) (parent : Option ScopeId) :
    (store.add parent).2.scopes.size = store.scopes.size + 1 :=
  Array.size_push _

/-! ### What is behind a change -/

section
variable {store : Store} {scope other : ScopeId} {name bound : String} {value kept : Value}
  {found : Scope} {parent : Option ScopeId}

/-- Behind a binding, a scope is the one before, or that one with the binding in it. -/
theorem exists_of_define (h : (store.define scope name value).scopes[other]? = some found) :
    ∃ old, store.scopes[other]? = some old ∧
      (found = old ∨ scope = other ∧ found = old.define name value) := by
  rw [define, Array.getElem?_modify] at h
  split at h
  case isTrue hsame =>
    obtain ⟨old, hold, rfl⟩ := Option.map_eq_some_iff.1 h
    exact ⟨old, hold, .inr ⟨hsame, rfl⟩⟩
  case isFalse => exact ⟨found, h, .inl rfl⟩

theorem parent_of_define (h : (store.define scope name value).scopes[other]? = some found) :
    ∃ old, store.scopes[other]? = some old ∧ found.parent = old.parent := by
  obtain ⟨old, hold, rfl | ⟨-, rfl⟩⟩ := exists_of_define h
  · exact ⟨_, hold, rfl⟩
  · exact ⟨old, hold, rfl⟩

theorem mem_of_define (h : (store.define scope name value).scopes[other]? = some found)
    (hmem : (bound, kept) ∈ found.bindings) :
    kept = value ∨ ∃ old, store.scopes[other]? = some old ∧ (bound, kept) ∈ old.bindings := by
  obtain ⟨old, hold, rfl | ⟨-, rfl⟩⟩ := exists_of_define h
  · exact .inr ⟨_, hold, hmem⟩
  · exact (Scope.mem_insert hmem).imp (congrArg Prod.snd) fun hmem => ⟨old, hold, hmem⟩

/-- Behind an addition, a scope is the new one, which is empty, or one from before. -/
theorem of_add (h : (store.add parent).2.scopes[scope]? = some found) :
    (scope = store.scopes.size ∧ found = ⟨parent, []⟩) ∨ store.scopes[scope]? = some found := by
  rw [add, Array.getElem?_push] at h
  split at h
  case isTrue hnew => exact .inl ⟨hnew, (Option.some.inj h).symm⟩
  case isFalse => exact .inr h

theorem mem_of_add (h : (store.add parent).2.scopes[scope]? = some found)
    (hmem : (bound, kept) ∈ found.bindings) : store.scopes[scope]? = some found := by
  rcases of_add h with ⟨-, rfl⟩ | hold
  · exact absurd hmem List.not_mem_nil
  · exact hold

end

section
variable {store : Store} (h : store.WellFormed)
include h

theorem WellFormed.define {scope : ScopeId} {name : String} {value : Value}
    (hvalue : value.Fits store.scopes.size) : (store.define scope name value).WellFormed := by
  constructor
  · intro other found parent hfound hparent
    obtain ⟨old, hold, heq⟩ := parent_of_define hfound
    exact h.parent_lt hold (heq ▸ hparent)
  · intro other found bound kept hfound hmem
    rw [size_define]
    rcases mem_of_define hfound hmem with rfl | ⟨old, hold, hmem⟩
    · exact hvalue
    · exact h.fits hold hmem

theorem WellFormed.add {parent : Option ScopeId}
    (hparent : ∀ scope, parent = some scope → scope < store.scopes.size) :
    (store.add parent).2.WellFormed := by
  constructor
  · intro scope found outer hfound houter
    rcases of_add hfound with ⟨rfl, rfl⟩ | hold
    · exact hparent outer houter
    · exact h.parent_lt hold houter
  · intro scope found name value hfound hmem
    rw [size_add]
    exact (h.fits (mem_of_add hfound hmem) hmem).mono (Nat.le_succ _)

/-! ### Looking names up -/

theorem WellFormed.finds_or_unbound (name : String) (scope : ScopeId)
    (hscope : scope < store.scopes.size) :
    (∃ target value, store.Finds name scope target value) ∨ store.Unbound name scope := by
  induction scope using Nat.strongRecOn with
  | _ scope ih =>
    have hfound : store.scopes[scope]? = some store.scopes[scope] := Array.getElem?_eq_getElem hscope
    cases hbound : store.scopes[scope].value? name with
    | some value => exact .inl ⟨scope, value, .here hfound hbound⟩
    | none =>
      cases hparent : store.scopes[scope].parent with
      | none => exact .inr (.root hfound hbound hparent)
      | some parent =>
        have hlt := h.parent_lt hfound hparent
        rcases ih parent hlt (Nat.lt_trans hlt hscope) with ⟨target, value, hfinds⟩ | hunbound
        · exact .inl ⟨target, value, .outside hfound hbound hparent hfinds⟩
        · exact .inr (.outside hfound hbound hparent hunbound)

theorem Finds.resolve?_eq {name : String} {scope target : ScopeId} {value : Value}
    (hfinds : store.Finds name scope target value) : store.resolve? name scope = some target := by
  induction hfinds with
  | here hfound hbound =>
    rw [resolve?, hfound]
    simp [Scope.binds, hbound]
  | outside hfound hfree hinside _ ih =>
    rw [resolve?, hfound]
    simp [Scope.binds, hfree, hinside, h.parent_lt hfound hinside, ih]

end

theorem Unbound.resolve?_eq {store : Store} {name : String} {scope : ScopeId}
    (hunbound : store.Unbound name scope) : store.resolve? name scope = none := by
  induction hunbound with
  | root hfound hfree houtermost =>
    rw [resolve?, hfound]
    simp [Scope.binds, hfree, houtermost]
  | outside hfound hfree hinside _ ih =>
    rw [resolve?, hfound]
    simp [Scope.binds, hfree, hinside, ih]

theorem Finds.exists_bound {store : Store} {name : String} {scope target : ScopeId} {value : Value}
    (h : store.Finds name scope target value) :
    ∃ inner, store.scopes[target]? = some inner ∧ inner.value? name = some value := by
  induction h with
  | here hfound hbound => exact ⟨_, hfound, hbound⟩
  | outside _ _ _ _ ih => exact ih

theorem Finds.value?_eq {store : Store} (h : store.WellFormed) {name : String}
    {scope target : ScopeId} {value : Value} (hfinds : store.Finds name scope target value) :
    store.value? name scope = some value := by
  obtain ⟨inner, hinner, hbound⟩ := hfinds.exists_bound
  simp [Store.value?, hfinds.resolve?_eq h, hinner, hbound]

theorem Unbound.value?_eq {store : Store} {name : String} {scope : ScopeId}
    (hunbound : store.Unbound name scope) : store.value? name scope = none := by
  simp [Store.value?, hunbound.resolve?_eq]

theorem Finds.fits {store : Store} (h : store.WellFormed) {name : String} {scope target : ScopeId}
    {value : Value} (hfinds : store.Finds name scope target value) :
    value.Fits store.scopes.size := by
  obtain ⟨inner, hinner, hbound⟩ := hfinds.exists_bound
  exact h.fits hinner (Scope.mem_of_value? hbound)

end Store

end Lox
