import Lox.Proofs.Eval.Store

/-!
# Regions of the store

The scopes that can be come to from a scope, by going outwards and into the functions that are bound
on the way. A region that nothing leads out of is all that matters for the names that are looked up
in it, and it stays one while scopes and values of it are all that is used.
-/

namespace Lox

/-- A function was declared in a scope of the region. -/
def Value.Within (region : ScopeId → Prop) : Value → Prop
  | function declared => region declared.closure
  | _ => True

theorem Value.within_of_fits {value : Value} (h : value.Fits 0) (region : ScopeId → Prop) :
    value.Within region := by
  cases value with
  | function declared => exact absurd h.1 (Nat.not_lt_zero _)
  | _ => trivial

theorem Value.within_of_forall {region : ScopeId → Prop} (h : ∀ scope, region scope)
    (value : Value) : value.Within region := by
  cases value with
  | function declared => exact h _
  | _ => trivial

namespace Scope

theorem lookup_cons_eq_ite (bound name : String) (value : Value) (rest : List (String × Value)) :
    ((bound, value) :: rest).lookup name =
      if name = bound then some value else rest.lookup name := by
  by_cases h : name = bound
  · simp [h]
  · simp [List.lookup_cons, h, beq_eq_false_iff_ne.2 h]

theorem lookup_insert (name other : String) (value : Value) (bindings : List (String × Value)) :
    (insert name value bindings).lookup other =
      if other = name then some value else bindings.lookup other := by
  induction bindings with
  | nil => rw [insert, lookup_cons_eq_ite]
  | cons binding rest ih =>
    obtain ⟨bound, old⟩ := binding
    rw [insert, lookup_cons_eq_ite bound]
    by_cases hbound : bound = name
    · subst hbound
      rw [if_pos rfl, lookup_cons_eq_ite]
      split <;> rfl
    · rw [if_neg hbound, lookup_cons_eq_ite, ih]
      by_cases hother : other = bound
      · rw [if_pos hother, if_pos hother, if_neg (hother ▸ hbound)]
      · rw [if_neg hother, if_neg hother]

theorem value?_define (scope : Scope) (name other : String) (value : Value) :
    (scope.define name value).value? other =
      if other = name then some value else scope.value? other :=
  lookup_insert name other value scope.bindings

end Scope

namespace Store

/-- The target can be come to from the scope, by going outwards and into functions. -/
inductive Reaches (store : Store) : (scope target : ScopeId) → Prop where
  | refl (scope : ScopeId) : Reaches store scope scope
  | outside {scope parent target : ScopeId} {inner : Scope}
      (found : store.scopes[scope]? = some inner) (inside : inner.parent = some parent)
      (reaches : Reaches store parent target) : Reaches store scope target
  | function {scope target : ScopeId} {inner : Scope} {name : String} {declared : Function}
      (found : store.scopes[scope]? = some inner)
      (bound : inner.value? name = some (.function declared))
      (reaches : Reaches store declared.closure target) : Reaches store scope target

theorem Reaches.trans {store : Store} {scope between target : ScopeId}
    (h : store.Reaches scope between) (hmore : store.Reaches between target) :
    store.Reaches scope target := by
  induction h with
  | refl => exact hmore
  | outside found inside _ ih => exact .outside found inside (ih hmore)
  | function found bound _ ih => exact .function found bound (ih hmore)

/-- What can be come to depends on the scopes only that are come to. -/
theorem reaches_congr {store other : Store} {scope target : ScopeId}
    (h : ∀ between, store.Reaches scope between →
      other.scopes[between]? = store.scopes[between]?) :
    other.Reaches scope target ↔ store.Reaches scope target := by
  constructor
  · intro hreaches
    induction hreaches with
    | refl => exact .refl _
    | outside found inside _ ih =>
      rw [h _ (.refl _)] at found
      exact .outside found inside (ih fun _ hbetween => h _ (.outside found inside hbetween))
    | function found bound _ ih =>
      rw [h _ (.refl _)] at found
      exact .function found bound (ih fun _ hbetween => h _ (.function found bound hbetween))
  · intro hreaches
    induction hreaches with
    | refl => exact .refl _
    | outside found inside _ ih =>
      refine .outside ((h _ (.refl _)).trans found) inside (ih fun _ hbetween => ?_)
      exact h _ (.outside found inside hbetween)
    | function found bound _ ih =>
      refine .function ((h _ (.refl _)).trans found) bound (ih fun _ hbetween => ?_)
      exact h _ (.function found bound hbetween)

/-- Nothing leads out of the region. -/
structure Closed (store : Store) (region : ScopeId → Prop) : Prop where
  parent : ∀ {scope parent : ScopeId} {inner : Scope}, region scope →
    store.scopes[scope]? = some inner → inner.parent = some parent → region parent
  value : ∀ {scope : ScopeId} {inner : Scope} {name : String} {value : Value}, region scope →
    store.scopes[scope]? = some inner → inner.value? name = some value → value.Within region

section
variable {store : Store} {region : ScopeId → Prop}

theorem Reaches.stays {scope target : ScopeId} (h : store.Reaches scope target)
    (hclosed : store.Closed region) (hscope : region scope) : region target := by
  induction h with
  | refl => exact hscope
  | outside found inside _ ih => exact ih (hclosed.parent hscope found inside)
  | function found bound _ ih => exact ih (hclosed.value hscope found bound)

variable (h : store.Closed region)
include h

theorem Closed.define {scope : ScopeId} {name : String} {value : Value}
    (hvalue : value.Within region) : (store.define scope name value).Closed region := by
  constructor
  · intro other parent inner hother hfound hinside
    obtain ⟨old, hold, heq⟩ := parent_of_define hfound
    exact h.parent hother hold (heq ▸ hinside)
  · intro other inner bound kept hother hfound hbound
    obtain ⟨old, hold, rfl | ⟨-, rfl⟩⟩ := exists_of_define hfound
    · exact h.value hother hold hbound
    · rw [Scope.value?_define] at hbound
      split at hbound
      · cases hbound
        exact hvalue
      · exact h.value hother hold hbound

theorem Closed.add {parent : ScopeId} (hparent : region parent) :
    (store.add (some parent)).2.Closed region := by
  constructor
  · intro scope outer inner hscope hfound houter
    rcases of_add hfound with ⟨-, rfl⟩ | hold
    · cases houter
      exact hparent
    · exact h.parent hscope hold houter
  · intro scope inner name value hscope hfound hbound
    exact h.value hscope (mem_of_add hfound (Scope.mem_of_value? hbound)) hbound

/-! ### Looking names up -/

theorem Closed.region_of_resolve? {name : String} {scope target : ScopeId} (hscope : region scope)
    (htarget : store.resolve? name scope = some target) : region target := by
  induction scope using Nat.strongRecOn with
  | _ scope ih =>
    rw [resolve?] at htarget
    split at htarget
    · cases htarget
    · rename_i inner hfound
      split at htarget
      · cases htarget
        exact hscope
      · split at htarget
        · cases htarget
        · rename_i parent hinside
          split at htarget
          · exact ih parent ‹_› (h.parent hscope hfound hinside) htarget
          · cases htarget

theorem Closed.within_of_value? {name : String} {scope : ScopeId} {value : Value}
    (hscope : region scope) (hvalue : store.value? name scope = some value) :
    value.Within region := by
  obtain ⟨target, htarget, hvalue⟩ := Option.bind_eq_some_iff.1 hvalue
  obtain ⟨inner, hinner, hvalue⟩ := Option.bind_eq_some_iff.1 hvalue
  exact h.value (h.region_of_resolve? hscope htarget) hinner hvalue

variable {other : Store}
  (hsame : ∀ {scope : ScopeId}, region scope → other.scopes[scope]? = store.scopes[scope]?)
include hsame

/-- Stores that agree in a closed region agree on the names that are looked up in it. -/
theorem Closed.resolve?_eq {name : String} {scope : ScopeId} (hscope : region scope) :
    other.resolve? name scope = store.resolve? name scope := by
  induction scope using Nat.strongRecOn with
  | _ scope ih =>
    rw [resolve?, resolve?, hsame hscope]
    split
    · rfl
    · rename_i inner hfound
      split
      · rfl
      · split
        · rfl
        · rename_i parent hinside
          split
          · exact ih parent ‹_› (h.parent hscope hfound hinside)
          · rfl

theorem Closed.value?_eq {name : String} {scope : ScopeId} (hscope : region scope) :
    other.value? name scope = store.value? name scope := by
  rw [Store.value?, Store.value?, h.resolve?_eq hsame hscope]
  cases htarget : store.resolve? name scope with
  | none => rfl
  | some target =>
    simp only [bind, Option.bind, hsame (h.region_of_resolve? hscope htarget)]

end

end Store

end Lox
