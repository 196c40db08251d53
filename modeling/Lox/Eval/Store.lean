import Lox.Eval.Value

/-!
# The store

The scopes of a running program. A scope binds names to values and may lie inside another one, its
parent; scopes are only ever added, so a parent always comes before its children. A name means what
the nearest scope that binds it says, and assignment writes to that scope and never binds a name.
-/

namespace Lox

structure Scope where
  parent : Option ScopeId
  /-- Each name at most once. -/
  bindings : List (String × Value)

namespace Scope

def value? (scope : Scope) (name : String) : Option Value :=
  scope.bindings.lookup name

def binds (scope : Scope) (name : String) : Bool :=
  (scope.value? name).isSome

/-- The bindings with one of them replaced or added. -/
def insert (name : String) (value : Value) : List (String × Value) → List (String × Value)
  | [] => [(name, value)]
  | (bound, old) :: rest =>
    if bound = name then (name, value) :: rest else (bound, old) :: insert name value rest

def define (scope : Scope) (name : String) (value : Value) : Scope :=
  { scope with bindings := insert name value scope.bindings }

def inspect (scope : Scope) : String :=
  let names := (scope.bindings.map Prod.fst).mergeSort fun left right => !(right < left)
  Inspect.record "Environment" [
    ("names", Inspect.list (names.map Text.quoted)),
    ("has_parent", Inspect.bool scope.parent.isSome)]

end Scope

structure Store where
  scopes : Array Scope := #[]

namespace Store

def add (store : Store) (parent : Option ScopeId) : ScopeId × Store :=
  (store.scopes.size, ⟨store.scopes.push ⟨parent, []⟩⟩)

def define (store : Store) (scope : ScopeId) (name : String) (value : Value) : Store :=
  ⟨store.scopes.modify scope (·.define name value)⟩

/-- The nearest scope that binds a name, from a scope outwards. -/
def resolve? (store : Store) (name : String) (scope : ScopeId) : Option ScopeId :=
  match store.scopes[scope]? with
  | none => none
  | some found =>
    if found.binds name then some scope
    else match found.parent with
      | none => none
      | some parent => if parent < scope then resolve? store name parent else none
termination_by scope

def value? (store : Store) (name : String) (scope : ScopeId) : Option Value := do
  (← store.scopes[← store.resolve? name scope]?).value? name

def assign? (store : Store) (scope : ScopeId) (name : String) (value : Value) : Option Store := do
  return store.define (← store.resolve? name scope) name value

def inspect (store : Store) (scope : ScopeId) : String :=
  (store.scopes.getD scope ⟨none, []⟩).inspect

end Store

end Lox
