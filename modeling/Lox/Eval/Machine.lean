import Lox.Eval.Store

/-!
# The machine

What a running program can change: the store, the supply of identities, the number of active calls,
the text printed so far, and the readings of the clock that were used up. Steps of a run change the
machine and may be interrupted; an interrupted run keeps what it did up to then.
-/

namespace Lox

/-- The most function bodies that may be active at once. -/
def maxCallDepth : Nat := 256

/-- The readings that a clock will give, one after the other. -/
structure Clock where
  reading : Nat → Float
  /-- How many of them have been taken. -/
  taken : Nat := 0

structure Machine where
  store : Store := {}
  /-- The identity of the callable that is made next. -/
  nextIdentity : Nat := 0
  /-- How many function bodies are active. -/
  callDepth : Nat := 0
  output : String := ""
  clock : Clock

/-- Adds a root scope in which the natives are defined, each with an identity of its own. -/
def Machine.addGlobals (machine : Machine) : ScopeId × Machine :=
  let (globals, store) := machine.store.add none
  let defineNative (machine : Machine) (native : Native) : Machine :=
    { machine with
      store := machine.store.define globals native.name (.native machine.nextIdentity native)
      nextIdentity := machine.nextIdentity + 1 }
  (globals, Native.all.foldl defineNative { machine with store })

/-- Why a run cannot be followed to its end. Neither happens to a program that was parsed and is
given enough fuel. -/
inductive Fault where
  | outOfFuel
  /-- An expression refers to a node that it does not have. -/
  | danglingNode
  deriving DecidableEq, Repr

inductive Interrupt where
  | raised (error : RuntimeError)
  | fault (fault : Fault)

abbrev Run := EStateM Interrupt Machine

namespace Run

variable {α : Type}

def raise (cause : RuntimeError.Cause) (line : Nat) : Run α :=
  throw (.raised ⟨cause, line⟩)

def fail (fault : Fault) : Run α :=
  throw (.fault fault)

/-- The result of an operation, or its error on a line. -/
def ofExcept (line : Nat) : Except RuntimeError.Cause α → Run α
  | .ok value => pure value
  | .error cause => raise cause line

def print (text : String) : Run Unit :=
  modify fun machine => { machine with output := machine.output ++ text ++ "\n" }

/-- An identity that no callable has. -/
def newIdentity : Run Nat :=
  modifyGet fun machine =>
    (machine.nextIdentity, { machine with nextIdentity := machine.nextIdentity + 1 })

/-- The next reading of the clock. -/
def readClock : Run Float :=
  modifyGet fun machine =>
    (machine.clock.reading machine.clock.taken,
      { machine with clock := { machine.clock with taken := machine.clock.taken + 1 } })

def newScope (parent : Option ScopeId) : Run ScopeId :=
  modifyGet fun machine =>
    let (scope, store) := machine.store.add parent
    (scope, { machine with store })

def define (scope : ScopeId) (name : String) (value : Value) : Run Unit :=
  modify fun machine => { machine with store := machine.store.define scope name value }

def lookup (scope : ScopeId) (name : Identifier) : Run Value := do
  match (← get).store.value? name.name scope with
  | some value => return value
  | none => raise (.undefined name.name) name.line

def assign (scope : ScopeId) (name : Identifier) (value : Value) : Run Unit := do
  match (← get).store.resolve? name.name scope with
  | some target => define target name.name value
  | none => raise (.undefined name.name) name.line

def bindAll (scope : ScopeId) : List Identifier → List Value → Run Unit
  | parameter :: parameters, argument :: arguments => do
    define scope parameter.name argument
    bindAll scope parameters arguments
  | _, _ => return ()

/-- Runs a function body as one more active call, which ends however the body ends. -/
def asCall (body : Run α) : Run α := fun machine =>
  match body { machine with callDepth := machine.callDepth + 1 } with
  | .ok value after => .ok value { after with callDepth := after.callDepth - 1 }
  | .error interrupt after => .error interrupt { after with callDepth := after.callDepth - 1 }

end Run

end Lox
