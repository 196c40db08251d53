import Lox.Proofs.Eval.Pairing
import Lox.Proofs.Mirror

/-!
# What running does not look at

Lines are handed on into functions and into errors, and printed text is only added to. So a program
with other lines, run on a store with other lines behind text that was already printed, does what the
program itself does, seen through `shown`: the evaluator mirrors itself. This is what runs in paired
machines do when every scope and every callable stands for itself.
-/

namespace Lox

section
variable (line : Nat → Nat)

def Function.mapLines (declared : Function) : Function :=
  { declared with
    name := declared.name.mapLines line
    parameters := declared.parameters.map (·.mapLines line)
    body := Statement.mapAllLines line declared.body }

def Value.mapLines : Value → Value
  | nil => nil
  | bool value => bool value
  | number value => number value
  | text value => text value
  | native identity which => native identity which
  | function declared => function (declared.mapLines line)

def Completion.mapLines : Completion → Completion
  | normal => normal
  | returned value => returned (value.mapLines line)

def RuntimeError.mapLines (error : RuntimeError) : RuntimeError :=
  { error with line := line error.line }

def Scope.mapLines (scope : Scope) : Scope :=
  { scope with bindings := scope.bindings.map (Prod.map id (Value.mapLines line)) }

def Store.mapLines (store : Store) : Store :=
  ⟨store.scopes.map (·.mapLines line)⟩

/-- Machines with other lines in their stores and text in front of what was printed. -/
def shown (printed : String) : View Machine Machine Interrupt Interrupt where
  state machine :=
    { machine with
      store := machine.store.mapLines line
      output := printed ++ machine.output }
  failure
    | .raised error => .raised (error.mapLines line)
    | .fault fault => .fault fault

end

section
variable {line : Nat → Nat}

/-! ### Stores -/

namespace Scope

theorem value?_mapLines (scope : Scope) (name : String) :
    (scope.mapLines line).value? name = (scope.value? name).map (Value.mapLines line) := by
  unfold value? mapLines
  induction scope.bindings with
  | nil => rfl
  | cons binding rest ih =>
    obtain ⟨bound, value⟩ := binding
    simp only [List.map_cons, Prod.map, List.lookup_cons, id_eq, ih]
    split <;> rfl

@[simp] theorem binds_mapLines (scope : Scope) (name : String) :
    (scope.mapLines line).binds name = scope.binds name := by
  rw [binds, binds, value?_mapLines, Option.isSome_map]

@[simp] theorem parent_mapLines (scope : Scope) : (scope.mapLines line).parent = scope.parent := rfl

theorem insert_map (name : String) (value : Value) (bindings : List (String × Value)) :
    insert name (value.mapLines line) (bindings.map (Prod.map id (Value.mapLines line))) =
      (insert name value bindings).map (Prod.map id (Value.mapLines line)) := by
  induction bindings with
  | nil => rfl
  | cons binding rest ih =>
    obtain ⟨bound, old⟩ := binding
    simp only [List.map_cons, Prod.map, insert, id_eq]
    split
    · rfl
    · rw [List.map_cons, ih]; rfl

end Scope

namespace Store

variable (store : Store)

theorem add_mapLines (parent : Option ScopeId) :
    (store.mapLines line).add parent = ((store.add parent).1, (store.add parent).2.mapLines line) := by
  simp [add, mapLines, Scope.mapLines]

theorem define_mapLines (scope : ScopeId) (name : String) (value : Value) :
    (store.mapLines line).define scope name (value.mapLines line) =
      (store.define scope name value).mapLines line := by
  refine congrArg Store.mk (Array.ext_getElem? fun index => ?_)
  simp only [define, mapLines, Array.getElem?_modify, Array.getElem?_map]
  split
  · cases store.scopes[index]? with
    | none => rfl
    | some found => simp [Scope.define, Scope.mapLines, Scope.insert_map]
  · rfl

theorem resolve?_mapLines (name : String) (scope : ScopeId) :
    (store.mapLines line).resolve? name scope = store.resolve? name scope := by
  induction scope using Nat.strongRecOn with
  | _ scope ih =>
    have hfound : (store.mapLines line).scopes[scope]? =
        store.scopes[scope]?.map (Scope.mapLines line) := Array.getElem?_map
    rw [resolve?, resolve?, hfound]
    cases store.scopes[scope]? with
    | none => rfl
    | some found =>
      simp only [Option.map_some, Scope.binds_mapLines, Scope.parent_mapLines]
      cases found.parent with
      | none => rfl
      | some parent =>
        by_cases hlt : parent < scope
        · simp only [hlt, if_true, ih parent hlt]
        · simp only [hlt, if_false]

theorem value?_mapLines (name : String) (scope : ScopeId) :
    (store.mapLines line).value? name scope = (store.value? name scope).map (Value.mapLines line) := by
  unfold value?
  rw [resolve?_mapLines]
  cases store.resolve? name scope with
  | none => rfl
  | some target =>
    have hfound : (store.mapLines line).scopes[target]? =
        store.scopes[target]?.map (Scope.mapLines line) := Array.getElem?_map
    simp only [Option.bind_eq_bind, Option.bind_some, hfound]
    cases store.scopes[target]? with
    | none => rfl
    | some found => exact found.value?_mapLines name

end Store

end

/-! ### The pairing -/

/-- Scopes have the same places and callables the same identities. -/
def Pairing.sameBut (line : Nat → Nat) : Pairing where
  scopes := Eq
  natives := Eq
  functions := Eq
  line := line
  scopes_biUnique := Pairing.biUnique_eq
  natives_biUnique := Pairing.biUnique_eq
  functions_biUnique := Pairing.biUnique_eq

namespace Pairing

section
variable {line : Nat → Nat} {value other : Value}

theorem sameBut_values_iff : (sameBut line).Values value other ↔ other = value.mapLines line := by
  constructor
  · intro h
    cases h with
    | native hpaired =>
      cases hpaired
      rfl
    | function hpaired hclosed =>
      cases hpaired
      cases hclosed
      rfl
    | _ => rfl
  · rintro rfl
    cases value with
    | nil => exact .nil
    | bool value => exact .bool value
    | number value => exact .number value
    | text value => exact .text value
    | native identity which => exact .native rfl
    | function declared => exact .function rfl rfl

theorem sameBut_allValues_iff {values others : List Value} :
    List.Forall₂ (sameBut line).Values values others ↔ others = values.map (·.mapLines line) := by
  have hvalues : (sameBut line).Values = fun value other => other = value.mapLines line := by
    funext value other
    exact propext sameBut_values_iff
  rw [hvalues, eq_comm, ← List.forall₂_eq_eq_eq, List.forall₂_map_left_iff]
  simp only [eq_comm]

theorem Completions.eq_mapLines {completion image : Completion}
    (h : (sameBut line).Completions completion image) : image = completion.mapLines line := by
  cases h with
  | normal => rfl
  | returned hvalues => rw [sameBut_values_iff.1 hvalues, Completion.mapLines]

theorem Interrupts.eq_failure {printed : String} {interrupt image : Interrupt}
    (h : (sameBut line).Interrupts interrupt image) :
    image = (shown line printed).failure interrupt := by
  cases h <;> rfl

end

theorem respects_shown (line : Nat → Nat) (printed : String) : (sameBut line).Respects
    fun machine other => other = (shown line printed).state machine where
  value? := by
    rintro machine _ scope _ rfl rfl name
    rw [show ((shown line printed).state machine).store.value? name scope = _ from
      machine.store.value?_mapLines name scope]
    cases machine.store.value? name scope with
    | none => exact .none
    | some value => exact .some (sameBut_values_iff.2 rfl)
  resolve? := by
    rintro machine _ scope _ rfl rfl name
    rw [show ((shown line printed).state machine).store.resolve? name scope = _ from
      machine.store.resolve?_mapLines name scope]
    cases machine.store.resolve? name scope with
    | none => exact .none
    | some target => exact .some rfl
  define := by
    rintro machine _ scope _ value _ rfl rfl name hvalue
    rw [sameBut_values_iff.1 hvalue]
    simp only [Machine.define, shown, Store.define_mapLines]
  enter := by
    rintro machine _ parent _ rfl rfl
    refine ⟨(Array.size_map ..).symm, ?_⟩
    simp only [Machine.enter, shown, Store.add_mapLines]
  identify := by
    rintro machine _ rfl
    exact ⟨rfl, rfl⟩
  print := by
    rintro machine _ rfl text
    simp only [shown, String.append_assoc]
  tick := by
    rintro machine _ rfl
    exact ⟨rfl, rfl⟩
  callDepth_eq := by
    rintro machine _ rfl
    rfl
  atDepth := by
    rintro machine _ rfl depth
    rfl

end Pairing

namespace Run

variable {α β : Type} {line : Nat → Nat} {printed : String} {f : α → β}

/-- On a machine with other lines, behind text that was printed, the image runs as the run does. -/
abbrev Shows (line : Nat → Nat) (printed : String) (f : α → β) (run : Run α) (image : Run β) :
    Prop :=
  Mirrors (shown line printed) f run image

theorem Shows.of_relates {good : α → β → Prop} {run : Run α} {image : Run β}
    (h : (Pairing.sameBut line).Relates
      (fun machine other => other = (shown line printed).state machine) good run image)
    (hgood : ∀ {value : α} {seen : β}, good value seen → seen = f value) :
    Shows line printed f run image := by
  intro before
  have hending := h before _ rfl
  generalize run before = ending, image ((shown line printed).state before) = seen at hending
  cases hending with
  | ok hyields hleaves => rw [hgood hyields, hleaves, View.result]
  | error hinterrupts hleaves => rw [hinterrupts.eq_failure, hleaves, View.result]

/-- With the fuel, the parts of the evaluator mirror themselves. -/
structure AllShow (line : Nat → Nat) (printed : String) (fuel : Nat) : Prop where
  node (nodes : Array Node) (scope : ScopeId) (index : Nat) :
    Shows line printed (Value.mapLines line) (evaluateNode fuel nodes scope index)
      (evaluateNode fuel (nodes.map (·.mapLines line)) scope index)
  nodes (nodes : Array Node) (scope : ScopeId) (indices : List Nat) :
    Shows line printed (List.map (Value.mapLines line)) (evaluateNodes fuel nodes scope indices)
      (evaluateNodes fuel (nodes.map (·.mapLines line)) scope indices)
  call (callee : Value) (arguments : List Value) (place : Nat) :
    Shows line printed (Value.mapLines line) (call fuel callee arguments place)
      (call fuel (callee.mapLines line) (arguments.map (·.mapLines line)) (line place))
  execute (scope : ScopeId) (statement : Statement) :
    Shows line printed (Completion.mapLines line) (execute fuel scope statement)
      (execute fuel scope (statement.mapLines line))
  executeAll (scope : ScopeId) (statements : List Statement) :
    Shows line printed (Completion.mapLines line) (executeAll fuel scope statements)
      (executeAll fuel scope (Statement.mapAllLines line statements))
  loop (scope : ScopeId) (condition : Expression) (body : Statement) :
    Shows line printed (Completion.mapLines line) (loop fuel scope condition body)
      (loop fuel scope (condition.mapLines line) (body.mapLines line))

theorem allShow (line : Nat → Nat) (printed : String) (fuel : Nat) : AllShow line printed fuel := by
  have hall := (Pairing.sameBut line).allRelate (Pairing.respects_shown line printed) fuel
  exact {
    node := fun nodes _ index =>
      .of_relates (hall.node rfl nodes index) Pairing.sameBut_values_iff.1
    nodes := fun nodes _ indices =>
      .of_relates (hall.nodes rfl nodes indices) Pairing.sameBut_allValues_iff.1
    call := fun callee arguments place =>
      .of_relates (hall.call (Pairing.sameBut_values_iff.2 rfl)
        (Pairing.sameBut_allValues_iff.2 rfl) place) Pairing.sameBut_values_iff.1
    execute := fun _ statement => .of_relates (hall.execute rfl statement) (·.eq_mapLines)
    executeAll := fun _ statements => .of_relates (hall.executeAll rfl statements) (·.eq_mapLines)
    loop := fun _ condition body => .of_relates (hall.loop rfl condition body) (·.eq_mapLines) }

end Run

end Lox
