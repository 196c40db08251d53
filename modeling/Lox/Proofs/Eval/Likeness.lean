import Lox.Proofs.Eval.Pairing
import Lox.Proofs.Eval.Region

/-!
# Machines that programs cannot tell apart

Where a scope stands in the store and which identity a callable got depends on what was run before,
but a program only sees what names are bound to, and which callables are the same. Two machines are
alike if their scopes and callables can be paired so that paired scopes bind the same names to paired
values. What is run in both takes new scopes and identities in step, so it leaves them alike, and it
prints the same.
-/

namespace Lox

namespace Pairing

variable (pairing : Pairing)

/-- The two scopes, at these places, lie in paired scopes and bind the same names to paired values. -/
structure ScopesAt (scope beside : ScopeId) (found other : Scope) : Prop where
  parent : Option.Rel
    (fun outer twin => pairing.scopes outer twin ∧ (outer < scope ↔ twin < beside))
    found.parent other.parent
  value? : ∀ name : String, Option.Rel pairing.Values (found.value? name) (other.value? name)

/-- Paired scopes are alike, and what will be added is paired in the order in which it is added. -/
structure Stores (store other : Store) : Prop where
  found : ∀ {scope beside : ScopeId}, pairing.scopes scope beside →
    Option.Rel (pairing.ScopesAt scope beside) store.scopes[scope]? other.scopes[beside]?
  added : ∀ count : Nat,
    pairing.scopes (store.scopes.size + count) (other.scopes.size + count)

/-- Whatever was printed in them, the machines are alike. -/
structure Machines (machine other : Machine) : Prop where
  stores : pairing.Stores machine.store other.store
  supply : ∀ count : Nat,
    pairing.functions (machine.nextIdentity + count) (other.nextIdentity + count)
  callDepth_eq : machine.callDepth = other.callDepth
  reading_eq : ∀ count : Nat, machine.clock.reading (machine.clock.taken + count) =
    other.clock.reading (other.clock.taken + count)

/-- The machines are alike, and they have printed the same behind what was printed before. -/
structure MachinesBehind (earlier before : String) (machine other : Machine) : Prop
    extends Machines pairing machine other where
  output : ∃ printed : String,
    machine.output = earlier ++ printed ∧ other.output = before ++ printed

section
variable {pairing} {store other : Store} {scope beside : ScopeId}

theorem ScopesAt.binds_eq {found seen : Scope} (h : pairing.ScopesAt scope beside found seen)
    (name : String) : found.binds name = seen.binds name := by
  have hvalue := h.value? name
  rw [Scope.binds, Scope.binds]
  generalize found.value? name = value, seen.value? name = twin at hvalue
  cases hvalue <;> rfl

theorem ScopesAt.define {found seen : Scope} (h : pairing.ScopesAt scope beside found seen)
    (name : String) {value twin : Value} (hvalue : pairing.Values value twin) :
    pairing.ScopesAt scope beside (found.define name value) (seen.define name twin) where
  parent := h.parent
  value? bound := by
    rw [Scope.value?_define, Scope.value?_define]
    split
    · exact .some hvalue
    · exact h.value? bound

/-! ### Looking names up -/

variable (h : pairing.Stores store other)
include h

section
variable (hscope : pairing.scopes scope beside)
include hscope

theorem Stores.resolve? (name : String) :
    Option.Rel pairing.scopes (store.resolve? name scope) (other.resolve? name beside) := by
  induction scope using Nat.strongRecOn generalizing beside with
  | _ scope ih =>
    have hfound := h.found hscope
    rw [Store.resolve?.eq_def store, Store.resolve?.eq_def other]
    generalize store.scopes[scope]? = found, other.scopes[beside]? = seen at hfound
    cases hfound with
    | none => exact .none
    | @some inner twin hat =>
      simp only [hat.binds_eq name]
      split
      · exact .some hscope
      · have hparent := hat.parent
        generalize inner.parent = outer, twin.parent = outside at hparent
        cases hparent with
        | none => exact .none
        | @some parent further hpaired =>
          -- Both parents come before their children, or neither does.
          obtain ⟨hpaired, hlt⟩ := hpaired
          by_cases hparent : parent < scope
          · simp only [if_pos hparent, if_pos (hlt.1 hparent)]
            exact ih parent hparent hpaired
          · simp only [if_neg hparent, if_neg (mt hlt.2 hparent)]
            exact .none

theorem Stores.value? (name : String) :
    Option.Rel pairing.Values (store.value? name scope) (other.value? name beside) := by
  have htarget := h.resolve? hscope name
  rw [Store.value?, Store.value?]
  generalize store.resolve? name scope = target, other.resolve? name beside = seen at htarget
  cases htarget with
  | none => exact .none
  | @some target seen hpaired =>
    have hfound := h.found hpaired
    simp only [Option.bind_eq_bind, Option.bind_some]
    generalize store.scopes[target]? = found, other.scopes[seen]? = image at hfound
    cases hfound with
    | none => exact .none
    | some hat => exact hat.value? name

/-! ### Changes -/

theorem Stores.define (name : String) {value twin : Value} (hvalue : pairing.Values value twin) :
    pairing.Stores (store.define scope name value) (other.define beside name twin) where
  found {place image} hpaired := by
    have hsame : scope = place ↔ beside = image :=
      Relator.rel_eq pairing.scopes_biUnique hscope hpaired
    have hfound := h.found hpaired
    rw [Store.define, Store.define, Array.getElem?_modify, Array.getElem?_modify]
    by_cases hplace : scope = place
    · rw [if_pos hplace, if_pos (hsame.1 hplace)]
      generalize store.scopes[place]? = found, other.scopes[image]? = seen at hfound
      cases hfound with
      | none => exact .none
      | some hat => exact .some (hat.define name hvalue)
    · rw [if_neg hplace, if_neg (mt hsame.2 hplace)]
      exact hfound
  added count := by
    rw [Store.size_define, Store.size_define]
    exact h.added count

theorem Stores.lt_iff : scope < store.scopes.size ↔ beside < other.scopes.size := by
  have hfound := h.found hscope
  rw [← Nat.not_le, ← Nat.not_le, ← Array.getElem?_eq_none_iff, ← Array.getElem?_eq_none_iff]
  generalize store.scopes[scope]? = found, other.scopes[beside]? = seen at hfound
  cases hfound with
  | none => exact Iff.rfl
  | some => simp

theorem Stores.add :
    pairing.Stores (store.add (some scope)).2 (other.add (some beside)).2 where
  found {place image} hpaired := by
    have hsame : place = store.scopes.size ↔ image = other.scopes.size :=
      Relator.rel_eq pairing.scopes_biUnique hpaired (h.added 0)
    rw [Store.add, Store.add, Array.getElem?_push, Array.getElem?_push]
    -- The new scopes are paired with each other, so neither is paired with an older one.
    by_cases hplace : place = store.scopes.size
    · rw [if_pos hplace, if_pos (hsame.1 hplace), hplace, hsame.1 hplace]
      exact .some ⟨.some ⟨hscope, h.lt_iff hscope⟩, fun _ => .none⟩
    · rw [if_neg hplace, if_neg (mt hsame.2 hplace)]
      exact h.found hpaired
  added count := by
    rw [Store.size_add, Store.size_add, Nat.add_assoc, Nat.add_assoc]
    exact h.added (1 + count)

end

end

/-! ### Runs -/

theorem respects_machinesBehind (earlier before : String) :
    pairing.Respects (pairing.MachinesBehind earlier before) where
  value? h hscope name := h.stores.value? hscope name
  resolve? h hscope name := h.stores.resolve? hscope name
  define h hscope name hvalue := { h with stores := h.stores.define hscope name hvalue }
  enter h hparent := ⟨h.stores.added 0, { h with stores := h.stores.add hparent }⟩
  identify {machine other} h := by
    refine ⟨h.supply 0, { h with supply := fun count => ?_ }⟩
    rw [Nat.add_assoc, Nat.add_assoc]
    exact h.supply (1 + count)
  print {machine other} h text := by
    obtain ⟨printed, hmachine, hother⟩ := h.output
    refine { h with output := ⟨printed ++ text ++ "\n", ?_, ?_⟩ }
    · simp only [hmachine, String.append_assoc]
    · simp only [hother, String.append_assoc]
  tick {machine other} h := by
    refine ⟨h.reading_eq 0, { h with reading_eq := fun count => ?_ }⟩
    show machine.clock.reading (machine.clock.taken + 1 + count) =
      other.clock.reading (other.clock.taken + 1 + count)
    rw [Nat.add_assoc, Nat.add_assoc]
    exact h.reading_eq (1 + count)
  callDepth_eq h := h.callDepth_eq
  atDepth h depth := { h with callDepth_eq := rfl }

end Pairing

end Lox
