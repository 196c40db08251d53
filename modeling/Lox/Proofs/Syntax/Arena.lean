import Mathlib
import Lox.Proofs.Syntax.Forest
import Lox.Proofs.Syntax.Table

/-!
# The table of a phrase as a forest

Laying a phrase down adds one tree to the table, and beside it what nothing refers to: a node for
the target of each assignment, and a tree for each value that is read and dropped because what
stands in front of its `=` is no variable. A node is laid for each token at most.
-/

namespace Lox

theorem Separated.sum_length_le {pieces : List (List Token)} {inside : List Token}
    (h : Separated pieces inside) : (pieces.map List.length).sum ≤ inside.length := by
  induction h with
  | none => exact Nat.le_refl 0
  | last piece => simp
  | more piece comma _ ih =>
    rw [List.map_cons, List.sum_cons, List.length_append, List.length_cons]
    omega

namespace Phrase

/-! ### What is left over -/

mutual

/-- Where the targets of the assignments in a phrase are laid. -/
def targets (nodes : Array Node) : Phrase → List Nat
  | literal .. | var _ => []
  | group _ inner _ => inner.targets nodes
  | unary _ _ _ operand => operand.targets nodes
  | infixed left _ _ _ right => left.targets nodes ++ right.targets (left.lay nodes).nodes
  | assign target _ value =>
    nodes.size :: value.targets (nodes.push (.var (.ofToken target.token)))
  | stray target _ value => target.targets nodes ++ value.targets (target.lay nodes).nodes
  | call callee _ arguments _ _ =>
    callee.targets nodes ++ allTargets (callee.lay nodes).nodes arguments

def allTargets (nodes : Array Node) : List Phrase → List Nat
  | [] => []
  | phrase :: rest => phrase.targets nodes ++ allTargets (phrase.lay nodes).nodes rest

end

mutual

/-- The roots of the values in a phrase that are dropped. -/
def dropped (nodes : Array Node) : Phrase → List Nat
  | literal .. | var _ => []
  | group _ inner _ => inner.dropped nodes
  | unary _ _ _ operand => operand.dropped nodes
  | infixed left _ _ _ right => left.dropped nodes ++ right.dropped (left.lay nodes).nodes
  | assign target _ value => value.dropped (nodes.push (.var (.ofToken target.token)))
  | stray target _ value =>
    let between := (target.lay nodes).nodes
    target.dropped nodes ++ (value.lay between).root :: value.dropped between
  | call callee _ arguments _ _ =>
    callee.dropped nodes ++ allDropped (callee.lay nodes).nodes arguments

def allDropped (nodes : Array Node) : List Phrase → List Nat
  | [] => []
  | phrase :: rest => phrase.dropped nodes ++ allDropped (phrase.lay nodes).nodes rest

end

/-! ### Forests -/

theorem operands_node (connective : Connective) (left right line : Nat) :
    (connective.node left right line).operands = [left, right] := by
  cases connective <;> rfl

mutual

/-- Laying a phrase down adds its root to the roots of a forest, and the roots of what is left
over. -/
theorem forest_lay {nodes : Array Node} {roots : List Nat} (h : Forest nodes roots) :
    (phrase : Phrase) → Forest (phrase.lay nodes).nodes
      ((phrase.lay nodes).root :: (phrase.targets nodes ++ (phrase.dropped nodes ++ roots)))
  | literal .. | var _ => Forest.push h
  | group _ inner _ => Forest.push (forest_lay h inner)
  | unary _ _ _ operand => Forest.push (forest_lay h operand)
  | infixed left sign connective _ right => by
    have hboth := forest_lay (forest_lay h left) right
    refine Forest.push (hboth.perm ?_)
    rw [operands_node, targets, dropped, List.perm_iff_count]
    intro index
    simp only [List.count_append, List.count_cons, List.count_nil]
    omega
  | assign target _ value => by
    have htarget : Forest (nodes.push (.var (.ofToken target.token))) (nodes.size :: roots) :=
      Forest.push h
    refine Forest.push ((forest_lay htarget value).perm ?_)
    rw [Node.operands, targets, dropped, List.perm_iff_count]
    intro index
    simp only [List.count_append, List.count_cons, List.count_nil]
    omega
  | stray target _ value => by
    refine (forest_lay (forest_lay h target) value).perm ?_
    rw [targets, dropped, List.perm_iff_count]
    intro index
    simp only [lay, List.count_append, List.count_cons]
    omega
  | call callee _ arguments _ _ => by
    have hboth := forest_layAll (forest_lay h callee) arguments
    refine Forest.push (hboth.perm ?_)
    rw [Node.operands, targets, dropped, List.perm_iff_count]
    intro index
    simp only [List.count_append, List.count_cons]
    omega

theorem forest_layAll {nodes : Array Node} {roots : List Nat} (h : Forest nodes roots) :
    (phrases : List Phrase) → Forest (layAll nodes phrases).1
      ((layAll nodes phrases).2 ++ (allTargets nodes phrases ++ (allDropped nodes phrases ++ roots)))
  | [] => h
  | phrase :: rest => by
    refine (forest_layAll (forest_lay h phrase) rest).perm ?_
    rw [allTargets, allDropped, List.perm_iff_count]
    intro index
    simp only [layAll, List.count_append, List.count_cons]
    omega

end

mutual

/-- What is laid for the target of an assignment is a variable. -/
theorem exists_var_of_mem_targets {nodes : Array Node} {index : Nat} : (phrase : Phrase) →
    index ∈ phrase.targets nodes → ∃ name, (phrase.lay nodes).nodes[index]? = some (.var name)
  | literal .., hmem | var _, hmem => by simp [targets] at hmem
  | group _ inner _, hmem => by
    obtain ⟨name, hname⟩ := exists_var_of_mem_targets inner hmem
    exact ⟨name, getElem?_of_prefix (by simp [lay, Expression.push]) hname⟩
  | unary _ _ _ operand, hmem => by
    obtain ⟨name, hname⟩ := exists_var_of_mem_targets operand hmem
    exact ⟨name, getElem?_of_prefix (by simp [lay, Expression.push]) hname⟩
  | infixed left _ _ _ right, hmem => by
    obtain hmem | hmem := List.mem_append.1 hmem
    · obtain ⟨name, hname⟩ := exists_var_of_mem_targets left hmem
      have hright := getElem?_of_prefix (prefix_lay _ right) hname
      exact ⟨name, getElem?_of_prefix (by simp [lay, Expression.push]) hright⟩
    · obtain ⟨name, hname⟩ := exists_var_of_mem_targets right hmem
      exact ⟨name, getElem?_of_prefix (by simp [lay, Expression.push]) hname⟩
  | assign target _ value, hmem => by
    obtain rfl | hmem := List.mem_cons.1 hmem
    · have htarget : (nodes.push (.var (.ofToken target.token)))[nodes.size]? =
          some (.var (.ofToken target.token)) := Array.getElem?_push_size
      have hvalue := getElem?_of_prefix (prefix_lay _ value) htarget
      exact ⟨_, getElem?_of_prefix (by simp [lay, Expression.push]) hvalue⟩
    · obtain ⟨name, hname⟩ := exists_var_of_mem_targets value hmem
      exact ⟨name, getElem?_of_prefix (by simp [lay, Expression.push]) hname⟩
  | stray target _ value, hmem => by
    obtain hmem | hmem := List.mem_append.1 hmem
    · obtain ⟨name, hname⟩ := exists_var_of_mem_targets target hmem
      exact ⟨name, getElem?_of_prefix (prefix_lay _ value) hname⟩
    · exact exists_var_of_mem_targets value hmem
  | call callee _ arguments _ _, hmem => by
    obtain hmem | hmem := List.mem_append.1 hmem
    · obtain ⟨name, hname⟩ := exists_var_of_mem_targets callee hmem
      have harguments := getElem?_of_prefix (prefix_layAll _ arguments) hname
      exact ⟨name, getElem?_of_prefix (by simp [lay, Expression.push]) harguments⟩
    · obtain ⟨name, hname⟩ := exists_var_of_mem_allTargets arguments hmem
      exact ⟨name, getElem?_of_prefix (by simp [lay, Expression.push]) hname⟩

theorem exists_var_of_mem_allTargets {nodes : Array Node} {index : Nat} :
    (phrases : List Phrase) → index ∈ allTargets nodes phrases →
    ∃ name, (layAll nodes phrases).1[index]? = some (.var name)
  | [], hmem => by simp [allTargets] at hmem
  | phrase :: rest, hmem => by
    obtain hmem | hmem := List.mem_append.1 hmem
    · obtain ⟨name, hname⟩ := exists_var_of_mem_targets phrase hmem
      exact ⟨name, getElem?_of_prefix (prefix_layAll _ rest) hname⟩
    · exact exists_var_of_mem_allTargets rest hmem

end

/-! ### Sizes -/

mutual

theorem size_lay_le (nodes : Array Node) : (phrase : Phrase) → phrase.Ordered →
    (phrase.lay nodes).nodes.size ≤ nodes.size + phrase.tokens.length
  | literal .., _ | var _, _ => by simp [lay, Expression.push, tokens]
  | group _ inner _, hordered => by
    have hinner := size_lay_le nodes inner hordered
    simp only [lay, Expression.push, tokens, Array.size_push, List.length_append, List.length_cons]
    omega
  | unary _ _ _ operand, hordered => by
    have hoperand := size_lay_le nodes operand hordered.2
    simp only [lay, Expression.push, tokens, Array.size_push, List.length_cons]
    omega
  | infixed left _ _ _ right, hordered => by
    obtain ⟨-, -, hleft, hright⟩ := hordered
    have hfirst := size_lay_le nodes left hleft
    have hsecond := size_lay_le (left.lay nodes).nodes right hright
    simp only [lay, Expression.push, tokens, Array.size_push, List.length_append, List.length_cons]
    omega
  | assign target _ value, hordered => by
    have hvalue := size_lay_le (nodes.push (.var (.ofToken target.token))) value hordered
    rw [Array.size_push] at hvalue
    simp only [lay, Expression.push, tokens, Array.size_push, List.length_cons]
    omega
  | stray target _ value, hordered => by
    obtain ⟨-, -, htarget, hvalue⟩ := hordered
    have hfirst := size_lay_le nodes target htarget
    have hsecond := size_lay_le (target.lay nodes).nodes value hvalue
    simp only [lay, tokens, List.length_append, List.length_cons]
    omega
  | call callee _ arguments _ _, hordered => by
    obtain ⟨-, hcallee, hseparated, harguments⟩ := hordered
    have hfirst := size_lay_le nodes callee hcallee
    have hsecond := size_layAll_le (callee.lay nodes).nodes arguments harguments
    have hinside := hseparated.sum_length_le
    simp only [lay, Expression.push, tokens, Array.size_push, List.length_append, List.length_cons]
    omega

theorem size_layAll_le (nodes : Array Node) : (phrases : List Phrase) → AllOrdered phrases →
    (layAll nodes phrases).1.size ≤ nodes.size + ((pieces phrases).map List.length).sum
  | [], _ => by simp [layAll]
  | phrase :: rest, hordered => by
    have hfirst := size_lay_le nodes phrase hordered.1
    have hsecond := size_layAll_le (phrase.lay nodes).nodes rest hordered.2
    simp only [layAll, pieces, List.map_cons, List.sum_cons] at hsecond ⊢
    omega

end

/-! ### Expressions -/

/-- The table of a phrase alone is a forest over the root, the targets of assignments and the roots
of what is dropped. -/
theorem forest_expression (phrase : Phrase) : Forest phrase.expression.nodes
    (phrase.expression.root :: (phrase.targets #[] ++ phrase.dropped #[])) := by
  have h := forest_lay Forest.empty phrase
  rwa [List.append_nil] at h

/-- What is not reached from the root of a phrase is the target of an assignment, or part of a value
that is dropped. -/
theorem not_reaches_root_iff (phrase : Phrase) {index : Nat}
    (hlt : index < phrase.expression.nodes.size) :
    ¬ Reaches phrase.expression.nodes phrase.expression.root index ↔
      index ∈ phrase.targets #[] ∨
        ∃ value ∈ phrase.dropped #[], Reaches phrase.expression.nodes value index := by
  rw [phrase.forest_expression.not_reaches_iff hlt]
  constructor
  · rintro ⟨start, hstart, hreaches⟩
    obtain htarget | hdropped := List.mem_append.1 hstart
    · obtain heq | ⟨child, ⟨node, hnode, hchild⟩, -⟩ := Relation.ReflTransGen.cases_head hreaches
      · exact .inl (heq ▸ htarget)
      · -- The target of an assignment has no operands.
        obtain ⟨name, hname⟩ := exists_var_of_mem_targets phrase htarget
        rw [show phrase.expression.nodes[start]? = _ from hname] at hnode
        cases hnode
        cases hchild
    · exact .inr ⟨start, hdropped, hreaches⟩
  · rintro (htarget | ⟨value, hvalue, hreaches⟩)
    · exact ⟨index, List.mem_append_left _ htarget, .refl⟩
    · exact ⟨value, List.mem_append_right _ hvalue, hreaches⟩

end Phrase

end Lox
