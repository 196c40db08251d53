import Lox.Proofs.Syntax.Phrase
import Mathlib.Data.List.Basic

/-!
# The table of a phrase

Laying a phrase down only adds to the table, its root is the node that the phrase ends with, and
reading the table back from that root gives the tree of the phrase.
-/

namespace Lox.Phrase

mutual

theorem prefix_lay (nodes : Array Node) :
    (phrase : Phrase) → nodes.toList <+: (phrase.lay nodes).nodes.toList
  | literal .. | var _ => by simp [lay, Expression.push]
  | group _ inner _ => by
    simpa [lay, Expression.push] using (prefix_lay nodes inner).trans (List.prefix_append _ _)
  | unary _ _ _ operand => by
    simpa [lay, Expression.push] using (prefix_lay nodes operand).trans (List.prefix_append _ _)
  | infixed left _ _ _ right => by
    have h := (prefix_lay nodes left).trans (prefix_lay _ right)
    simpa [lay, Expression.push] using h.trans (List.prefix_append _ _)
  | assign target _ value => by
    have h := prefix_lay (nodes.push (.var (.ofToken target.token))) value
    rw [Array.toList_push] at h
    simpa [lay, Expression.push] using
      ((List.prefix_append _ _).trans h).trans (List.prefix_append _ _)
  | stray target _ value => (prefix_lay nodes target).trans (prefix_lay _ value)
  | call callee _ arguments _ _ => by
    have h := (prefix_lay nodes callee).trans (prefix_layAll _ arguments)
    simpa [lay, Expression.push] using h.trans (List.prefix_append _ _)

theorem prefix_layAll (nodes : Array Node) :
    (phrases : List Phrase) → nodes.toList <+: (layAll nodes phrases).1.toList
  | [] => List.prefix_rfl
  | phrase :: rest => (prefix_lay nodes phrase).trans (prefix_layAll _ rest)

end

theorem getElem?_of_prefix {α : Type} {first second : Array α} {index : Nat} {value : α}
    (h : first.toList <+: second.toList) (hget : first[index]? = some value) :
    second[index]? = some value := by
  rw [← Array.getElem?_toList] at hget ⊢
  obtain ⟨hindex, rfl⟩ := List.getElem?_eq_some_iff.1 hget
  exact List.prefix_iff_getElem?.1 h index hindex

/-- The root of an operation is the node of a variable only if the operation is one. -/
theorem exists_root_ne_var {phrase : Phrase} (hplace : 0 < phrase.place)
    (hvar : phrase.isVar = false) (nodes : Array Node) :
    ∃ node, (phrase.lay nodes).nodes[(phrase.lay nodes).root]? = some node ∧
      ∀ name, node ≠ .var name := by
  cases phrase with
  | var _ => cases hvar
  | assign _ _ _ | stray _ _ _ => cases hplace
  | infixed _ _ connective _ _ =>
    cases connective <;> simp [lay, Expression.push, Connective.node]
  | literal _ _ _ | group _ _ _ | unary _ _ _ _ | call _ _ _ _ _ => simp [lay, Expression.push]

/-! ### Reading a table back -/

/-- The trees of all nodes of a table. -/
def Decodes (nodes : Array Node) (trees : Array Tree) : Prop :=
  Expression.trees? nodes.toList #[] = some trees

theorem decodes_empty : Decodes #[] #[] := rfl

theorem decodes_push {nodes : Array Node} {trees : Array Tree} (h : Decodes nodes trees)
    {node : Node} {tree : Tree} (htree : node.tree? trees = some tree) :
    Decodes (nodes.push node) (trees.push tree) := by
  rw [Decodes, Expression.trees?, Array.toList_push, List.foldlM_append]
  rw [Decodes, Expression.trees?] at h
  rw [h]
  simp [htree]

theorem Decodes.size_eq {nodes : Array Node} {trees : Array Tree} (h : Decodes nodes trees) :
    trees.size = nodes.size := by
  have hfold (rest : List Node) (earlier trees : Array Tree)
      (h : Expression.trees? rest earlier = some trees) :
      trees.size = earlier.size + rest.length := by
    induction rest generalizing earlier with
    | nil =>
      cases h
      rfl
    | cons node rest ih =>
      obtain ⟨next, hnext, h⟩ := Option.bind_eq_some_iff.1 h
      obtain ⟨tree, -, hpush⟩ := Option.bind_eq_some_iff.1 hnext
      cases hpush
      rw [ih _ h, Array.size_push, List.length_cons]
      omega
  simpa using hfold nodes.toList #[] trees h

/-- The table of an expression has trees that extend those there were, and its root has the tree. -/
def Extends (trees : Array Tree) (expression : Expression) (tree : Tree) : Prop :=
  ∃ more, Decodes expression.nodes more ∧ trees.toList <+: more.toList ∧
    more[expression.root]? = some tree

theorem extends_push {nodes : Array Node} {trees more : Array Tree} (h : Decodes nodes more)
    (hkept : trees.toList <+: more.toList) {node : Node} {tree : Tree}
    (htree : node.tree? more = some tree) : Extends trees (.push nodes node) tree := by
  refine ⟨more.push tree, decodes_push h htree, ?_, ?_⟩
  · rw [Array.toList_push]
    exact hkept.trans (List.prefix_append _ _)
  · simp [Expression.push, ← h.size_eq]

mutual

theorem extends_lay {nodes : Array Node} {trees : Array Tree} (h : Decodes nodes trees) :
    (phrase : Phrase) → Extends trees (phrase.lay nodes) phrase.tree
  | literal .. | var _ => extends_push h List.prefix_rfl rfl
  | group _ inner _ => by
    obtain ⟨more, hmore, hkept, hroot⟩ := extends_lay h inner
    exact extends_push hmore hkept (by simp [Node.tree?, hroot, tree])
  | unary _ _ _ operand => by
    obtain ⟨more, hmore, hkept, hroot⟩ := extends_lay h operand
    exact extends_push hmore hkept (by simp [Node.tree?, hroot, tree])
  | infixed left _ connective _ right => by
    obtain ⟨between, hbetween, hfirst, hleft⟩ := extends_lay h left
    obtain ⟨more, hmore, hsecond, hright⟩ := extends_lay hbetween right
    refine extends_push hmore (hfirst.trans hsecond) ?_
    have hleft := getElem?_of_prefix hsecond hleft
    cases connective <;> simp [Connective.node, Node.tree?, hleft, hright, tree, Connective.tree]
  | assign target _ value => by
    have htarget : Decodes (nodes.push (.var (.ofToken target.token))) _ := decodes_push h rfl
    obtain ⟨more, hmore, hkept, hroot⟩ := extends_lay htarget value
    rw [Array.toList_push] at hkept
    exact extends_push hmore ((List.prefix_append _ _).trans hkept)
      (by simp [Node.tree?, hroot, tree])
  | stray target _ value => by
    obtain ⟨between, hbetween, hfirst, htarget⟩ := extends_lay h target
    obtain ⟨more, hmore, hsecond, -⟩ := extends_lay hbetween value
    exact ⟨more, hmore, hfirst.trans hsecond, getElem?_of_prefix hsecond htarget⟩
  | call callee _ arguments _ _ => by
    obtain ⟨between, hbetween, hfirst, hcallee⟩ := extends_lay h callee
    obtain ⟨more, hmore, hsecond, harguments⟩ := extends_layAll hbetween arguments
    refine extends_push hmore (hfirst.trans hsecond) ?_
    simp [Node.tree?, getElem?_of_prefix hsecond hcallee, harguments, tree]

theorem extends_layAll {nodes : Array Node} {trees : Array Tree} (h : Decodes nodes trees) :
    (phrases : List Phrase) → ∃ more, Decodes (layAll nodes phrases).1 more ∧
      trees.toList <+: more.toList ∧
      (layAll nodes phrases).2.mapM (more[·]?) = some (Phrase.trees phrases)
  | [] => ⟨trees, h, List.prefix_rfl, rfl⟩
  | phrase :: rest => by
    obtain ⟨between, hbetween, hfirst, hphrase⟩ := extends_lay h phrase
    obtain ⟨more, hmore, hsecond, hrest⟩ := extends_layAll hbetween rest
    refine ⟨more, hmore, hfirst.trans hsecond, ?_⟩
    simp [layAll, Phrase.trees, getElem?_of_prefix hsecond hphrase, hrest]

end

/-- The expression that a phrase is kept as stands for the tree of the phrase. -/
theorem tree?_expression (phrase : Phrase) : phrase.expression.tree? = some phrase.tree := by
  obtain ⟨trees, htrees, -, hroot⟩ := extends_lay decodes_empty phrase
  have hall : Expression.trees? phrase.expression.nodes.toList #[] = some trees := htrees
  rw [Expression.tree?, hall]
  exact hroot

end Lox.Phrase
