import Lox.Proofs.Syntax.Table

/-!
# Unfolding a table

The tree that stands at a node of a table, read from the node on along its operands. A node that is
not come to in this way has no part in the tree. Where a table can be read off in one pass, every
node has a tree, and it is the one of that pass.
-/

namespace Lox

mutual

/-- The node with an index, with all that hangs on it, is a tree. -/
inductive Unfolds (nodes : Array Node) : (index : Nat) → Tree → Prop where
  | literal {index : Nat} {value : Literal} (found : nodes[index]? = some (.literal value)) :
    Unfolds nodes index (.literal value)
  | var {index : Nat} {name : Identifier} (found : nodes[index]? = some (.var name)) :
    Unfolds nodes index (.var name)
  | group {index inner : Nat} {tree : Tree} (found : nodes[index]? = some (.group inner))
      (unfolds : Unfolds nodes inner tree) : Unfolds nodes index (.group tree)
  | unary {index operand line : Nat} {operator : UnaryOperator} {tree : Tree}
      (found : nodes[index]? = some (.unary operator operand line))
      (unfolds : Unfolds nodes operand tree) : Unfolds nodes index (.unary operator tree line)
  | binary {index left right line : Nat} {operator : BinaryOperator} {first second : Tree}
      (found : nodes[index]? = some (.binary operator left right line))
      (unfoldsLeft : Unfolds nodes left first) (unfoldsRight : Unfolds nodes right second) :
    Unfolds nodes index (.binary operator first second line)
  | logical {index left right : Nat} {operator : LogicalOperator} {first second : Tree}
      (found : nodes[index]? = some (.logical operator left right))
      (unfoldsLeft : Unfolds nodes left first) (unfoldsRight : Unfolds nodes right second) :
    Unfolds nodes index (.logical operator first second)
  | assign {index value : Nat} {name : Identifier} {tree : Tree}
      (found : nodes[index]? = some (.assign name value)) (unfolds : Unfolds nodes value tree) :
    Unfolds nodes index (.assign name tree)
  | call {index callee line : Nat} {arguments : List Nat} {tree : Tree} {trees : List Tree}
      (found : nodes[index]? = some (.call callee arguments line))
      (unfolds : Unfolds nodes callee tree) (allUnfold : AllUnfold nodes arguments trees) :
    Unfolds nodes index (.call tree trees line)

/-- The nodes with these indices are these trees. -/
inductive AllUnfold (nodes : Array Node) : (indices : List Nat) → List Tree → Prop where
  | nil : AllUnfold nodes [] []
  | cons {index : Nat} {rest : List Nat} {tree : Tree} {trees : List Tree}
      (unfolds : Unfolds nodes index tree) (allUnfold : AllUnfold nodes rest trees) :
    AllUnfold nodes (index :: rest) (tree :: trees)

end

section
variable {nodes : Array Node} {earlier : Array Tree}
  (hearlier : ∀ index tree, earlier[index]? = some tree → Unfolds nodes index tree)
include hearlier

theorem allUnfold_of_mapM {indices : List Nat} : ∀ {trees : List Tree},
    indices.mapM (earlier[·]?) = some trees → AllUnfold nodes indices trees := by
  induction indices with
  | nil =>
    rintro trees ⟨⟩
    exact .nil
  | cons index rest ih =>
    intro trees h
    rw [List.mapM_cons] at h
    obtain ⟨tree, htree, h⟩ := Option.bind_eq_some_iff.1 h
    obtain ⟨others, hothers, h⟩ := Option.bind_eq_some_iff.1 h
    cases h
    exact .cons (hearlier _ _ htree) (ih hothers)

/-- The tree of a node is its unfolding if those of its operands are. -/
theorem unfolds_of_tree? {index : Nat} {node : Node} {tree : Tree}
    (hfound : nodes[index]? = some node) (h : node.tree? earlier = some tree) :
    Unfolds nodes index tree := by
  cases node with
  | literal value =>
    cases h
    exact .literal hfound
  | var name =>
    cases h
    exact .var hfound
  | group inner =>
    obtain ⟨tree, hinner, h⟩ := Option.bind_eq_some_iff.1 h
    cases h
    exact .group hfound (hearlier _ _ hinner)
  | unary operator operand line =>
    obtain ⟨tree, hoperand, h⟩ := Option.bind_eq_some_iff.1 h
    cases h
    exact .unary hfound (hearlier _ _ hoperand)
  | binary operator left right line =>
    obtain ⟨first, hleft, h⟩ := Option.bind_eq_some_iff.1 h
    obtain ⟨second, hright, h⟩ := Option.bind_eq_some_iff.1 h
    cases h
    exact .binary hfound (hearlier _ _ hleft) (hearlier _ _ hright)
  | logical operator left right =>
    obtain ⟨first, hleft, h⟩ := Option.bind_eq_some_iff.1 h
    obtain ⟨second, hright, h⟩ := Option.bind_eq_some_iff.1 h
    cases h
    exact .logical hfound (hearlier _ _ hleft) (hearlier _ _ hright)
  | assign name value =>
    obtain ⟨tree, hvalue, h⟩ := Option.bind_eq_some_iff.1 h
    cases h
    exact .assign hfound (hearlier _ _ hvalue)
  | call callee arguments line =>
    obtain ⟨tree, hcallee, h⟩ := Option.bind_eq_some_iff.1 h
    obtain ⟨trees, harguments, h⟩ := Option.bind_eq_some_iff.1 h
    cases h
    exact .call hfound (hearlier _ _ hcallee) (allUnfold_of_mapM hearlier harguments)

end

theorem unfolds_of_trees? {nodes : Array Node} {rest : List Node} :
    ∀ (front : List Node) {earlier trees : Array Tree}, nodes.toList = front ++ rest →
    earlier.size = front.length →
    (∀ index tree, earlier[index]? = some tree → Unfolds nodes index tree) →
    Expression.trees? rest earlier = some trees →
    ∀ index tree, trees[index]? = some tree → Unfolds nodes index tree := by
  induction rest with
  | nil =>
    intro front earlier trees _ _ hearlier h
    cases h
    exact hearlier
  | cons node rest ih =>
    intro front earlier trees hnodes hsize hearlier h
    obtain ⟨next, hnext, h⟩ := Option.bind_eq_some_iff.1 h
    obtain ⟨tree, htree, hpush⟩ := Option.bind_eq_some_iff.1 hnext
    cases hpush
    have hfound : nodes[earlier.size]? = some node := by
      rw [← Array.getElem?_toList, hnodes, hsize]
      simp
    refine ih (front ++ [node]) (by simp [hnodes]) (by simp [hsize]) ?_ h
    intro index found hindex
    rw [Array.getElem?_push] at hindex
    split at hindex
    case isTrue heq =>
      cases hindex
      subst heq
      exact unfolds_of_tree? hearlier hfound htree
    case isFalse => exact hearlier index found hindex

namespace Expression

/-- The expression, from its root on, is a tree. -/
def Unfolds (expression : Expression) (tree : Tree) : Prop :=
  Lox.Unfolds expression.nodes expression.root tree

theorem unfolds_of_tree? {expression : Expression} {tree : Tree}
    (h : expression.tree? = some tree) : expression.Unfolds tree := by
  obtain ⟨trees, htrees, hroot⟩ := Option.bind_eq_some_iff.1 h
  exact unfolds_of_trees? [] rfl rfl (by simp) htrees _ _ hroot

end Expression

/-! ### Phrases -/

mutual

/-- More nodes behind those of a table leave what is in it as it is. -/
theorem Unfolds.mono {nodes more : Array Node} (hkept : nodes.toList <+: more.toList)
    {index : Nat} {tree : Tree} : Unfolds nodes index tree → Unfolds more index tree
  | .literal found => .literal (Phrase.getElem?_of_prefix hkept found)
  | .var found => .var (Phrase.getElem?_of_prefix hkept found)
  | .group found unfolds => .group (Phrase.getElem?_of_prefix hkept found) (unfolds.mono hkept)
  | .unary found unfolds => .unary (Phrase.getElem?_of_prefix hkept found) (unfolds.mono hkept)
  | .binary found unfoldsLeft unfoldsRight =>
    .binary (Phrase.getElem?_of_prefix hkept found) (unfoldsLeft.mono hkept)
      (unfoldsRight.mono hkept)
  | .logical found unfoldsLeft unfoldsRight =>
    .logical (Phrase.getElem?_of_prefix hkept found) (unfoldsLeft.mono hkept)
      (unfoldsRight.mono hkept)
  | .assign found unfolds =>
    .assign (Phrase.getElem?_of_prefix hkept found) (unfolds.mono hkept)
  | .call found unfolds allUnfold =>
    .call (Phrase.getElem?_of_prefix hkept found) (unfolds.mono hkept)
      (allUnfold.mono hkept)

theorem AllUnfold.mono {nodes more : Array Node} (hkept : nodes.toList <+: more.toList)
    {indices : List Nat} {trees : List Tree} :
    AllUnfold nodes indices trees → AllUnfold more indices trees
  | .nil => .nil
  | .cons unfolds allUnfold => .cons (unfolds.mono hkept) (allUnfold.mono hkept)

end

namespace Phrase

theorem getElem?_push_root (nodes : Array Node) (node : Node) :
    (Expression.push nodes node).nodes[(Expression.push nodes node).root]? = some node :=
  Array.getElem?_push_size

theorem prefix_push (nodes : Array Node) (node : Node) :
    nodes.toList <+: (Expression.push nodes node).nodes.toList := by
  rw [Expression.push, Array.toList_push]
  exact List.prefix_append _ _

mutual

/-- Whatever is in the table, a phrase that is laid down behind it is its tree. -/
theorem unfolds_lay (nodes : Array Node) : (phrase : Phrase) →
    Unfolds (phrase.lay nodes).nodes (phrase.lay nodes).root phrase.tree
  | literal .. => .literal (getElem?_push_root ..)
  | var _ => .var (getElem?_push_root ..)
  | group _ inner _ =>
    .group (getElem?_push_root ..) ((unfolds_lay nodes inner).mono (prefix_push ..))
  | unary _ _ _ operand =>
    .unary (getElem?_push_root ..) ((unfolds_lay nodes operand).mono (prefix_push ..))
  | infixed left sign connective _ right => by
    have hleft := (unfolds_lay nodes left).mono (prefix_lay _ right)
    have hright := unfolds_lay (left.lay nodes).nodes right
    have hnode := prefix_push (right.lay (left.lay nodes).nodes).nodes
      (connective.node (left.lay nodes).root (right.lay (left.lay nodes).nodes).root sign.line)
    cases connective with
    | binary => exact .binary (getElem?_push_root ..) (hleft.mono hnode) (hright.mono hnode)
    | logical =>
      exact .logical (getElem?_push_root ..) (hleft.mono hnode) (hright.mono hnode)
  | assign target _ value =>
    .assign (getElem?_push_root ..) ((unfolds_lay _ value).mono (prefix_push ..))
  | stray target _ value => (unfolds_lay nodes target).mono (prefix_lay _ value)
  | call callee _ arguments _ _ =>
    .call (getElem?_push_root ..)
      (((unfolds_lay nodes callee).mono (prefix_layAll _ arguments)).mono (prefix_push ..))
      ((allUnfold_layAll _ arguments).mono (prefix_push ..))

theorem allUnfold_layAll (nodes : Array Node) : (phrases : List Phrase) →
    AllUnfold (layAll nodes phrases).1 (layAll nodes phrases).2 (trees phrases)
  | [] => .nil
  | phrase :: rest =>
    .cons ((unfolds_lay nodes phrase).mono (prefix_layAll _ rest)) (allUnfold_layAll _ rest)

end

end Phrase

end Lox
