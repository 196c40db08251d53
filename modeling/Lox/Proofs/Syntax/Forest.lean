import Lox.Syntax.Expression
import Mathlib.Data.List.Nodup
import Mathlib.Data.List.Perm.Basic
import Mathlib.Logic.Relation

/-!
# Tables as forests

Nodes refer to each other by their places in a table. A table is a forest over some of its indices,
its roots, if nodes refer only to nodes before them, and each index either is a root or is referred
to, once in all. A table stays a forest when a node is added to it that takes some of the roots as
its operands. In a forest every node is reached from one root, and from no other.
-/

namespace Lox

/-- The indices that the nodes of a table refer to, as often as they are referred to. -/
def references (nodes : Array Node) : List Nat :=
  nodes.toList.flatMap Node.operands

/-- The node at the first index has the second one among its operands. -/
def Refers (nodes : Array Node) (parent child : Nat) : Prop :=
  ∃ node, nodes[parent]? = some node ∧ child ∈ node.operands

/-- The second index is the first one, or an operand of a node that is reached from the first one. -/
def Reaches (nodes : Array Node) : (start finish : Nat) → Prop :=
  Relation.ReflTransGen (Refers nodes)

/-- Nodes refer only to nodes before them, and each index is a root or is referred to, once in all. -/
structure Forest (nodes : Array Node) (roots : List Nat) : Prop where
  lt_of_refers : ∀ {parent child : Nat}, Refers nodes parent child → child < parent
  count_add : ∀ index : Nat, (references nodes).count index + roots.count index =
    if index < nodes.size then 1 else 0

variable {nodes : Array Node} {roots : List Nat} {index parent child : Nat}

theorem references_push (node : Node) :
    references (nodes.push node) = references nodes ++ node.operands := by
  simp [references]

theorem refers_push {node : Node} : Refers (nodes.push node) parent child ↔
    Refers nodes parent child ∨ parent = nodes.size ∧ child ∈ node.operands := by
  rw [Refers, Refers, Array.getElem?_push]
  by_cases hlast : parent = nodes.size
  · subst hlast
    simp
  · simp [hlast]

theorem mem_references : child ∈ references nodes ↔ ∃ parent, Refers nodes parent child := by
  rw [references, List.mem_flatMap]
  constructor
  · rintro ⟨node, hnode, hchild⟩
    obtain ⟨parent, hparent⟩ := List.getElem?_of_mem hnode
    exact ⟨parent, node, by rwa [← Array.getElem?_toList], hchild⟩
  · rintro ⟨parent, node, hnode, hchild⟩
    rw [← Array.getElem?_toList] at hnode
    exact ⟨node, List.mem_of_getElem? hnode, hchild⟩

theorem Refers.parent_lt_size (hrefers : Refers nodes parent child) : parent < nodes.size := by
  obtain ⟨node, hnode, -⟩ := hrefers
  exact (Array.getElem?_eq_some_iff.1 hnode).1

namespace Forest

/-! ### Growing -/

theorem empty : Forest #[] [] where
  lt_of_refers h := by
    obtain ⟨node, hnode, -⟩ := h
    simp at hnode
  count_add index := by simp [references]

theorem perm {others : List Nat} (h : Forest nodes roots) (hperm : roots.Perm others) :
    Forest nodes others where
  lt_of_refers := h.lt_of_refers
  count_add index := hperm.count_eq index ▸ h.count_add index

theorem lt_size_of_mem (h : Forest nodes roots) (hmem : index ∈ roots) : index < nodes.size := by
  have hcount := h.count_add index
  have hpos := List.count_pos_iff.2 hmem
  by_contra hout
  rw [if_neg hout] at hcount
  omega

/-- A node that takes some of the roots as its operands is a root in their place. -/
theorem push {node : Node} {rest : List Nat} (h : Forest nodes (node.operands ++ rest)) :
    Forest (nodes.push node) (nodes.size :: rest) where
  lt_of_refers {parent child} hrefers := by
    obtain hrefers | ⟨rfl, hchild⟩ := refers_push.1 hrefers
    · exact h.lt_of_refers hrefers
    · exact h.lt_size_of_mem (List.mem_append_left rest hchild)
  count_add index := by
    have hcount := h.count_add index
    rw [List.count_append] at hcount
    rw [references_push, List.count_append, List.count_cons, Array.size_push]
    by_cases hlast : index = nodes.size
    · subst hlast
      simp at hcount ⊢
      omega
    · have hne : (nodes.size == index) = false := by simpa using Ne.symm hlast
      rw [hne, if_neg (by decide)]
      split at hcount <;> split <;> omega

/-! ### Parents -/

section
variable (h : Forest nodes roots)
include h

theorem count_references_le (index : Nat) : (references nodes).count index ≤ 1 := by
  have hcount := h.count_add index
  split at hcount <;> omega

theorem nodup_references : (references nodes).Nodup :=
  List.nodup_iff_count_le_one.2 h.count_references_le

/-- No node refers to a root. -/
theorem notMem_references_of_mem (hmem : index ∈ roots) : index ∉ references nodes := by
  intro hreferred
  have hcount := h.count_add index
  have hroot := List.count_pos_iff.2 hmem
  have hreference := List.count_pos_iff.2 hreferred
  split at hcount <;> omega

theorem nodup_roots : roots.Nodup := by
  apply List.nodup_iff_count_le_one.2
  intro index
  have hcount := h.count_add index
  split at hcount <;> omega

/-- Whatever is no root has a node that refers to it. -/
theorem exists_refers_of_notMem (hlt : index < nodes.size) (hmem : index ∉ roots) :
    ∃ parent, Refers nodes parent index := by
  have hcount := h.count_add index
  rw [if_pos hlt, List.count_eq_zero.2 hmem] at hcount
  exact mem_references.1 (List.count_pos_iff.1 (by omega))

/-- No two nodes refer to the same one. -/
theorem parent_unique {first second : Nat} (hfirst : Refers nodes first child)
    (hsecond : Refers nodes second child) : first = second := by
  obtain ⟨node, hnode, hmem⟩ := hfirst
  obtain ⟨other, hother, hmemOther⟩ := hsecond
  rw [← Array.getElem?_toList, List.getElem?_eq_some_iff] at hnode hother
  obtain ⟨hlt, rfl⟩ := hnode
  obtain ⟨hltOther, rfl⟩ := hother
  have hapart := (List.nodup_flatMap.1 h.nodup_references).2
  rw [List.pairwise_iff_getElem] at hapart
  obtain hless | heq | hless := Nat.lt_trichotomy first second
  · exact absurd hmemOther (hapart first second hlt hltOther hless hmem)
  · exact heq
  · exact absurd hmem (hapart second first hltOther hlt hless hmemOther)

/-! ### Roots -/

/-- Every node is reached from a root: as long as there is a node that refers to what is reached, go
on to that one, which comes later in the table. -/
theorem exists_reaches (hlt : index < nodes.size) : ∃ root ∈ roots, Reaches nodes root index := by
  induction hleft : nodes.size - index using Nat.strongRecOn generalizing index with
  | _ left ih =>
    by_cases hmem : index ∈ roots
    · exact ⟨index, hmem, .refl⟩
    · obtain ⟨parent, hparent⟩ := h.exists_refers_of_notMem hlt hmem
      have hless := h.lt_of_refers hparent
      have hparentLt := hparent.parent_lt_size
      obtain ⟨root, hroot, hreaches⟩ :=
        ih (nodes.size - parent) (by omega) hparentLt rfl
      exact ⟨root, hroot, hreaches.tail hparent⟩

/-- No node is reached from two roots, since on the way back from it there is never a choice. -/
theorem root_unique {first second : Nat} (hfirst : first ∈ roots) (hsecond : second ∈ roots)
    (hreaches : Reaches nodes first index) (hother : Reaches nodes second index) :
    first = second := by
  have hstart {root index : Nat} (hmem : index ∈ roots) (h' : Reaches nodes root index) :
      root = index := by
    obtain heq | ⟨parent, -, hparent⟩ := Relation.ReflTransGen.cases_tail h'
    · exact heq.symm
    · exact absurd (mem_references.2 ⟨parent, hparent⟩) (h.notMem_references_of_mem hmem)
  induction hreaches with
  | refl => exact (hstart hfirst hother).symm
  | @tail parent index hreaches hparent ih =>
    obtain heq | ⟨otherParent, hotherReaches, hotherParent⟩ :=
      Relation.ReflTransGen.cases_tail hother
    · rw [heq] at hparent
      exact absurd (mem_references.2 ⟨parent, hparent⟩) (h.notMem_references_of_mem hsecond)
    · rw [h.parent_unique hotherParent hparent] at hotherReaches
      exact ih hotherReaches

end

/-- What is not reached from the first root is what is reached from the others. -/
theorem not_reaches_iff {root : Nat} {others : List Nat} (h : Forest nodes (root :: others))
    (hlt : index < nodes.size) :
    ¬ Reaches nodes root index ↔ ∃ other ∈ others, Reaches nodes other index := by
  constructor
  · intro hnot
    obtain ⟨start, hstart, hreaches⟩ := h.exists_reaches hlt
    obtain rfl | hother := List.mem_cons.1 hstart
    · exact absurd hreaches hnot
    · exact ⟨start, hother, hreaches⟩
  · rintro ⟨other, hother, hreaches⟩ hroot
    obtain rfl := h.root_unique List.mem_cons_self (List.mem_cons_of_mem root hother) hroot hreaches
    exact (List.nodup_cons.1 h.nodup_roots).1 hother

end Forest

end Lox
