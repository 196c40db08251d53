import Lox.Proofs.Syntax.Phrase
import Mathlib.Order.MinMax

/-!
# How high expressions get

The height of a tree is how deep a recursion along its operands goes. Three things make a tree
higher: opening a level, turning to a right operand, and going on along a spine, which leads from a
node to its left operand or to its callee. Levels are bounded by the grammar, and a right operand
holds together tighter than its operator, so there are at most six turns in a row before the next
level. Nothing bounds a spine: a sum gets higher with each summand, and no level is opened for any.

So the height of a tree in which so many levels are open exceeds its longest spine by a factor at
most.
-/

namespace Lox

namespace Tree

mutual

/-- The length of the longest chain of links from a node to one of its operands. -/
def height : Tree → Nat
  | literal _ | var _ => 0
  | group inner => inner.height + 1
  | unary _ operand _ => operand.height + 1
  | binary _ left right _ | logical _ left right => max left.height right.height + 1
  | assign _ value => value.height + 1
  | call callee arguments _ => max callee.height (argumentHeight arguments) + 1

def argumentHeight : List Tree → Nat
  | [] => 0
  | argument :: rest => max argument.height (argumentHeight rest)

end

/-- The number of links from the root to left operands and callees in a row. -/
def spine : Tree → Nat
  | binary _ left _ _ | logical _ left _ => left.spine + 1
  | call callee _ _ => callee.spine + 1
  | literal _ | var _ | group _ | unary .. | assign .. => 0

mutual

/-- The longest spine of any part. -/
def longestSpine : Tree → Nat
  | literal _ | var _ => 0
  | group inner => inner.longestSpine
  | unary _ operand _ => operand.longestSpine
  | binary _ left right _ | logical _ left right =>
    max (left.spine + 1) (max left.longestSpine right.longestSpine)
  | assign _ value => value.longestSpine
  | call callee arguments _ =>
    max (callee.spine + 1) (max callee.longestSpine (longestArgumentSpine arguments))

def longestArgumentSpine : List Tree → Nat
  | [] => 0
  | argument :: rest => max argument.longestSpine (longestArgumentSpine rest)

end

theorem spine_le_longestSpine (tree : Tree) : tree.spine ≤ tree.longestSpine := by
  cases tree with
  | binary _ left right _ | logical _ left right => exact Nat.le_max_left _ _
  | call callee _ _ => exact Nat.le_max_left _ _
  | _ => exact Nat.zero_le _

theorem spine_le_height : (tree : Tree) → tree.spine ≤ tree.height
  | literal _ | var _ | group _ | unary .. | assign .. => Nat.zero_le _
  | binary _ left _ _ | logical _ left _ => by
    have := spine_le_height left
    simp only [spine, height]
    omega
  | call callee _ _ => by
    have := spine_le_height callee
    simp only [spine, height]
    omega

mutual

theorem longestSpine_le_height : (tree : Tree) → tree.longestSpine ≤ tree.height
  | literal _ | var _ => Nat.le_refl _
  | group inner => Nat.le_succ_of_le (longestSpine_le_height inner)
  | unary _ operand _ => Nat.le_succ_of_le (longestSpine_le_height operand)
  | assign _ value => Nat.le_succ_of_le (longestSpine_le_height value)
  | binary _ left right _ | logical _ left right => by
    have hspine := spine_le_height left
    have hleft := longestSpine_le_height left
    have hright := longestSpine_le_height right
    simp only [longestSpine, height]
    omega
  | call callee arguments _ => by
    have hspine := spine_le_height callee
    have hcallee := longestSpine_le_height callee
    have harguments := longestArgumentSpine_le_argumentHeight arguments
    simp only [longestSpine, height]
    omega

theorem longestArgumentSpine_le_argumentHeight : (arguments : List Tree) →
    longestArgumentSpine arguments ≤ argumentHeight arguments
  | [] => Nat.le_refl _
  | argument :: rest => by
    have hargument := longestSpine_le_height argument
    have hrest := longestArgumentSpine_le_argumentHeight rest
    simp only [longestArgumentSpine, argumentHeight]
    omega

end

/-! ### Spines in a row -/

/-- How many more spines a chain of links can turn to from a place on the ladder with so many levels
to come: one for each tighter place that right operands go through, and seven for each level. -/
def turns (place depth : Nat) : Nat :=
  6 - (place - 1) + 7 * depth

section
variable {place tighter depth deeper : Nat}

theorem turns_le (hplace : place ≤ tighter) (hdepth : depth ≤ deeper) :
    turns tighter depth ≤ turns place deeper := by
  simp only [turns]
  omega

theorem turns_lt_of_place_lt (hpos : 0 < place) (hle : place ≤ 6) (hplace : place < tighter)
    (hdepth : depth ≤ deeper) : turns tighter depth < turns place deeper := by
  simp only [turns]
  omega

theorem turns_lt_of_depth_lt (hdepth : depth < deeper) :
    turns tighter depth < turns place deeper := by
  simp only [turns]
  omega

end

section
variable {tree : Tree} {inner outer bound : Nat}
  (h : tree.height ≤ tree.spine + inner * (bound + 1))
include h

/-- The chain goes on along the same spine. -/
theorem height_along (hturns : inner ≤ outer) :
    tree.height + 1 ≤ tree.spine + 1 + outer * (bound + 1) := by
  have hmore := Nat.mul_le_mul_right (bound + 1) hturns
  omega

/-- The chain turns to another spine. -/
theorem height_turn (hspines : tree.longestSpine ≤ bound) (hturns : inner < outer) :
    tree.height + 1 ≤ outer * (bound + 1) := by
  have hspine := Nat.le_trans tree.spine_le_longestSpine hspines
  have hmore := Nat.mul_le_mul_right (bound + 1) (Nat.succ_le_of_lt hturns)
  rw [Nat.succ_mul] at hmore
  omega

end

/-- From an operator the chain goes on along its left operand or turns to its right one. -/
theorem height_operands {place bound : Nat} {left right : Tree} (hpos : 0 < place) (hle : place ≤ 6)
    (hleft : left.height ≤ left.spine + turns left.place left.depth * (bound + 1))
    (hright : right.height ≤ right.spine + turns right.place right.depth * (bound + 1))
    (hfirst : place ≤ left.place) (hsecond : place < right.place)
    (hspines : right.longestSpine ≤ bound) :
    max left.height right.height + 1 ≤
      left.spine + 1 + turns place (max left.depth right.depth) * (bound + 1) := by
  have halong := height_along hleft (turns_le hfirst (Nat.le_max_left _ right.depth))
  have hturn := height_turn hright hspines
    (turns_lt_of_place_lt hpos hle hsecond (Nat.le_max_right left.depth _))
  omega

mutual

/-- A chain of links is no longer than the spines on it with the turns between them. -/
theorem height_le {bound : Nat} : (tree : Tree) → tree.Ordered → tree.longestSpine ≤ bound →
    tree.height ≤ tree.spine + turns tree.place tree.depth * (bound + 1)
  | literal _, _, _ | var _, _, _ => Nat.zero_le _
  | group inner, hordered, hspines => by
    have hinner := height_le inner hordered hspines
    rw [height, spine, Nat.zero_add]
    exact height_turn hinner hspines (turns_lt_of_depth_lt (Nat.lt_succ_self _))
  | unary _ operand _, ⟨_, hordered⟩, hspines => by
    have hoperand := height_le operand hordered hspines
    rw [height, spine, Nat.zero_add]
    exact height_turn hoperand hspines (turns_lt_of_depth_lt (Nat.lt_succ_self _))
  | assign _ value, hordered, hspines => by
    have hvalue := height_le value hordered hspines
    rw [height, spine, Nat.zero_add]
    exact height_turn hvalue hspines (turns_lt_of_depth_lt (Nat.lt_succ_self _))
  | binary operator left right _, ⟨hfirst, hsecond, hleft, hright⟩, hspines => by
    obtain ⟨-, hspines⟩ := Nat.max_le.1 hspines
    obtain ⟨hleftSpines, hrightSpines⟩ := Nat.max_le.1 hspines
    exact height_operands (Connective.binary operator).place_pos (Connective.binary operator).place_le
      (height_le left hleft hleftSpines) (height_le right hright hrightSpines) hfirst hsecond
      hrightSpines
  | logical operator left right, ⟨hfirst, hsecond, hleft, hright⟩, hspines => by
    obtain ⟨-, hspines⟩ := Nat.max_le.1 hspines
    obtain ⟨hleftSpines, hrightSpines⟩ := Nat.max_le.1 hspines
    exact height_operands (Connective.logical operator).place_pos (Connective.logical operator).place_le
      (height_le left hleft hleftSpines) (height_le right hright hrightSpines) hfirst hsecond
      hrightSpines
  | call callee arguments _, ⟨hplace, hcallee, hall⟩, hspines => by
    obtain ⟨-, hspines⟩ := Nat.max_le.1 hspines
    obtain ⟨hcalleeSpines, hargumentSpines⟩ := Nat.max_le.1 hspines
    have halong := height_along (height_le callee hcallee hcalleeSpines)
      (turns_le hplace (Nat.le_max_left _ (argumentDepth arguments)))
    have harguments := argumentHeight_le arguments hall hargumentSpines
    have hmore := Nat.mul_le_mul_right (bound + 1)
      (turns_le (Nat.le_refl 8) (Nat.le_max_right callee.depth (argumentDepth arguments)))
    simp only [height, spine, place, depth]
    omega

theorem argumentHeight_le {bound : Nat} : (arguments : List Tree) → AllOrdered arguments →
    longestArgumentSpine arguments ≤ bound →
    argumentHeight arguments ≤ turns 8 (argumentDepth arguments) * (bound + 1)
  | [], _, _ => Nat.zero_le _
  | argument :: rest, ⟨hordered, hall⟩, hspines => by
    obtain ⟨hargumentSpines, hrestSpines⟩ := Nat.max_le.1 hspines
    have hlt : turns argument.place argument.depth < turns 8 (argumentDepth (argument :: rest)) :=
      turns_lt_of_depth_lt (Nat.le_max_left _ _)
    have hturn := height_turn (height_le argument hordered hargumentSpines) hargumentSpines hlt
    have hrest := argumentHeight_le rest hall hrestSpines
    have hmore := Nat.mul_le_mul_right (bound + 1)
      (turns_le (Nat.le_refl 8) (Nat.le_max_right (argument.depth + 1) (argumentDepth rest)))
    simp only [argumentHeight, argumentDepth] at hturn ⊢
    omega

end

/-- Where so many levels are free, the height exceeds the longest spine by a factor at most. -/
theorem height_lt {levels : Nat} {tree : Tree} (hordered : tree.Ordered)
    (hdepth : tree.depth < levels) : tree.height < 7 * levels * (tree.longestSpine + 1) := by
  have hheight := height_le tree hordered (Nat.le_refl _)
  have hspine := tree.spine_le_longestSpine
  have hturns : turns tree.place tree.depth + 1 ≤ 7 * levels := by
    simp only [turns]
    omega
  have hall := Nat.mul_le_mul_right (tree.longestSpine + 1) hturns
  rw [Nat.succ_mul] at hall
  omega

end Tree

namespace Phrase

/-- What the tree of an ordered phrase is like, errors or not. -/
structure Admits (phrase : Phrase) : Prop where
  ordered : phrase.tree.Ordered
  place_le : phrase.place ≤ phrase.tree.place
  depth_le : phrase.tree.depth ≤ phrase.depth

mutual

/-- What an `=` leaves behind of a phrase that is no variable is the tree of its target. -/
theorem admits : (phrase : Phrase) → phrase.Ordered → phrase.Admits
  | literal .., _ | var _, _ => ⟨trivial, Nat.le_refl _, Nat.le_refl _⟩
  | group _ inner _, hordered => by
    have h := admits inner hordered
    exact ⟨h.ordered, Nat.le_refl _, Nat.succ_le_succ h.depth_le⟩
  | unary _ _ _ operand, ⟨hplace, hordered⟩ => by
    have h := admits operand hordered
    exact ⟨⟨Nat.le_trans hplace h.place_le, h.ordered⟩, Nat.le_refl _, Nat.succ_le_succ h.depth_le⟩
  | infixed left _ connective _ right, ⟨hfirst, hsecond, hleft, hright⟩ => by
    have hl := admits left hleft
    have hr := admits right hright
    have hfirst := Nat.le_trans hfirst hl.place_le
    have hsecond := Nat.lt_of_lt_of_le hsecond hr.place_le
    have hdepth : max left.tree.depth right.tree.depth ≤ max left.depth right.depth :=
      max_le_max hl.depth_le hr.depth_le
    cases connective with
    | binary _ | logical _ =>
      exact ⟨⟨hfirst, hsecond, hl.ordered, hr.ordered⟩, Nat.le_refl _, hdepth⟩
  | assign _ _ value, hordered => by
    have h := admits value hordered
    exact ⟨h.ordered, Nat.le_refl _, Nat.succ_le_succ h.depth_le⟩
  | stray target _ _, ⟨_, _, htarget, _⟩ => by
    have h := admits target htarget
    exact ⟨h.ordered, Nat.zero_le _, Nat.le_trans h.depth_le (Nat.le_max_left _ _)⟩
  | call callee _ arguments _ _, ⟨hplace, hcallee, _, hall⟩ => by
    have hc := admits callee hcallee
    obtain ⟨hordered, hdepth⟩ := allAdmit arguments hall
    exact ⟨⟨Nat.le_trans hplace hc.place_le, hc.ordered, hordered⟩, Nat.le_refl _,
      max_le_max hc.depth_le hdepth⟩

theorem allAdmit : (phrases : List Phrase) → AllOrdered phrases →
    Tree.AllOrdered (trees phrases) ∧ Tree.argumentDepth (trees phrases) ≤ argumentDepth phrases
  | [], _ => ⟨trivial, Nat.le_refl _⟩
  | phrase :: rest, ⟨hordered, hall⟩ => by
    have h := admits phrase hordered
    obtain ⟨hrest, hdepth⟩ := allAdmit rest hall
    exact ⟨⟨h.ordered, hrest⟩, max_le_max (Nat.succ_le_succ h.depth_le) hdepth⟩

end

end Phrase

end Lox
