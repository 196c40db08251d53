/-!
# Sets of characters

A set of characters is kept as the ascending code points at which membership changes, the first of
them being the first member. A character belongs to the set exactly if an odd number of these
edges are at or before it.
-/

namespace Lox.Text

structure CharacterSet where
  edges : Array Nat

namespace CharacterSet

/-- Membership changes at every edge that is passed. -/
def contains (set : CharacterSet) (c : Char) : Bool :=
  set.edges.countP (· ≤ c.toNat) % 2 == 1

end CharacterSet

end Lox.Text
