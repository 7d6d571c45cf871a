/-!
# Classes of characters given by their bounds

A class of characters is written as the increasing list of the code points at which
membership changes, beginning outside the class. A character belongs to the class
exactly when the number of bounds at or below its code point is odd.
-/

namespace Bellman.Text

/-- The code points at which a class of characters begins and ends, in turn. -/
structure CodeBounds where
  bounds : List Nat

def CodeBounds.contains (k : CodeBounds) (c : Char) : Bool :=
  k.bounds.countP (· ≤ c.toNat) % 2 == 1

end Bellman.Text
