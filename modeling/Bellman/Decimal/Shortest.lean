import Bellman.Binary64
import Bellman.Decimal.Scientific

/-!
# Shortest decimal text of a double

The text of a double has the fewest significant digits that read back as the same
double, and of the numbers with that many digits the one nearest to it. Seventeen digits
always suffice. For each count of digits only the two neighbours of the double on that
decimal grid can be wanted, so these are tried, the nearer first.
-/

namespace Bellman.Decimal

/-- A number of the decimal grid with `count` digits that reads back as `x`. The two
neighbours of `x` on the grid are enough: what lies behind one of them reads back as `x`
only if that one does too. The nearer neighbour comes first. -/
def ofDigitCount? (x : Binary64) (count : Nat) : Option Scientific :=
  let q := x.toRat.abs
  let scale := Rounding.decimalExponent q - count + 1
  let below := (q / (10 : Rat) ^ scale).floor
  let nearer := Rounding.halfEven (q / (10 : Rat) ^ scale)
  let farther := if nearer = below then below + 1 else below
  ([nearer, farther].find? fun n : Int =>
      Binary64.ofRat ((n : Rat) * (10 : Rat) ^ scale) == x.abs).map
    fun n => .ofScaled n.toNat scale

/-- The fewest digits that read back as a nonzero finite double. Seventeen always do, so
the empty digits behind the search are never given. -/
def shortest (x : Binary64) : Scientific :=
  (((List.range 17).map (· + 1)).findSome? (ofDigitCount? x)).getD ⟨[], 0⟩

/-- Full precision: plain below ten to the sixteenth, and always with a point. -/
def fullLayout : Layout :=
  { plainFrom := -4, plainBelow := 16, wholeAsFraction := true }

def shortestText : Binary64 → String
  | .nan => "nan"
  | .infinity negative => if negative then "-inf" else "inf"
  | x =>
      let magnitude := if x.isZero then ['0', '.', '0'] else (shortest x).write fullLayout
      String.ofList (if x.isNegative then '-' :: magnitude else magnitude)

end Bellman.Decimal
