import Bellman.Rounding

/-!
# Fixed places

A number written with a fixed number of decimal places is the whole number that counts
units of the last place, with the point put in; without places there is no point.
-/

namespace Bellman.Decimal

/-- The digits of a whole number of units, with a point before the last `places` digits
and at least one digit before the point. -/
def pointed (places units : Nat) : List Char :=
  let ds := Nat.toDigits 10 units
  let padded := List.replicate (places + 1 - ds.length) '0' ++ ds
  let whole := padded.take (padded.length - places)
  if places = 0 then whole else whole ++ '.' :: padded.drop (padded.length - places)

/-- A magnitude under a sign, rounded to `places` decimal places. The sign is written even
if nothing but zeros is left of the magnitude. -/
def fixed (places : Nat) (negative : Bool) (magnitude : Rat) : List Char :=
  let units := (Rounding.halfEven (magnitude * (10 : Rat) ^ places)).toNat
  if negative then '-' :: pointed places units else pointed places units

end Bellman.Decimal
