import Bellman.Binary64
import Bellman.Decimal.Scientific

/-!
# Three significant digits

Small quantities in messages are shown with three significant digits, rounded from the
exact value of the double, and without zeros at the end.
-/

namespace Bellman.Decimal

def briefDigits : Nat := 3

/-- Plain only where three digits reach the point; a larger number would end in zeros that
are none of its digits. -/
def briefLayout : Layout :=
  { plainFrom := -4, plainBelow := 3, wholeAsFraction := false }

/-- A positive number rounded to three significant digits. -/
def brief (q : Rat) : Scientific :=
  let scale := Rounding.decimalExponent q - briefDigits + 1
  .ofScaled (Rounding.halfEven (q / (10 : Rat) ^ scale)).toNat scale

def briefText : Binary64 → String
  | .nan => "nan"
  | .infinity negative => if negative then "-inf" else "inf"
  | x =>
      let magnitude := if x.isZero then ['0'] else (brief x.toRat.abs).write briefLayout
      String.ofList (if x.isNegative then '-' :: magnitude else magnitude)

end Bellman.Decimal
