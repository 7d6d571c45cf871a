import Bellman.Rounding

/-!
# Common logarithms

The binary places of the logarithm to the base ten of a number between one and ten come
out one by one: the number is squared, and the next place is one exactly when the square
reaches ten. The number is kept between two bounds of fixed length, and the process ends
when the bounds no longer agree on a place. The logarithm of a number near one is small, so
the nearer a number is to one, the more places are asked for.
-/

namespace Bellman.Numeral

/-- Binary places of a logarithm that have come out: `bits` in `count` places. -/
structure LogPlaces where
  bits : Nat
  count : Nat

/-- The next binary places of the logarithm of a number between `lower` and `upper`,
which count units of the last of `working` binary places. -/
def logPlaces (working : Nat) : (steps : Nat) → (lower upper : Nat) → LogPlaces → LogPlaces
  | 0, _, _, places => places
  | steps + 1, lower, upper, places =>
      let low := (lower * lower) >>> working
      let high := (upper * upper) >>> working + 1
      let ten := 10 <<< working
      if ten ≤ low then
        logPlaces working steps (low / 10) (high / 10 + 1) ⟨2 * places.bits + 1, places.count + 1⟩
      else if high ≤ ten then
        logPlaces working steps low high ⟨2 * places.bits, places.count + 1⟩
      else places

/-- The number of binary places after the point in which a number agrees with one. -/
def placesNearOne (q : Rat) : Nat :=
  (-Rounding.binaryExponent (q - 1).abs).toNat

def logarithmPlaces (q : Rat) : Nat :=
  200 + placesNearOne q

/-- The number of binary places kept of a number between one and ten, for so many places of
its logarithm. -/
def workingPlaces (steps : Nat) : Nat :=
  2 * steps + 64

/-- The logarithm to the base ten of a positive number: exact for the powers of ten, and
else the middle of the bounds that the places give. -/
def commonLog (q : Rat) : Rat :=
  let k := Rounding.decimalExponent q
  let x := q / (10 : Rat) ^ k
  if x = 1 then k
  else
    let steps := logarithmPlaces q
    let working := workingPlaces steps
    let lower := (x * (2 : Rat) ^ (working : Int)).floor.toNat
    let places := logPlaces working steps lower (lower + 1) ⟨0, 0⟩
    k + ((2 * places.bits + 1 : Nat) : Rat) / (2 : Rat) ^ ((places.count + 1 : Nat) : Int)

/-- The number of significant binary places that magnitudes are computed with. -/
def magnitudePlaces : Nat := 53

/-- About how many decimal digits a power has before its point, or zeros after it. The
logarithm, the exponent and their product are each rounded. -/
def powerDigits (logarithm exponent : Rat) : Rat :=
  (Rounding.toSignificant magnitudePlaces
    (Rounding.toSignificant magnitudePlaces exponent *
      Rounding.toSignificant magnitudePlaces logarithm)).abs

end Bellman.Numeral
