import Bellman.Binary64
import Bellman.Decimal.Fixed
import Bellman.Decimal.Scientific

/-!
# Numbers as they are shown

A number within 10⁻¹² of a whole number is shown as that whole number. Any other is
rounded to some decimal places, ten unless another number is asked for, and loses the
zeros at its end and then the points. An infinity and what is not a number cannot be
shown, and neither can a broken number with fewer than no places.
-/

namespace Bellman.Display

/-- Why a number cannot be shown. -/
inductive Unshowable where
  /-- It is infinite. -/
  | infinite
  /-- It is not a number. -/
  | notANumber
  /-- The number of places is negative. -/
  | negativePlaces
deriving DecidableEq, Repr

/-- Numbers nearer than this to a whole number are shown as that number, so that a value
which is whole but for errors of rounding looks whole. -/
def wholeTolerance : Binary64 :=
  Binary64.ofRat ((10 : Rat) ^ (-12 : Int))

def defaultPlaces : Int := 10

def whole (n : Int) : List Char :=
  if n < 0 then '-' :: Nat.toDigits 10 n.natAbs else Nat.toDigits 10 n.natAbs

/-- A text without the points at its end. -/
def dropTrailingPoints (cs : List Char) : List Char :=
  (cs.reverse.dropWhile (· == '.')).reverse

/-- A number as it is shown. It is compared with the nearest whole number before the places
are looked at, so a whole number is shown whatever they are. Zeros are dropped from the end
of the text even if no point stands before them. -/
def number (x : Binary64) (places : Int := defaultPlaces) : Except Unshowable String :=
  match x with
  | .nan => .error .notANumber
  | .infinity _ => .error .infinite
  | .finite negative _ _ _ =>
      let n := Rounding.halfEven x.toRat
      if (x.toRat - n).abs < wholeTolerance.toRat then .ok (String.ofList (whole n))
      else if places < 0 then .error .negativePlaces
      else
        .ok (String.ofList (dropTrailingPoints (Decimal.dropTrailingZeros
          (Decimal.fixed places.toNat negative x.toRat.abs))))

def bracketed (items : List String) : String :=
  "[" ++ ", ".intercalate items ++ "]"

def vector (xs : List Binary64) : Except Unshowable String :=
  (xs.mapM number).map bracketed

def matrix (rows : List (List Binary64)) : Except Unshowable String :=
  (rows.mapM vector).map bracketed

end Bellman.Display
