/-!
# Rounding of exact numbers

Rounding goes to the nearest whole number, and a number halfway between two goes to the
even one. All other roundings are this one on another scale: `toSignificant` keeps a
number of binary places counted from the first one of the number itself.
-/

namespace Bellman.Rounding

/-- The nearest whole number. Halfway between two the even one is taken, so that the errors
of many roundings do not add up in one direction. -/
def halfEven (q : Rat) : Int :=
  let below := q.floor
  let part := q - below
  if part < 1 / 2 then below
  else if 1 / 2 < part then below + 1
  else if below % 2 = 0 then below
  else below + 1

/-- The exponent of the largest power of two that is not above a positive number. The
lengths of numerator and denominator give it up to one, and a comparison decides. -/
def binaryExponent (q : Rat) : Int :=
  let k : Int := (q.num.natAbs.log2 : Int) - (q.den.log2 : Int)
  if q < (2 : Rat) ^ k then k - 1 else k

def digitCount (n : Nat) : Nat :=
  (Nat.toDigits 10 n).length

/-- The same for powers of ten: the place of the first decimal digit. -/
def decimalExponent (q : Rat) : Int :=
  let k : Int := (digitCount q.num.natAbs : Int) - (digitCount q.den : Int)
  if q < (10 : Rat) ^ k then k - 1 else k

/-- The nearest multiple of `unit`. Rounding to a number of places is this with the last
place as the unit. -/
def toMultiple (unit q : Rat) : Rat :=
  halfEven (q / unit) * unit

/-- The nearest number with `places` significant binary places. Its exponent has no bound,
so this rounds a number before it is asked whether a double can hold it. -/
def toSignificant (places : Nat) (q : Rat) : Rat :=
  if q = 0 then 0
  else toMultiple ((2 : Rat) ^ (binaryExponent q.abs - places + 1)) q

@[simp] theorem halfEven_intCast (n : Int) : halfEven n = n := by
  have h : ((n : Rat) - ((n : Rat).floor : Rat)) = 0 := by
    rw [Rat.floor_intCast]; exact Rat.sub_self
  simp only [halfEven, h]
  rw [if_pos (by decide +kernel), Rat.floor_intCast]

end Bellman.Rounding
