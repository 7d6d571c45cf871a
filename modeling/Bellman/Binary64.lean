import Bellman.Rounding

/-!
# Double precision numbers

A double is a signed whole multiple of a power of two, an infinity, or not a number at
all. The significand has at most 53 binary places and the exponent lies between −1074
and 971; of several ways to write a number, the one with the smallest exponent is kept.

Every operation computes exactly and then rounds once to the nearest double, to the even
one when two are equally near, so the meaning of a result is the rounding of a rational
number. The two zeros are told apart, and only by their sign.
-/

namespace Bellman

/-- The form with the smallest exponent: the significand has all its 53 places unless the
exponent is the least one. Every finite double has exactly one such form, so doubles are
equal when their forms are. -/
def Binary64.Canonical (significand : Nat) (exponent : Int) : Prop :=
  significand < 1 <<< 53 ∧ -1074 ≤ exponent ∧ exponent ≤ 971 ∧
    (1 <<< 52 ≤ significand ∨ exponent = -1074)

instance (significand : Nat) (exponent : Int) :
    Decidable (Binary64.Canonical significand exponent) := by
  unfold Binary64.Canonical; infer_instance

/-- A double precision number. What is not a number is a single value, since no operation
tells two of them apart. -/
inductive Binary64 where
  | nan
  | infinity (negative : Bool)
  | finite (negative : Bool) (significand : Nat) (exponent : Int)
      (canonical : Binary64.Canonical significand exponent)
deriving DecidableEq, Repr

namespace Binary64

def signedZero (negative : Bool) : Binary64 :=
  .finite negative 0 (-1074) (by decide)

instance : Zero Binary64 := ⟨signedZero false⟩

instance : Inhabited Binary64 := ⟨0⟩

/-- The rational number that a double stands for. Infinities and what is not a number get
zero, so a statement about this number also says `isFinite`. -/
def toRat : Binary64 → Rat
  | .finite negative m e _ =>
      if negative then -((m : Rat) * (2 : Rat) ^ e) else (m : Rat) * (2 : Rat) ^ e
  | _ => 0

/-- The sign bit, which a zero has too. -/
def isNegative : Binary64 → Bool
  | .nan => false
  | .infinity negative => negative
  | .finite negative _ _ _ => negative

def isFinite : Binary64 → Bool
  | .finite .. => true
  | _ => false

def isNaN : Binary64 → Bool
  | .nan => true
  | _ => false

def isZero : Binary64 → Bool
  | .finite _ m _ _ => m == 0
  | _ => false

/-- The double nearest to a magnitude, under a sign. The significand is rounded on the grid
of the magnitude's own exponent, which is not finer than that of the smallest double.
Rounding up may give one place too many, and then half the significand with the next
exponent is exact. Beyond the largest exponent the result is infinite. -/
def round (negative : Bool) (magnitude : Rat) : Binary64 :=
  if magnitude = 0 then signedZero negative
  else
    let e := max (-1074) (Rounding.binaryExponent magnitude - 52)
    let m := (Rounding.halfEven (magnitude * (2 : Rat) ^ (-e))).toNat
    if h : Canonical m e then .finite negative m e h
    else if h : Canonical (m / 2) (e + 1) then .finite negative (m / 2) (e + 1) h
    else .infinity negative

/-- The double nearest to a rational number. Zero has no sign, so it gives the positive
zero. -/
def ofRat (q : Rat) : Binary64 :=
  round (decide (q < 0)) q.abs

def ofInt (n : Int) : Binary64 :=
  ofRat n

instance : One Binary64 := ⟨ofInt 1⟩

protected def neg : Binary64 → Binary64
  | .nan => .nan
  | .infinity negative => .infinity !negative
  | .finite negative m e h => .finite (!negative) m e h

instance : Neg Binary64 := ⟨Binary64.neg⟩

def abs : Binary64 → Binary64
  | .nan => .nan
  | .infinity _ => .infinity false
  | .finite _ m e h => .finite false m e h

/-- A sum of doubles. A sum that is exactly zero is negative only if both parts are, which
the sum of the rational numbers cannot tell. -/
protected def add : Binary64 → Binary64 → Binary64
  | .nan, _ => .nan
  | _, .nan => .nan
  | .infinity s, .infinity t => if s == t then .infinity s else .nan
  | .infinity s, _ => .infinity s
  | _, .infinity t => .infinity t
  | x@(.finite s _ _ _), y@(.finite t _ _ _) =>
      let q := x.toRat + y.toRat
      if q = 0 then signedZero (s && t) else ofRat q

instance : Add Binary64 := ⟨Binary64.add⟩

instance : Sub Binary64 := ⟨fun x y => x + -y⟩

protected def mul : Binary64 → Binary64 → Binary64
  | .nan, _ => .nan
  | _, .nan => .nan
  | .infinity s, y => if y.isZero then .nan else .infinity (s ^^ y.isNegative)
  | x, .infinity t => if x.isZero then .nan else .infinity (x.isNegative ^^ t)
  | x@(.finite s _ _ _), y@(.finite t _ _ _) => round (s ^^ t) (x.toRat * y.toRat).abs

instance : Mul Binary64 := ⟨Binary64.mul⟩

protected def div : Binary64 → Binary64 → Binary64
  | .nan, _ => .nan
  | _, .nan => .nan
  | .infinity _, .infinity _ => .nan
  | .infinity s, y => .infinity (s ^^ y.isNegative)
  | x, .infinity t => signedZero (x.isNegative ^^ t)
  | x@(.finite s _ _ _), y@(.finite t _ _ _) =>
      if y.isZero then
        if x.isZero then .nan else .infinity (s ^^ t)
      else round (s ^^ t) (x.toRat / y.toRat).abs

instance : Div Binary64 := ⟨Binary64.div⟩

/-- The order of doubles. The two zeros are equal, and what is not a number is neither
below nor above anything. -/
def lt : Binary64 → Binary64 → Bool
  | .nan, _ => false
  | _, .nan => false
  | .infinity s, .infinity t => s && !t
  | .infinity s, _ => s
  | _, .infinity t => !t
  | x, y => decide (x.toRat < y.toRat)

@[simp] theorem toRat_signedZero (s : Bool) : (signedZero s).toRat = 0 := by
  have h (t : Rat) : ((0 : Nat) : Rat) * t = 0 := Rat.zero_mul t
  cases s
  · exact h _
  · exact (congrArg Neg.neg (h _)).trans Rat.neg_zero

@[simp] theorem isFinite_abs (x : Binary64) : x.abs.isFinite = x.isFinite := by
  cases x <;> rfl

@[simp] theorem round_zero (s : Bool) : round s 0 = signedZero s := by
  simp [round]

end Binary64

end Bellman
