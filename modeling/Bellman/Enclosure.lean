import Bellman.Rounding

/-!
# Enclosures of real numbers

An enclosure is a pair of rational bounds. Exponentials, logarithms and π are enclosed
by partial sums of their series with a bound on the rest; after each operation the bounds
are moved outward to a multiple of a power of two, so that they stay short. More places
give tighter bounds.
-/

namespace Bellman

/-- Bounds of a real number. They are rational, so whether they have a sign or a whole part
in common is decided exactly. -/
structure Enclosure where
  lower : Rat
  upper : Rat

namespace Enclosure

def lesser (x y : Rat) : Rat :=
  if x ≤ y then x else y

def greater (x y : Rat) : Rat :=
  if x ≤ y then y else x

def ofRat (q : Rat) : Enclosure :=
  ⟨q, q⟩

/-- The bounds moved outward to `places` binary places after the point. A product has as
many places as both factors, and this keeps bounds short at the cost of one unit of the
last place. -/
def widen (places : Nat) (x : Enclosure) : Enclosure :=
  let unit : Rat := (2 : Rat) ^ (places : Int)
  ⟨(x.lower * unit).floor / unit, (x.upper * unit).ceil / unit⟩

def neg (x : Enclosure) : Enclosure :=
  ⟨-x.upper, -x.lower⟩

def add (x y : Enclosure) : Enclosure :=
  ⟨x.lower + y.lower, x.upper + y.upper⟩

/-- The product, whose bounds are among the products of the bounds. -/
def mul (x y : Enclosure) : Enclosure :=
  let a := x.lower * y.lower
  let b := x.lower * y.upper
  let c := x.upper * y.lower
  let d := x.upper * y.upper
  ⟨lesser (lesser a b) (lesser c d), greater (greater a b) (greater c d)⟩

def scale (q : Rat) (x : Enclosure) : Enclosure :=
  (ofRat q).mul x

def enlarge (amount : Rat) (x : Enclosure) : Enclosure :=
  ⟨x.lower - amount, x.upper + amount⟩

/-- The partial sum of the first `terms` terms of a series whose next term is got from a
term and its number. Term and sum are kept short at every step. -/
def partialSum (places : Nat) (next : Nat → Enclosure → Enclosure) :
    (terms : Nat) → (index : Nat) → (term sum : Enclosure) → Enclosure
  | 0, _, _, sum => sum
  | terms + 1, index, term, sum =>
      partialSum places next terms (index + 1) ((next index term).widen places)
        ((sum.add term).widen places)

/-- The exponential of a number of magnitude at most one half, by its power series. The
terms that are left out together stay below the last place, which is added on both
sides. -/
def expSmall (places : Nat) (x : Enclosure) : Enclosure :=
  (partialSum places (fun i t => (t.mul x).scale (1 / (i + 1 : Nat))) (places / 4 + 16) 0
    (ofRat 1) (ofRat 0)).enlarge ((2 : Rat) ^ (-(places : Int)))

/-- A number squared again and again, which undoes the halving of an exponent. -/
def squareTimes (places : Nat) : Nat → Enclosure → Enclosure
  | 0, x => x
  | n + 1, x => squareTimes places n ((x.mul x).widen places)

/-- The exponential of a rational number: of a small fraction of it, squared again and
again. A squaring may double the relative error, so there is a place more for each of
them. -/
def expRat (places : Nat) (q : Rat) : Enclosure :=
  let halvings := q.abs.ceil.toNat.log2 + 2
  let work := places + halvings + 8
  let x := (ofRat (q / (2 : Rat) ^ (halvings : Int))).widen work
  squareTimes work halvings (expSmall work x)

/-- The exponential. It is increasing, so the bounds of an argument give those of the
result. -/
def exp (places : Nat) (x : Enclosure) : Enclosure :=
  ⟨(expRat places x.lower).lower, (expRat places x.upper).upper⟩

/-- The inverse hyperbolic tangent of a number between zero and one third, by its power
series. -/
def artanh (places : Nat) (q : Rat) : Enclosure :=
  let z := (ofRat q).widen (places + 8)
  let square := (z.mul z).widen (places + 8)
  let step := fun (i : Nat) (t : Enclosure) =>
    (t.mul square).scale (((2 * i + 1 : Nat) : Rat) / ((2 * i + 3 : Nat) : Rat))
  (partialSum (places + 8) step (places / 3 + 8) 0 z (ofRat 0)).enlarge
    ((2 : Rat) ^ (-(places : Int)))

/-- The natural logarithm of a positive rational number: a multiple of that of two, and the
logarithm of a number between one and two. Both are inverse hyperbolic tangents of numbers
up to one third, whose series converge quickly. -/
def logRat (places : Nat) (q : Rat) : Enclosure :=
  let k := Rounding.binaryExponent q
  let m := q / (2 : Rat) ^ k
  let work := places + k.natAbs.log2 + 4
  ((artanh work ((m - 1) / (m + 1))).scale 2).add ((artanh work (1 / 3)).scale (2 * k))

/-- The natural logarithm of a positive number, which is increasing. -/
def log? (places : Nat) (x : Enclosure) : Option Enclosure :=
  if 0 < x.lower then some ⟨(logRat places x.lower).lower, (logRat places x.upper).upper⟩
  else none

/-- The arctangent of a number between zero and one fifth, by its power series. -/
def arctan (places : Nat) (q : Rat) : Enclosure :=
  let z := (ofRat q).widen (places + 8)
  let square := (z.mul z).widen (places + 8)
  let step := fun (i : Nat) (t : Enclosure) =>
    (t.mul square).scale (-((2 * i + 1 : Nat) : Rat) / ((2 * i + 3 : Nat) : Rat))
  (partialSum (places + 8) step (places / 4 + 8) 0 z (ofRat 0)).enlarge
    ((2 : Rat) ^ (-(places : Int)))

/-- π as sixteen arctangents of 1/5 less four of 1/239, so that no series is needed near
its radius of convergence. -/
def pi (places : Nat) : Enclosure :=
  ((arctan (places + 8) (1 / 5)).scale 16).add ((arctan (places + 8) (1 / 239)).scale (-4))

/-- The logarithm of a power of a positive number. -/
def logPower? (places : Nat) (base exponent : Enclosure) : Option Enclosure :=
  (base.log? places).map fun l => (exponent.mul l).widen places

/-- Both bounds have one sign and agree to `bits` significant binary places, so the middle
between them may stand for the number. -/
def isTight (bits : Nat) (x : Enclosure) : Bool :=
  (decide (0 < x.lower) || decide (x.upper < 0)) &&
    decide ((x.upper - x.lower) * (2 : Rat) ^ (bits : Int) ≤ lesser x.lower.abs x.upper.abs)

def middle (x : Enclosure) : Rat :=
  (x.lower + x.upper) / 2

/-- The numbers of places that are tried, one after another, until bounds are tight enough.
Bounds of two equal numbers never come apart, so the search has to end somewhere. -/
def placesTried : List Nat :=
  [128, 256, 512, 1024, 2048]

/-- A number from the first bounds that are tight, or else from the last bounds there are.
A zero that is not recognised as one is found in the second way. -/
def approximate? (bits : Nat) (bounds : Nat → Option Enclosure) : Option Rat :=
  let tight := placesTried.findSome? fun places =>
    (bounds places).bind fun x => if x.isTight bits then some x.middle else none
  tight <|> (placesTried.getLast?.bind bounds).map middle

end Enclosure

end Bellman
