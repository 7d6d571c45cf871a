import Bellman.Binary64
import Bellman.Numeral.ClosedForm
import Bellman.Numeral.Magnitude

/-!
# Values

The value of a numeral is a rational number, a closed form that is none, the infinite
number that division by zero gives, or undefined. Arithmetic is exact, and on rational
numbers it is their own. A real value is rounded to a double at the end: to 53 binary
places, and where the double has fewer, once more.
-/

namespace Bellman.Numeral

/-- The value of a numeral. -/
inductive Value where
  | rational (q : Rat)
  | closed (s : ClosedForm)
  | infinite
  | undefined

namespace Value

def ofClosed (s : ClosedForm) : Value :=
  match s.rational? with
  | some q => .rational q
  | none => .closed s

/-- A value as a closed form. What is infinite or undefined is an unknown there, so that it
can stand in the argument of a function. -/
def toClosed : Value → ClosedForm
  | .rational q => .ofRat q
  | .closed s => s
  | .infinite | .undefined => .unknown .infinite []

def rational? : Value → Option Rat
  | .rational q => some q
  | _ => none

def knowledge : Value → Knowledge
  | .rational _ => ⟨false, true, true⟩
  | .closed s => s.knowledge
  | .infinite | .undefined => ⟨false, false, false⟩

def isZero : Value → Bool
  | .rational q => q == 0
  | _ => false

def add : Value → Value → Value
  | .rational a, .rational b => .rational (a + b)
  | .undefined, _ => .undefined
  | _, .undefined => .undefined
  | .infinite, .infinite => .undefined
  | .infinite, _ => .infinite
  | _, .infinite => .infinite
  | a, b => ofClosed (a.toClosed.add b.toClosed)

def mul : Value → Value → Value
  | .rational a, .rational b => .rational (a * b)
  | .undefined, _ => .undefined
  | _, .undefined => .undefined
  | .infinite, b => if b.isZero then .undefined else .infinite
  | a, .infinite => if a.isZero then .undefined else .infinite
  | a, b => ofClosed (a.toClosed.mul b.toClosed)

def neg (a : Value) : Value :=
  mul (.rational (-1)) a

/-- The sign of a real closed exponent decides a power of zero. -/
def zeroPow : Value → Value
  | .rational e => if e = 0 then .rational 1 else if e < 0 then .infinite else .rational 0
  | .closed s =>
      if s.knowledge.isReal then (if s.isNegative then .infinite else .rational 0)
      else .undefined
  | .infinite | .undefined => .undefined

def powRat (b : Rat) (e : Rat) : Value :=
  if e.den = 1 then .rational (ClosedForm.wholePow b e.num)
  else ofClosed (.pow (.ofRat b) (.ofRat e))

def pow : Value → Value → Value
  | .rational b, .rational e => if b = 0 then zeroPow (.rational e) else powRat b e
  | .undefined, e => if e.isZero then .rational 1 else .undefined
  | _, .undefined => .undefined
  | _, .infinite => .undefined
  | .infinite, .rational e =>
      if e = 0 then .rational 1 else if e < 0 then .rational 0 else .infinite
  | .infinite, .closed _ => .undefined
  | b, e =>
      if b.isZero then zeroPow e
      else if b.rational? = some 1 then b
      else ofClosed (b.toClosed.pow e.toClosed)

def div (a b : Value) : Value :=
  mul a (pow b (.rational (-1)))

/-- The largest whole number not above a value. That of a closed form is known as soon as
both of its bounds have the same one, and else the form is kept as an unknown. -/
def floor : Value → Value
  | .rational q => .rational q.floor
  | .infinite => .infinite
  | .undefined => .undefined
  | .closed s =>
      let bound := Enclosure.placesTried.findSome? fun places =>
        (s.read (enclosureReading places)).bind fun x =>
          if x.lower.floor = x.upper.floor then some x.lower.floor else none
      match bound with
      | some n => .rational n
      | none => ofClosed (.unknown .floor [s])

/-- The quotient of two values as a whole number. It is the largest whole number not above
the exact quotient, with three exceptions for rational numbers: a whole number divided by
a fraction gives the whole part of the quotient, less one where it is negative; a
fraction other than one half loses its own part behind the point before it is divided by
a whole number; and such divisions by zero have no value. -/
def floorDiv : Value → Value → Option Value
  | .rational a, .rational b =>
      if a.den = 1 ∧ b.den ≠ 1 then
        let q := a / b
        let part := q.num.tdiv q.den
        some (.rational (if q < 0 then part - 1 else part : Int))
      else if b.den = 1 ∧ a ≠ 1 / 2 then
        if b = 0 then none else some (.rational ((a.num.tdiv a.den).fdiv b.num))
      else some (floor (div (.rational a) (.rational b)))
  | a, b => some (floor (div a b))

/-- The double of a rational number: rounded to 53 places and then to what doubles have.
For numbers below the smallest double with all places these are two roundings. -/
def roundRat (q : Rat) : Binary64 :=
  Binary64.round (decide (q < 0)) (Rounding.toSignificant 53 q).abs

/-- The double of a real closed form: the one to which close enough bounds both round. -/
def roundClosed (s : ClosedForm) : Binary64 :=
  (Enclosure.placesTried.findSome? fun places =>
    (s.read (enclosureReading places)).bind fun x =>
      if roundRat x.lower = roundRat x.upper then some (roundRat x.lower) else none).getD 0

/-- The double of a real value. -/
def toBinary64 : Value → Binary64
  | .rational q => roundRat q
  | .closed s => roundClosed s
  | .infinite | .undefined => .nan

def magnitudeBits : Nat := 64

/-- The logarithm to the base ten of a magnitude, if it can be told. That of a closed
form comes from its factors, which may be far too large or too small to be put together
first. -/
def commonLog? : Value → Option Rat
  | .rational q => some (Numeral.commonLog q.abs)
  | .closed s =>
      (Enclosure.approximate? magnitudeBits fun places => s.logMagnitude? places).map fun l =>
        l / (Enclosure.logRat 192 10).middle
  | .infinite | .undefined => none

/-- The magnitude of an exponent, if it can be told. -/
def magnitude? : Value → Option Rat
  | .rational q => some q.abs
  | .closed s =>
      Enclosure.approximate? magnitudeBits fun places =>
        (s.logMagnitude? places).map (Enclosure.exp places)
  | .infinite | .undefined => none

/-- About how many digits a power of a value other than zero has. Where a part cannot be
told there is nothing to go by, and none are counted. -/
def digitsOfPower (base exponent : Value) : Rat :=
  match base.commonLog?, exponent.magnitude? with
  | some l, some e => powerDigits l e
  | _, _ => 0

end Value

end Bellman.Numeral
