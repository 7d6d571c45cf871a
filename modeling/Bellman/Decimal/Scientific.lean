import Bellman.Rounding

/-!
# Decimal digits with an exponent

A positive number with finitely many decimal digits is its digits, without zeros at the
end, and the exponent of the first of them. How it is written depends on the exponent:
between two limits with a plain decimal point, and beyond them with an exponent of at
least two digits.
-/

namespace Bellman.Decimal

/-- Decimal digits; the point stands after the first digit, moved by the exponent. -/
structure Scientific where
  digits : List Char
  exponent : Int
deriving DecidableEq, Repr

def dropTrailingZeros (ds : List Char) : List Char :=
  (ds.reverse.dropWhile (· == '0')).reverse

/-- The number `n` times ten to the power `scale`. Zeros at its end are dropped, so numbers
of one value have one form. -/
def Scientific.ofScaled (n : Nat) (scale : Int) : Scientific :=
  let ds := Nat.toDigits 10 n
  { digits := dropTrailingZeros ds, exponent := scale + ((ds.length : Int) - 1) }

/-- The choices of a written form. Full and brief texts differ in nothing else, so one
function writes both. -/
structure Layout where
  /-- The least exponent that is written with a plain decimal point. -/
  plainFrom : Int
  /-- The least exponent above these. -/
  plainBelow : Int
  /-- Whole numbers get a zero after the point. -/
  wholeAsFraction : Bool

/-- The digits with a point at its place, and zeros where the digits do not reach it. -/
def Scientific.writePlain (wholeAsFraction : Bool) (s : Scientific) : List Char :=
  if s.exponent < 0 then
    '0' :: '.' :: List.replicate ((-s.exponent).toNat - 1) '0' ++ s.digits
  else
    let width := s.exponent.toNat + 1
    let whole := s.digits.take width ++ List.replicate (width - s.digits.length) '0'
    match s.digits.drop width with
    | [] => if wholeAsFraction then whole ++ ['.', '0'] else whole
    | part => whole ++ '.' :: part

/-- The digits with a point after the first one, and an exponent that always has a sign and
at least two digits. -/
def Scientific.writeExponent (s : Scientific) : List Char :=
  let mantissa :=
    match s.digits with
    | [] => ['0']
    | [d] => [d]
    | d :: ds => d :: '.' :: ds
  let ds := Nat.toDigits 10 s.exponent.natAbs
  mantissa ++ 'e' :: (if s.exponent < 0 then '-' else '+') ::
    (List.replicate (2 - ds.length) '0' ++ ds)

/-- A number as a layout has it: plain between the two limits, and with an exponent beyond
them. -/
def Scientific.write (l : Layout) (s : Scientific) : List Char :=
  if l.plainFrom ≤ s.exponent ∧ s.exponent < l.plainBelow then s.writePlain l.wholeAsFraction
  else s.writeExponent

end Bellman.Decimal
