import Bellman.Numeral.Phrase
import Mathlib.Data.Rat.Defs
import Mathlib.Algebra.Order.Field.Rat

/-!
# Arithmetic on paper

What sums, products, quotients and powers of decimal literals are worth, and how they may
be written: brackets may be left out where precedence and grouping allow it, a power is
written with a caret or two stars, and blanks stand between tokens. None of this looks at
how a text is read.
-/

namespace Bellman.Numeral

open Text (digitLimit)

/-- A literal whose parts are digits, as many as can be read. A whole number has no zeros
in front of other digits, and an exponent has three digits at most. -/
structure Literal.Proper (l : Literal) : Prop where
  whole_digits : ∀ d ∈ l.whole, d.isDigit = true
  fraction_digits : ∀ d ∈ l.fraction.getD [], d.isDigit = true
  nonempty : l.whole = [] → l.fraction.getD [] ≠ []
  leading : l.isWhole = true → l.whole.head? = some '0' → ∀ d ∈ l.whole, d = '0'
  whole_short : l.whole.length ≤ digitLimit
  fraction_short : (l.fraction.getD []).length ≤ digitLimit
  exponent_digits : ∀ e ∈ l.exponent, ∀ d ∈ e.2, d.isDigit = true
  exponent_short : ∀ e ∈ l.exponent, 0 < e.2.length ∧ e.2.length ≤ 3

/-- The number that digits write: each counts for its place. -/
def placeValue : List Char → ℕ
  | [] => 0
  | d :: ds => (d.toNat - '0'.toNat) * 10 ^ ds.length + placeValue ds

/-- The number that an exponent writes. -/
def exponentValue : Option (Bool × List Char) → ℤ
  | none => 0
  | some (false, ds) => placeValue ds
  | some (true, ds) => -placeValue ds

/-- The number that a literal writes. -/
def Literal.value (l : Literal) : ℚ :=
  (placeValue l.whole + placeValue (l.fraction.getD []) / 10 ^ (l.fraction.getD []).length) *
    10 ^ exponentValue l.exponent

/-- An operation between two numbers. -/
inductive Operator where
  | add
  | subtract
  | multiply
  | divide
  | power
deriving DecidableEq, Repr

/-- What is to be computed. -/
inductive Arithmetic where
  | literal (l : Literal) (proper : l.Proper)
  | plus (a : Arithmetic)
  | minus (a : Arithmetic)
  | binary (op : Operator) (a b : Arithmetic)

/-- A number with no more than 399 decimal digits on either side of the point. -/
def InRange (q : ℚ) : Prop :=
  1 / 10 ^ 399 ≤ |q| ∧ |q| ≤ 10 ^ 399

namespace Operator

/-- The result of an operation. An exponent is whole. -/
def apply : Operator → ℚ → ℚ → ℚ
  | add, x, y => x + y
  | subtract, x, y => x - y
  | multiply, x, y => x * y
  | divide, x, y => x / y
  | power, x, y => x ^ y.num

/-- The operation has a result, and no power or reciprocal in it is out of range. -/
def Defined : Operator → ℚ → ℚ → Prop
  | divide, _, y => y ≠ 0 ∧ InRange y⁻¹
  | power, x, y => y.den = 1 ∧ (x = 0 → 0 ≤ y) ∧ (x ≠ 0 → InRange (x ^ y.num))
  | _, _, _ => True

end Operator

namespace Arithmetic

/-- The exact value. -/
def value : Arithmetic → ℚ
  | literal l _ => l.value
  | plus a => a.value
  | minus a => -a.value
  | binary op a b => op.apply a.value b.value

/-- Every operation in the tree has a result. -/
def Defined : Arithmetic → Prop
  | literal _ _ => True
  | plus a => a.Defined
  | minus a => a.Defined
  | binary op a b => a.Defined ∧ b.Defined ∧ op.Defined a.value b.value

end Arithmetic

/-- The places of a phrase in the grammar, from the loosest to the tightest. -/
inductive Level where
  | sum
  | product
  | signed
  | power
  | atom

namespace Operator

/-- Where an operation stands in the grammar. -/
def level : Operator → Level
  | add => .sum
  | subtract => .sum
  | multiply => .product
  | divide => .product
  | power => .power

def token : Operator → Token
  | add => .plus
  | subtract => .minus
  | multiply => .times
  | divide => .divide
  | power => .power

end Operator

/-- The tokens that a tree may be written with if no more than a number of brackets and
operations stand in one another. Both count, because readers go down one call or more for
each. Sums and products group from the left and powers from the right, a power is tighter
than a sign on its left, and anything may stand in brackets. -/
inductive Writes : ℕ → Level → Arithmetic → List Token → Prop
  | literal (n : ℕ) (l : Literal) (proper : l.Proper) :
      Writes n .atom (.literal l proper) [.literal l]
  | brackets {n a ts} : Writes n .sum a ts → Writes (n + 1) .atom a (.opening :: (ts ++ [.closing]))
  | ofAtom {n a ts} : Writes n .atom a ts → Writes n .power a ts
  | power {n a b ts us} : Writes n .atom a ts → Writes n .signed b us →
      Writes (n + 1) .power (.binary .power a b) (ts ++ .power :: us)
  | ofPower {n a ts} : Writes n .power a ts → Writes n .signed a ts
  | plus {n a ts} : Writes n .signed a ts → Writes (n + 1) .signed (.plus a) (.plus :: ts)
  | minus {n a ts} : Writes n .signed a ts → Writes (n + 1) .signed (.minus a) (.minus :: ts)
  | ofSigned {n a ts} : Writes n .signed a ts → Writes n .product a ts
  | product {n op a b ts us} : op.level = .product → Writes n .product a ts →
      Writes n .signed b us → Writes (n + 1) .product (.binary op a b) (ts ++ op.token :: us)
  | ofProduct {n a ts} : Writes n .product a ts → Writes n .sum a ts
  | sum {n op a b ts us} : op.level = .sum → Writes n .sum a ts →
      Writes n .product b us → Writes (n + 1) .sum (.binary op a b) (ts ++ op.token :: us)

/-- The ways to write an exponent. -/
inductive ExponentSpelling : Option (Bool × List Char) → List Char → Prop
  | none : ExponentSpelling none []
  | unsigned {e : Char} (h : e = 'e' ∨ e = 'E') (ds : List Char) :
      ExponentSpelling (some (false, ds)) (e :: ds)
  | positive {e : Char} (h : e = 'e' ∨ e = 'E') (ds : List Char) :
      ExponentSpelling (some (false, ds)) (e :: '+' :: ds)
  | negative {e : Char} (h : e = 'e' ∨ e = 'E') (ds : List Char) :
      ExponentSpelling (some (true, ds)) (e :: '-' :: ds)

/-- The ways to write a token. -/
inductive Token.Spelling : Token → List Char → Prop
  | literal {l : Literal} {cs : List Char} (h : ExponentSpelling l.exponent cs) :
      Token.Spelling (.literal l) (l.whole ++ l.fraction.elim [] ('.' :: ·) ++ cs)
  | plus : Token.Spelling .plus ['+']
  | minus : Token.Spelling .minus ['-']
  | times : Token.Spelling .times ['*']
  | divide : Token.Spelling .divide ['/']
  | caret : Token.Spelling .power ['^']
  | stars : Token.Spelling .power ['*', '*']
  | opening : Token.Spelling .opening ['(']
  | closing : Token.Spelling .closing [')']

/-- The texts of some tokens, with blanks between them. -/
inductive Spelled : List Token → List Char → Prop
  | nil {gap : List Char} (h : ∀ c ∈ gap, isGap c = true) : Spelled [] gap
  | cons {gap cs rest : List Char} {t : Token} {ts : List Token} (hgap : ∀ c ∈ gap, isGap c = true)
      (ht : t.Spelling cs) (hts : Spelled ts rest) : Spelled (t :: ts) (gap ++ cs ++ rest)

/-- A text of a tree in which no more than `n` brackets and operations stand in one
another. -/
def Arithmetic.Text (n : ℕ) (a : Arithmetic) (cs : List Char) : Prop :=
  ∃ ts, Writes n .sum a ts ∧ Spelled ts cs

end Bellman.Numeral
