import Bellman.Numeral.Phrase
import Bellman.Numeral.Value

/-!
# Formulas and the magnitude guard

A phrase becomes a formula of sums, products and powers, in which a difference is a sum
with a negative multiple and a quotient a product with a reciprocal. Formulas are
computed from the inside outward, and a power is refused before it is computed if it
would have too many decimal digits on either side of the point.

Two things are computed while the formula is made and so escape the guard: whole
quotients with all that stands in them, and the negative of a sum, in which numbers and
whole powers of numbers are put together at once.
-/

namespace Bellman.Numeral

/-- What a phrase becomes. Differences and quotients are gone, and what was computed on the
way is a value. -/
inductive Formula where
  | value (v : Value)
  | emptyBrackets
  | add (a b : Formula)
  | mul (a b : Formula)
  | pow (a b : Formula)
  | call (name : List Char) (argument : Option Formula)

/-- Why a formula has no value. -/
inductive Obstacle where
  /-- A symbol stands in it. -/
  | symbol
  /-- A power is taken of, or to, something that is not a finite number. -/
  | notFinite
  /-- A power would have too many digits. -/
  | tooManyDigits (digits : Nat)
  /-- It is a thing that is not a number at all. -/
  | notANumber
deriving DecidableEq, Repr

/-- The most decimal digits that a power may have on either side of the point. With more it
would be infinite or zero as a double. -/
def maxMagnitude : Nat := 400

/-- The most decimal digits of a power that escapes the guard; one with more makes the
text unreadable. -/
def unguardedLimit : Nat := 200000

def unguardedPow (a b : Value) : Option Value :=
  if a.isZero then some (a.pow b)
  else if (unguardedLimit : Rat) < a.digitsOfPower b then none
  else some (a.pow b)

namespace Phrase

/-- The value of a phrase that is computed while a formula is made, with all that stands in
it. Powers in it escape the guard. -/
def value? : Phrase → Option Value
  | .literal l => l.value?.map .rational
  | .euler => some (.closed .euler)
  | .symbol name => some (.closed (.unknown (.symbol name) []))
  | .bareFunction => none
  | .emptyBrackets => none
  | .ellipsis => none
  | .senseless => none
  | .call name none => some (.closed (.unknown (.function name) []))
  | .call name (some p) =>
      p.value?.map fun v => .closed (.unknown (.function name) [v.toClosed])
  | .plus p => p.value?
  | .minus p => p.value?.map .neg
  | .binary op p q =>
      match p.value?, q.value? with
      | some a, some b =>
          match op with
          | .add => some (a.add b)
          | .subtract => some (a.add b.neg)
          | .multiply => some (a.mul b)
          | .divide => some (a.div b)
          | .floorDivide => a.floorDiv b
          | .power => unguardedPow a b
      | _, _ => none

end Phrase

namespace Formula

/-- A summand that is computed at once when its sum is negated: a number, a whole power
of a number, or a product of such. -/
def settle? : Formula → Option Value
  | .value v => some v
  | .mul a b =>
      match a.settle?, b.settle? with
      | some a, some b => some (a.mul b)
      | _, _ => none
  | .pow (.value (.rational b)) (.value (.rational e)) =>
      if e.den = 1 then unguardedPow (.rational b) (.rational e) else none
  | _ => none

def summands : Formula → List Formula
  | .add a b => a.summands ++ b.summands
  | a => [a]

def minus (a : Formula) : Formula :=
  .mul (.value (.rational (-1))) a

/-- The negative of a sum: what can be put together at once, and the other summands. -/
def negateSum (a : Formula) : Formula :=
  let settled := a.summands.filterMap settle?
  let others := a.summands.filter (·.settle?.isNone)
  others.foldl (fun acc b => .add acc b.minus)
    (.value (settled.foldl (fun acc v => acc.add v.neg) (.rational 0)))

def negate : Formula → Option Formula
  | .emptyBrackets => none
  | .value v => some (.value v.neg)
  | .add a b => some (negateSum (.add a b))
  | a => some a.minus

/-- A phrase as a formula, unless it is no number. -/
def ofPhrase? : Phrase → Option Formula
  | .literal l => l.value?.map fun q => .value (.rational q)
  | .euler => some (.value (.closed .euler))
  | .symbol name => some (.value (.closed (.unknown (.symbol name) [])))
  | .bareFunction => none
  | .emptyBrackets => some .emptyBrackets
  | .ellipsis => none
  | .senseless => none
  | .call name none => some (.call name none)
  | .call name (some p) => (ofPhrase? p).map fun a => .call name (some a)
  | .plus p =>
      match ofPhrase? p with
      | some .emptyBrackets => none
      | a => a
  | .minus p => (ofPhrase? p).bind negate
  | .binary .floorDivide p q =>
      match p.value?, q.value? with
      | some a, some b => (a.floorDiv b).map .value
      | _, _ => none
  | .binary op p q =>
      match ofPhrase? p, ofPhrase? q with
      | some a, some b =>
          match op with
          | .add => some (.add a b)
          | .subtract => some (.add a b.minus)
          | .multiply => some (.mul a b)
          | .divide => some (.mul a (.pow b (.value (.rational (-1)))))
          | _ => some (.pow a b)
      | _, _ => none

def hasSymbol : Formula → Bool
  | .value v => v.knowledge.hasSymbol
  | .emptyBrackets => false
  | .add a b => a.hasSymbol || b.hasSymbol
  | .mul a b => a.hasSymbol || b.hasSymbol
  | .pow a b => a.hasSymbol || b.hasSymbol
  | .call _ none => false
  | .call _ (some a) => a.hasSymbol

/-- A power, if the guard lets it pass. The guard knows the size of the power but not of
its parts: numerator and denominator may each be much longer than their quotient. -/
def guardedPow (base exponent : Value) : Except Obstacle Value :=
  if base.knowledge.isFinite && exponent.knowledge.isFinite then
    if base.isZero then .ok (base.pow exponent)
    else
      let digits := base.digitsOfPower exponent
      if (maxMagnitude : Rat) < digits then .error (.tooManyDigits digits.floor.toNat)
      else .ok (base.pow exponent)
  else .error .notFinite

/-- A product with the empty brackets. Only zero and one can be multiplied by them. -/
def mulBrackets (v : Value) : Except Obstacle Value :=
  match v with
  | .rational q =>
      if q = 0 then .ok (.rational 0)
      else if q = 1 then .ok (.closed (.unknown .brackets []))
      else .error .notANumber
  | _ => .ok (.closed (.unknown .brackets []))

/-- The value of a formula without symbols, from the inside outward. Of two obstacles the
left one is reported, and those inside the parts of a power come before the guard. -/
def compute : Formula → Except Obstacle Value
  | .value v => .ok v
  | .emptyBrackets => .ok (.closed (.unknown .brackets []))
  | .add a b => do
      let x ← a.compute
      let y ← b.compute
      return x.add y
  | .mul .emptyBrackets b => do mulBrackets (← b.compute)
  | .mul a .emptyBrackets => do mulBrackets (← a.compute)
  | .mul a b => do
      let x ← a.compute
      let y ← b.compute
      return x.mul y
  | .pow a b => do
      let x ← a.compute
      let y ← b.compute
      guardedPow x y
  | .call name none => .ok (.closed (.unknown (.function name) []))
  | .call name (some a) => do
      let x ← a.compute
      return .closed (.unknown (.function name) [x.toClosed])

/-- The value of a formula. Symbols are looked for before anything is computed, so a symbol
is reported even where a power is refused. -/
def evaluate (a : Formula) : Except Obstacle Value :=
  if a.hasSymbol then .error .symbol else a.compute

end Formula

end Bellman.Numeral
