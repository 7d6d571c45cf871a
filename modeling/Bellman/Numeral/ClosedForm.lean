import Bellman.Enclosure

/-!
# Closed forms

Powers with fractional exponents and Euler's number leave the rational numbers. Such a
number is kept as a sum of terms. A term is a rational coefficient, a phase, which is a
power of −1 with an exponent from zero up to one, and factors: powers of prime numbers,
of Euler's number, of π, and of sums. Terms and factors of equal kind are merged, so that
what cancels disappears.

A sum that is real is a base only in its positive form, so a factor with real base and
real exponent is positive, and a term is real exactly when its phase is zero and its
factors are. What has no value of this kind — a symbol, an unknown function, a power
with complex parts — is an unknown, which is only ever equal to itself.
-/

namespace Bellman.Numeral

/-- The kinds of numbers that are not known. -/
inductive Unknown where
  | symbol (name : List Char)
  | function (name : List Char)
  /-- The empty brackets. -/
  | brackets
  /-- The infinite number, as an argument. -/
  | infinite
  /-- The largest whole number below an unknown. -/
  | floor
  /-- A power with complex parts. -/
  | power
deriving DecidableEq, Repr

mutual

/-- A rational coefficient, a phase and factors. -/
inductive Term where
  | mk (coefficient phase : Rat) (factors : List Factor)

inductive Factor where
  | mk (base : Base) (exponent : List Term)

/-- What powers are taken of. -/
inductive Base where
  | whole (n : Nat)
  | euler
  | pi
  | sum (terms : List Term)
  | unknown (u : Unknown) (arguments : List (List Term))

end

/-- A sum of terms of different kinds. The empty sum is zero. -/
abbrev ClosedForm := List Term

namespace Term

def coefficient : Term → Rat
  | .mk c _ _ => c

def phase : Term → Rat
  | .mk _ p _ => p

def factors : Term → List Factor
  | .mk _ _ fs => fs

end Term

namespace Factor

def base : Factor → Base
  | .mk b _ => b

def exponent : Factor → ClosedForm
  | .mk _ e => e

end Factor

/-! ## Reading closed forms -/

/-- A way to read a closed form from its parts upward. Its key, its bounds and what is
known of it are all read this way, so the recursion through sums, terms, factors and bases
is written once. -/
structure Reading (β : Type) where
  whole : Nat → β
  euler : β
  pi : β
  unknown : Unknown → List β → β
  power : β → β → β
  term : Rat → Rat → List β → β
  sum : List β → β

mutual

def Base.read {β : Type} (r : Reading β) : Base → β
  | .whole n => r.whole n
  | .euler => r.euler
  | .pi => r.pi
  | .sum ts => r.sum (readTerms r ts)
  | .unknown u arguments => r.unknown u (readSums r arguments)

def Factor.read {β : Type} (r : Reading β) : Factor → β
  | .mk base exponent => r.power (base.read r) (r.sum (readTerms r exponent))

def Term.read {β : Type} (r : Reading β) : Term → β
  | .mk c p fs => r.term c p (readFactors r fs)

def readFactors {β : Type} (r : Reading β) : List Factor → List β
  | [] => []
  | f :: fs => f.read r :: readFactors r fs

def readTerms {β : Type} (r : Reading β) : List Term → List β
  | [] => []
  | t :: ts => t.read r :: readTerms r ts

def readSums {β : Type} (r : Reading β) : List (List Term) → List β
  | [] => []
  | s :: ss => r.sum (readTerms r s) :: readSums r ss

end

/-- A closed form read from its parts upward. -/
def ClosedForm.read {β : Type} (r : Reading β) (s : ClosedForm) : β :=
  r.sum (readTerms r s)

def insertKey (k : String) : List String → List String
  | [] => [k]
  | l :: ls => if l < k then l :: insertKey k ls else k :: l :: ls

def joinKeys (ks : List String) : String :=
  "(" ++ " ".intercalate (ks.foldr insertKey []) ++ ")"

def rationalKey (q : Rat) : String :=
  toString q.num ++ "/" ++ toString q.den

def Unknown.key : Unknown → String
  | .symbol name => "symbol " ++ String.ofList name
  | .function name => "function " ++ String.ofList name
  | .brackets => "brackets"
  | .infinite => "infinite"
  | .floor => "floor"
  | .power => "power"

/-- Equal closed forms have equal keys: the order of terms and factors does not show. Forms
are compared by their keys. -/
def keyReading : Reading String where
  whole n := toString n
  euler := "euler"
  pi := "pi"
  unknown u ks := u.key ++ "[" ++ " ".intercalate ks ++ "]"
  power b e := b ++ "^" ++ e
  term c p ks := rationalKey c ++ "~" ++ rationalKey p ++ joinKeys ks
  sum := joinKeys

/-- What is known of a number. -/
structure Knowledge where
  hasSymbol : Bool
  isFinite : Bool
  isReal : Bool
deriving DecidableEq, Repr

/-- What is known of a number from what is known of its parts. -/
def Knowledge.ofParts (ks : List Knowledge) (isReal : Bool) : Knowledge where
  hasSymbol := ks.any (·.hasSymbol)
  isFinite := ks.all (·.isFinite)
  isReal := isReal && ks.all (·.isReal)

def Unknown.knowledge (u : Unknown) (ks : List Knowledge) : Knowledge :=
  match u with
  | .symbol _ => ⟨true, false, false⟩
  | .power => { Knowledge.ofParts ks false with isFinite := true }
  | _ => { Knowledge.ofParts ks false with isFinite := false }

def knowledgeReading : Reading Knowledge where
  whole _ := ⟨false, true, true⟩
  euler := ⟨false, true, true⟩
  pi := ⟨false, true, true⟩
  unknown := Unknown.knowledge
  power b e := Knowledge.ofParts [b, e] true
  term _ p ks := Knowledge.ofParts ks (p == 0)
  sum ks := Knowledge.ofParts ks true

def sumBounds (xs : List (Option Enclosure)) : Option Enclosure :=
  xs.foldl (fun acc x =>
    match acc, x with
    | some a, some x => some (a.add x)
    | _, _ => none) (some (.ofRat 0))

/-- Bounds of the logarithm of the magnitude of a term, from those of its factors. -/
def logBounds (places : Nat) (coefficient : Rat) (logs : List (Option Enclosure)) :
    Option Enclosure :=
  (sumBounds logs).map (·.add (Enclosure.logRat places coefficient.abs))

/-- Reads bounds of a real closed form. Those of a power bound its logarithm, so that
factors of very different sizes can be put together. -/
def enclosureReading (places : Nat) : Reading (Option Enclosure) where
  whole n := some (.ofRat n)
  euler := some (Enclosure.exp places (.ofRat 1))
  pi := some (Enclosure.pi places)
  unknown _ _ := none
  power b e :=
    match b, e with
    | some b, some e => b.logPower? places e
    | _, _ => none
  term c p logs :=
    if p ≠ 0 then none
    else if logs.isEmpty ∨ c = 0 then some (.ofRat c)
    else
      (logBounds places c logs).map fun l =>
        let x := Enclosure.exp places l
        if c < 0 then x.neg else x
  sum := sumBounds

/-! ## Arithmetic -/

namespace Term

/-- The kind of a term: all of it but the coefficient. -/
def kind (t : Term) : String :=
  (Term.mk 1 t.phase t.factors).read keyReading

def scale (q : Rat) (t : Term) : Term :=
  .mk (q * t.coefficient) t.phase t.factors

end Term

namespace ClosedForm

def ofRat (q : Rat) : ClosedForm :=
  if q = 0 then [] else [.mk q 0 []]

def rational? : ClosedForm → Option Rat
  | [] => some 0
  | [.mk c p []] => if p = 0 then some c else none
  | _ => none

def euler : ClosedForm :=
  [.mk 1 0 [.mk .euler (ofRat 1)]]

def unknown (u : Unknown) (arguments : List ClosedForm) : ClosedForm :=
  [.mk 1 0 [.mk (.unknown u arguments) (ofRat 1)]]

def knowledge (s : ClosedForm) : Knowledge :=
  s.read knowledgeReading

def addTerm (s : ClosedForm) (t : Term) : ClosedForm :=
  match s with
  | [] => if t.coefficient = 0 then [] else [t]
  | u :: us =>
      if u.kind == t.kind then
        let c := u.coefficient + t.coefficient
        if c = 0 then us else .mk c u.phase u.factors :: us
      else u :: addTerm us t

def add (a b : ClosedForm) : ClosedForm :=
  b.foldl addTerm a

def scale (q : Rat) (s : ClosedForm) : ClosedForm :=
  if q = 0 then [] else s.map (·.scale q)

def insertFactor (f : Factor) : List Factor → List Factor
  | [] => [f]
  | g :: gs =>
      if g.base.read keyReading == f.base.read keyReading then
        .mk g.base (add g.exponent f.exponent) :: gs
      else g :: insertFactor f gs

/-- The real and the imaginary part of a sum, if both are rational and neither is zero. -/
def complexParts? : ClosedForm → Option (Rat × Rat)
  | [.mk a p [], .mk b q []] =>
      if p = 0 ∧ q = 1 / 2 then some (a, b)
      else if p = 1 / 2 ∧ q = 0 then some (b, a)
      else none
  | _ => none

/-- A whole power of a rational number. Those of one and minus one are known at once,
however large the exponent is. -/
def wholePow (q : Rat) (n : Int) : Rat :=
  if q = 1 then 1
  else if q = -1 then (if n % 2 = 0 then 1 else -1)
  else q ^ n

/-- Moves the whole part of a rational power of a number into the coefficient, and drops
powers with exponent zero. The fourth power of a number on a diagonal of the complex
plane is rational too. -/
def tidyFactor (c : Rat) (f : Factor) : Rat × List Factor :=
  match f.base, rational? f.exponent with
  | .whole n, some e =>
      let part := e - e.floor
      (c * wholePow n e.floor, if part = 0 then [] else [.mk f.base (ofRat part)])
  | .sum ts, some e =>
      match complexParts? ts with
      | some (a, b) =>
          if a.abs = b.abs ∧ (e / 4).den = 1 then
            (c * wholePow (-4 * a ^ (4 : Int)) (e / 4).num, [])
          else (c, if e = 0 then [] else [f])
      | none => (c, if e = 0 then [] else [f])
  | _, some e => (c, if e = 0 then [] else [f])
  | _, none => (c, [f])

/-- A term from a coefficient, any phase and any factors. A sum that is left alone as a
factor is multiplied out. -/
def ofParts (coefficient phase : Rat) (factors : List Factor) : ClosedForm :=
  let (c, fs) := factors.foldl (fun (c, fs) f =>
    let (c', f') := tidyFactor c f
    (c', fs ++ f')) (coefficient, [])
  let turns := phase - 2 * ((phase / 2).floor : Rat)
  let (c, p) := if 1 ≤ turns then (-c, turns - 1) else (c, turns)
  match fs with
  | [.mk (.sum ts) e] =>
      if p = 0 ∧ rational? e = some 1 then scale c ts else [.mk c p fs]
  | _ => if c = 0 then [] else [.mk c p fs]

def mulTerms (a b : Term) : ClosedForm :=
  ofParts (a.coefficient * b.coefficient) (a.phase + b.phase)
    (b.factors.foldl (fun fs f => insertFactor f fs) a.factors)

/-- The sign of a real closed form, as far as it can be told. -/
def isNegative (s : ClosedForm) : Bool :=
  (Enclosure.placesTried.findSome? fun places =>
    match s.read (enclosureReading places) with
    | none => some false
    | some x => if x.upper < 0 then some true else if 0 < x.lower then some false else none).getD
      false

/-- A sum as a single term. A real one is taken in its positive form, so that a power of it
has a phase only if its sign gives it one. -/
def asTerm (s : ClosedForm) : Term :=
  match s with
  | [t] => t
  | _ =>
      if s.knowledge.isReal && isNegative s then
        .mk (-1) 0 [.mk (.sum (scale (-1) s)) (ofRat 1)]
      else .mk 1 0 [.mk (.sum s) (ofRat 1)]

/-- The product of two sums. Only rational multiples are multiplied out; all other products
keep their sums as factors. -/
def mul (a b : ClosedForm) : ClosedForm :=
  match rational? a, rational? b with
  | some q, _ => scale q b
  | _, some q => scale q a
  | none, none => mulTerms (asTerm a) (asTerm b)

/-! ## Powers -/

/-- How often `d` divides `n`, and what is left of `n`. -/
def divideOut (d : Nat) : (steps : Nat) → Nat → Nat × Nat
  | 0, n => (0, n)
  | steps + 1, n =>
      if 1 < d ∧ 0 < n ∧ n % d = 0 then
        let (k, m) := divideOut d steps (n / d)
        (k + 1, m)
      else (0, n)

/-- Small prime factors with their multiplicities, found by trial; what is left over
comes last. -/
def smallFactors : (steps : Nat) → (d n : Nat) → List (Nat × Nat)
  | 0, _, n => if 1 < n then [(n, 1)] else []
  | steps + 1, d, n =>
      if n ≤ 1 then []
      else if n < d * d then [(n, 1)]
      else
        let (k, m) := divideOut d n.log2 n
        if k = 0 then smallFactors steps (d + 1) n else (d, k) :: smallFactors steps (d + 1) m

/-- How far prime factors are looked for. What is left over counts as one factor, whether
it is prime or not. -/
def trialLimit : Nat := 1 <<< 15

/-- The largest number between two whose power is at most `n`. -/
def rootBetween (k n : Nat) : (steps : Nat) → (low high : Nat) → Nat
  | 0, low, _ => low
  | steps + 1, low, high =>
      if high ≤ low + 1 then low
      else
        let middle := (low + high) / 2
        if middle ^ k ≤ n then rootBetween k n steps middle high
        else rootBetween k n steps low middle

/-- The whole root of a positive number, if it has one. It is searched for between powers
of two, since roots of large numbers as doubles would not be exact. -/
def exactRoot? (k n : Nat) : Option Nat :=
  if n.log2 < k then (if n = 1 then some 1 else none)
  else
    let r := rootBetween k n (n.log2 / k + 2) 1 (1 <<< (n.log2 / k + 1))
    if r.pow k = n then some r else none

/-- A power of a positive whole number: a rational number if it has the root, and else
powers of its prime factors. -/
def powWhole (n : Nat) (exponent : ClosedForm) : Rat × List Factor :=
  let spread := (smallFactors trialLimit 2 n).map fun (p, k) =>
    Factor.mk (.whole p) (scale k exponent)
  match rational? exponent with
  | some e =>
      match exactRoot? e.den n with
      | some r => (wholePow r e.num, [])
      | none => (1, spread)
  | none => (1, spread)

def powPositive (q : Rat) (exponent : ClosedForm) : Rat × List Factor :=
  let (c, fs) := powWhole q.num.natAbs exponent
  let (d, gs) := powWhole q.den (scale (-1) exponent)
  (c * d, fs ++ gs)

def powWholeTerm (t : Term) (n : Int) : ClosedForm :=
  ofParts (wholePow t.coefficient n) (t.phase * n)
    (t.factors.map fun f => .mk f.base (scale n f.exponent))

/-- The angle of a term with positive factors, as a part of a half turn, between −1 and 1. -/
def angle (t : Term) : Rat :=
  if 0 < t.coefficient then t.phase
  else if t.phase = 0 then 1
  else t.phase - 1

/-- A power of the magnitude of a term with positive factors, under a phase. -/
def powMagnitude (t : Term) (exponent : ClosedForm) (phase : Rat) : ClosedForm :=
  let (c, fs) := powPositive t.coefficient.abs exponent
  let gs := t.factors.map fun f => Factor.mk f.base (mul f.exponent exponent)
  ofParts c phase (gs.foldl (fun acc g => insertFactor g acc) fs)

def isPositiveFactor (f : Factor) : Bool :=
  (f.read knowledgeReading).isReal

/-- A single factor that is not positive may still be raised if its exponent lies above
−1 and not above 1, because its angle then stays within a half turn. -/
def raisesAlone (t : Term) : Bool :=
  match t.factors.filter (!isPositiveFactor ·) with
  | [f] =>
      match rational? f.exponent with
      | some e => decide (-1 < e ∧ e ≤ 1) && decide (angle t = 0)
      | none => false
  | _ => false

def imaginary? : ClosedForm → Option ClosedForm
  | [.mk c p fs] => if p = 1 / 2 ∧ fs.all isPositiveFactor then some [.mk c 0 fs] else none
  | _ => none

/-- The reciprocal of a complex number, as a multiple of its conjugate. -/
def reciprocal (re im : Rat) : ClosedForm :=
  let conjugate : ClosedForm := [.mk re 0 [], .mk (-im) (1 / 2) []]
  let c := 1 / (re * re + im * im)
  if c = 1 then conjugate else [.mk c 0 [.mk (.sum conjugate) (ofRat 1)]]

/-- A power of a sum that is not zero. Powers of numbers of magnitude one to imaginary
exponents are powers of Euler's number. -/
def pow (base exponent : ClosedForm) : ClosedForm :=
  let t := asTerm base
  match rational? exponent with
  | some e =>
      if e.den = 1 then
        match complexParts? base with
        | some (a, b) => if e = -1 then reciprocal a b else powWholeTerm t e.num
        | none => powWholeTerm t e.num
      else if t.factors.all isPositiveFactor then powMagnitude t exponent (angle t * e)
      else if raisesAlone t then powMagnitude t exponent 0
      else unknown .power [base, exponent]
  | none =>
      if t.factors.all isPositiveFactor && decide (angle t = 0) then powMagnitude t exponent 0
      else
        match imaginary? exponent with
        | some y =>
            if t.factors.isEmpty ∧ t.coefficient.abs = 1 then
              let turn := mul (scale (-(angle t)) y) [.mk 1 0 [.mk .pi (ofRat 1)]]
              ofParts 1 0 [.mk .euler turn]
            else unknown .power [base, exponent]
        | none => unknown .power [base, exponent]

/-- Bounds of the logarithm of the magnitude of a factor: a positive one, or a power of a
complex number with rational parts. -/
def logFactor? (places : Nat) (f : Factor) : Option Enclosure :=
  if isPositiveFactor f then f.read (enclosureReading places)
  else
    match f.base, rational? f.exponent with
    | .sum ts, some e =>
        (complexParts? ts).map fun (a, b) =>
          (Enclosure.logRat places (a * a + b * b)).scale (e / 2)
    | _, _ => none

/-- Bounds of the logarithm of the magnitude of a closed form, taken as one term. -/
def logMagnitude? (places : Nat) (s : ClosedForm) : Option Enclosure :=
  let t := asTerm s
  logBounds places t.coefficient (t.factors.map (logFactor? places))

end ClosedForm

end Bellman.Numeral
