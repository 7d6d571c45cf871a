import Bellman.Grid

/-!
# Elimination with partial pivoting

A system of equations is solved column by column. Of the equations that are left, one
with the largest leading coefficient is moved to the front; it is the pivot of the
column, and a multiple of it is taken from each of the others so that their leading
coefficients vanish. These coefficients are dropped, so after each column every equation
that is left is shorter by one. The pivots then give the solution from the last to the
first.

What is done in a column — which equation was moved to the front, and the multipliers —
is recorded, and depends on the coefficients alone.
-/

namespace Bellman

/-- The comparisons that choose and refuse pivots. Beside arithmetic they are all that
elimination asks of its entries, so one definition serves doubles and rational numbers. -/
class Pivoting (α : Type) where
  /-- The first entry is preferred to the second, which came before it. -/
  preferred : α → α → Bool
  /-- The entry is too small to divide by. -/
  negligible : α → Bool

/-- Pivots below this magnitude count as zero, because errors of rounding may have left as
much of a pivot that vanishes. -/
def pivotTolerance : Binary64 :=
  Binary64.ofRat ((10 : Rat) ^ (-12 : Int))

instance : Pivoting Rat where
  preferred x y := decide (y.abs < x.abs)
  negligible x := decide (x.abs < pivotTolerance.toRat)

/-- The first entry that is not a number is preferred to all others. -/
instance : Pivoting Binary64 where
  preferred x y := !y.isNaN && (x.isNaN || y.abs.lt x.abs)
  negligible x := x.abs.lt pivotTolerance

/-- An equation: the coefficients of the unknowns that are left, and the right-hand
side. -/
structure Equation (α : Type) where
  coefficients : List α
  rightSide : α
deriving DecidableEq, Repr

/-- What is done in one column: which equation became the pivot, and what multiples of it
are taken from the others. -/
structure Stage (α : Type) where
  /-- How far down the pivot was found. -/
  offset : Nat
  pivot : Equation α
  multipliers : List α
deriving DecidableEq, Repr

namespace Elimination

variable {α : Type} [Zero α] [Add α] [Sub α] [Mul α] [Div α] [Pivoting α]

def lead (r : Equation α) : α :=
  r.coefficients.headD 0

/-- The place of the preferred entry of a list, which begins with `x`. An entry replaces
the best one so far only if it is preferred, so of several equally good ones the first is
taken. -/
def preferredPlace (x : α) (xs : List α) : Nat :=
  ((xs.zipIdx 1).foldl
    (fun best candidate =>
      if Pivoting.preferred candidate.1 best.1 then candidate else best)
    (x, 0)).2

/-- Exchanges the first equation and the one at a place, and gives the one that comes to
the front and the others. The first one goes where the other was, and all the rest stay in
place. -/
def bringToFront (place : Nat) (r : Equation α) (rs : List (Equation α)) :
    Equation α × List (Equation α) :=
  match place with
  | 0 => (r, rs)
  | i + 1 => ((rs[i]?).getD r, rs.set i r)

/-- Takes a multiple of the pivot from an equation and drops the leading coefficient. Over
doubles that need not vanish exactly; it is dropped all the same. -/
def reduce (pivot : Equation α) (multiplier : α) (r : Equation α) : Equation α where
  coefficients :=
    List.zipWith (fun a p => a - multiplier * p) r.coefficients.tail pivot.coefficients.tail
  rightSide := r.rightSide - multiplier * pivot.rightSide

/-- The stages of a system of `n` equations, whose first column has this number. The first
negligible pivot ends the elimination and is reported with its column. -/
def stages : (n : Nat) → (column : Nat) → List (Equation α) →
    Except (KernelError α) (List (Stage α))
  | 0, _, _ => .ok []
  | _ + 1, _, [] => .ok []
  | n + 1, column, r :: rs =>
      let offset := preferredPlace (lead r) (rs.map lead)
      let (pivot, others) := bringToFront offset r rs
      if Pivoting.negligible (lead pivot) then .error (.singular (lead pivot) column)
      else
        let multipliers := others.map fun s => lead s / lead pivot
        match stages n (column + 1) (List.zipWith (reduce pivot) multipliers others) with
        | .ok rest => .ok (⟨offset, pivot, multipliers⟩ :: rest)
        | .error e => .error e

/-- The solution that the pivots give. A pivot equation speaks of its own unknown and those
after it, so the last is solved first. -/
def backSubstitute (ss : List (Stage α)) : List α :=
  ss.foldr
    (fun s xs => (s.pivot.rightSide - dot s.pivot.coefficients.tail xs) / lead s.pivot :: xs)
    []

def equations (rows : List (List α)) (b : List α) : List (Equation α) :=
  List.zipWith Equation.mk rows b

end Elimination

/-- Solves a system. The right-hand side is measured before the matrix, so where neither
fits it is the right-hand side that is reported. -/
def Grid.solve {α : Type} [Zero α] [Add α] [Sub α] [Mul α] [Div α] [Pivoting α]
    (A : Grid α) (b : List α) : Except (KernelError α) (List α) :=
  if b.length ≠ A.height then .error (.rightSide b.length A.height)
  else if A.width ≠ A.height then .error (.notSquare A.height A.width)
  else (Elimination.stages A.height 0 (Elimination.equations A.rows b)).map
    Elimination.backSubstitute

end Bellman
