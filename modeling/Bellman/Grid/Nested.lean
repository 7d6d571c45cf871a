import Bellman.Grid.Elimination

/-!
# Matrices and vectors as they are given

Entries come as numbers in nested lists. A row may be a number, which counts as a row of
one entry, or nested further, and then its entries count in order; the same holds of a
vector. Nested entries must fill a block: lists at one depth have one length.
-/

namespace Bellman

/-- A number or a list of entries. Nothing is asked of the lengths here; that the entries
make a matrix or a vector is found out when they are used as one. -/
inductive Nested where
  | number (x : Binary64)
  | list (items : List Nested)
deriving Inhabited

namespace Nested

mutual

/-- The lengths of a block at each depth, if the entries fill one. An empty list has length
zero and nothing below it, so it fits only beside empty lists. -/
def shape? : Nested → Option (List Nat)
  | .number _ => some []
  | .list items => shapeOfItems? items

def shapeOfItems? : List Nested → Option (List Nat)
  | [] => some [0]
  | [item] => item.shape?.map (1 :: ·)
  | item :: items =>
      match item.shape?, shapeOfItems? items with
      | some s, some (n :: t) => if s = t then some ((n + 1) :: t) else none
      | _, _ => none

end

mutual

/-- All numbers, in order. -/
def entries : Nested → List Binary64
  | .number x => [x]
  | .list items => entriesOfItems items

def entriesOfItems : List Nested → List Binary64
  | [] => []
  | item :: items => item.entries ++ entriesOfItems items

end

def toVector (v : Nested) : Except (KernelError Binary64) (List Binary64) :=
  match v.shape? with
  | some _ => .ok v.entries
  | none => .error .irregular

/-- The rows of a matrix, or its entries if they are nested no further. -/
def items : Nested → Except (KernelError Binary64) (List Nested)
  | .number _ => .error .notAList
  | .list items => .ok items

/-- Nested entries as a matrix. A row that is nested further is read as all its numbers in
order, and then the rows must have one length. -/
def toGrid (A : Nested) : Except (KernelError Binary64) (Grid Binary64) := do
  let rows ← A.items
  Grid.ofRows (← rows.mapM toVector)

def rowLength : Nested → Except (KernelError Binary64) Nat
  | .number _ => .error .notAList
  | .list items => .ok items.length

/-- Rows that are to be combined have equally many items. The items are only counted, and
the first pair of rows that differ is reported before anything in them is. -/
def checkRows : Nat → List Nested → List Nested → Except (KernelError Binary64) Unit
  | row, a :: as, b :: bs => do
      let m ← a.rowLength
      let n ← b.rowLength
      if m = n then checkRows (row + 1) as bs else throw (.rowLengths row m n)
  | _, _, _ => pure ()

def scale (A : Nested) (c : Binary64) : Except (KernelError Binary64) (Grid Binary64) := do
  return (← A.toGrid).scale c

def subtract (A B : Nested) : Except (KernelError Binary64) (Grid Binary64) := do
  let as ← A.items
  let bs ← B.items
  if as.length ≠ bs.length then throw (.rowCounts as.length bs.length)
  checkRows 0 as bs
  (← A.toGrid).subtract? (← B.toGrid)

def mulVec (A x : Nested) : Except (KernelError Binary64) (List Binary64) := do
  (← A.toGrid).mulVec (← x.toVector)

/-- The product is formed before the right-hand side is looked at, so a vector that does
not fit is reported first. -/
def residual (A x b : Nested) : Except (KernelError Binary64) (List Binary64) := do
  let G ← A.toGrid
  let v ← x.toVector
  let _ ← G.mulVec v
  G.residual v (← b.toVector)

def solve (A b : Nested) : Except (KernelError Binary64) (List Binary64) := do
  (← A.toGrid).solve (← b.toVector)

end Nested

end Bellman
