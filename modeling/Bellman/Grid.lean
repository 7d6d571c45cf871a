import Bellman.Binary64
import Bellman.Decimal.Significant

/-!
# Grids of numbers

A grid is a matrix as a list of rows of one width; a grid without rows has width zero.
Its operations ask only for the arithmetic of the entries, so they can be read over
doubles, as they run, and over the rational numbers, as they are meant.

Where two grids or vectors are combined entry by entry, a single column or a single
entry stands for as many as the other side has.
-/

namespace Bellman

/-- A matrix: rows of one width. The width is kept beside the rows, so that it need not be
asked of a first row which may be missing. -/
structure Grid (α : Type) where
  rows : List (List α)
  width : Nat
  regular : ∀ row ∈ rows, row.length = width

/-- Why an operation on matrices or vectors is refused. A singular system is refused with
its pivot, so the reason depends on the kind of the entries. -/
inductive KernelError (α : Type) where
  /-- A list was needed where a number stands. -/
  | notAList
  /-- Nested entries that fill no block, or lengths that cannot be combined. -/
  | irregular
  /-- The size of a matrix cannot be negative. -/
  | negativeSize (size : Int)
  /-- The rows of one matrix differ in length; the lengths, in order. -/
  | raggedRows (lengths : List Nat)
  /-- Two matrices have different numbers of rows. -/
  | rowCounts (left right : Nat)
  /-- Two matrices differ in the length of a row. -/
  | rowLengths (row left right : Nat)
  /-- A vector does not fit the columns of a matrix. -/
  | vectorLength (rows columns length : Nat)
  /-- A right-hand side does not fit the rows of a system. -/
  | rightSide (length rows : Nat)
  /-- The matrix of a system is not square. -/
  | notSquare (rows columns : Nat)
  /-- The best pivot of a column is negligible. -/
  | singular (pivot : α) (column : Nat)
deriving DecidableEq

namespace KernelError

def lengthsText (lengths : List Nat) : String :=
  "[" ++ ", ".intercalate (lengths.map toString) ++ "]"

def sizeText (rows columns : Nat) : String :=
  toString rows ++ "×" ++ toString columns

/-- The reason in words. A number in place of a list, and lengths that cannot be combined,
have none: no matrix or vector that was read from a text leads to them. -/
def message? : KernelError Binary64 → Option String
  | .notAList => none
  | .irregular => none
  | .negativeSize n => some ("Matrix size must be non-negative, got " ++ toString n ++ ".")
  | .raggedRows lengths =>
      some ("Matrix rows have different lengths: " ++ lengthsText lengths ++ ".")
  | .rowCounts left right =>
      some ("Matrix shape mismatch: " ++ toString left ++ " rows vs " ++ toString right ++ " rows.")
  | .rowLengths row left right =>
      some ("Matrix shape mismatch in row " ++ toString row ++ ": " ++ toString left ++
        " columns vs " ++ toString right ++ " columns.")
  | .vectorLength rows columns length =>
      some ("Cannot multiply a " ++ sizeText rows columns ++ " matrix by a vector of length " ++
        toString length ++ ".")
  | .rightSide length rows =>
      some ("Right-hand side has length " ++ toString length ++ ", expected " ++
        toString rows ++ ".")
  | .notSquare rows columns =>
      some ("System matrix must be square, got " ++ sizeText rows columns ++ ".")
  | .singular pivot column =>
      some ("Matrix is singular or ill-conditioned (pivot " ++ Decimal.briefText pivot ++
        " in column " ++ toString column ++ ").")

end KernelError

/-- Puts a length among increasing lengths unless it is there already, so that a message
names every length once. -/
def insertLength (n : Nat) : List Nat → List Nat
  | [] => [n]
  | m :: ms => if n < m then n :: m :: ms else if n = m then m :: ms else m :: insertLength n ms

/-- A list brought to a length. One of that length is kept, a single entry is repeated, and
nothing else fits. -/
def stretch? {α : Type} (n : Nat) (xs : List α) : Option (List α) :=
  if xs.length = n then some xs
  else
    match xs with
    | [x] => some (List.replicate n x)
    | _ => none

/-- The length to which two lengths are brought: one gives way to the other, even if that
is zero. -/
def commonLength (m n : Nat) : Nat :=
  if m = 1 then n else m

/-- Combines two vectors entry by entry. Different lengths are refused unless one vector
has a single entry, which then meets every entry of the other. -/
def combine? {α : Type} (f : α → α → α) (xs ys : List α) : Option (List α) :=
  let n := commonLength xs.length ys.length
  match stretch? n xs, stretch? n ys with
  | some xs, some ys => some (List.zipWith f xs ys)
  | _, _ => none

/-- The sum of the products of entries. It is added up from the left, beginning with zero;
over doubles another order would round differently. -/
def dot {α : Type} [Zero α] [Add α] [Mul α] (xs ys : List α) : α :=
  (List.zipWith (· * ·) xs ys).foldl (· + ·) 0

namespace Grid

variable {α : Type}

def height (A : Grid α) : Nat :=
  A.rows.length

/-- Rows of one length as a grid. The first row sets the width, and a refusal names all
lengths there are. -/
def ofRows (rows : List (List α)) : Except (KernelError α) (Grid α) :=
  let width := (rows.head?.map List.length).getD 0
  if h : ∀ row ∈ rows, row.length = width then .ok ⟨rows, width, h⟩
  else .error (.raggedRows ((rows.map List.length).foldr insertLength []))

def identity [Zero α] [One α] (n : Nat) : Grid α where
  rows := (List.range n).map fun i => (List.range n).map fun j => if i = j then 1 else 0
  width := n
  regular := by simp

/-- The identity of a given size, which must not be negative. -/
def identity? [Zero α] [One α] (size : Int) : Except (KernelError α) (Grid α) :=
  if size < 0 then .error (.negativeSize size) else .ok (identity size.toNat)

def map (f : α → α) (A : Grid α) : Grid α where
  rows := A.rows.map (·.map f)
  width := A.width
  regular := by
    intro row h
    obtain ⟨r, hr, rfl⟩ := List.mem_map.1 h
    simpa using A.regular r hr

def scale [Mul α] (A : Grid α) (c : α) : Grid α :=
  A.map (c * ·)

/-- The difference of two grids with equally many rows, which are combined one by one. So a
single column is stretched to the width of the other grid. -/
def subtract? [Sub α] (A B : Grid α) : Except (KernelError α) (Grid α) :=
  match (List.zipWith (combine? (· - ·)) A.rows B.rows).mapM id with
  | some rows => ofRows rows
  | none => .error .irregular

def mulVec [Zero α] [Add α] [Mul α] (A : Grid α) (x : List α) :
    Except (KernelError α) (List α) :=
  if A.width = x.length then .ok (A.rows.map (dot · x))
  else .error (.vectorLength A.height A.width x.length)

/-- How far a vector misses being a solution, row by row. The product and the right-hand
side are combined like any two vectors, so a right-hand side with one entry is stretched
and not refused. -/
def residual [Zero α] [Add α] [Sub α] [Mul α] (A : Grid α) (x b : List α) :
    Except (KernelError α) (List α) :=
  match A.mulVec x with
  | .error e => .error e
  | .ok y =>
      match combine? (· - ·) y b with
      | some r => .ok r
      | none => .error .irregular

theorem length_of_mulVec [Zero α] [Add α] [Mul α] {A : Grid α} {x y : List α}
    (h : A.mulVec x = .ok y) : y.length = A.height := by
  unfold mulVec at h
  split at h
  · cases h; simp [height]
  · cases h

end Grid

end Bellman
