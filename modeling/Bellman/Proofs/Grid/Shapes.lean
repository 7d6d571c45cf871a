import Bellman.Grid.Nested
import Bellman.Proofs.Elimination.Solution

/-!
# Shapes of matrices and vectors

A matrix given by its rows is refused when their lengths differ. After that the product with
a vector and the solution of a system look at every length they depend on, so they answer
with one entry for each row, or say what does not fit. The residual looks at the lengths of
the product only: a right-hand side of another length is stretched if it has one entry or the
matrix has one row, and cannot be combined otherwise. So it keeps the contract of the other
two exactly where the right-hand side has an entry for each row.
-/

namespace Bellman

/-- What a refusal is about. -/
inductive KernelError.Kind where
  /-- Arguments that no operation can start with, or vectors that cannot be combined. -/
  | unusable
  /-- Rows of different lengths, or matrices of different shapes. -/
  | shapeMismatch
  /-- A vector or a system that does not fit. -/
  | dimensionMismatch
  /-- A pivot that is too small. -/
  | singularMatrix
deriving DecidableEq

/-- The kind of a refusal. -/
def KernelError.kind {α : Type} : KernelError α → Kind
  | .notAList | .irregular | .negativeSize _ => .unusable
  | .raggedRows _ | .rowCounts .. | .rowLengths .. => .shapeMismatch
  | .vectorLength .. | .rightSide .. | .notSquare .. => .dimensionMismatch
  | .singular .. => .singularMatrix

open KernelError (Kind)

/-- An operation ends with a refusal of a kind. -/
def Refused {α β : Type} (kind : Kind) (result : Except (KernelError α) β) : Prop :=
  ∃ e, result = .error e ∧ e.kind = kind

@[simp] theorem not_refused_ok {α β : Type} {kind : Kind} {y : β} :
    ¬ Refused kind (.ok y : Except (KernelError α) β) := by
  simp [Refused]

@[simp] theorem refused_error {α β : Type} {kind : Kind} {e : KernelError α} :
    Refused kind (.error e : Except (KernelError α) β) ↔ e.kind = kind := by
  simp [Refused]

section Rows

variable {α : Type}

/-- All rows have one length. -/
def EqualLengths (rows : List (List α)) : Prop :=
  ∀ r ∈ rows, ∀ r' ∈ rows, r.length = r'.length

instance (rows : List (List α)) : Decidable (EqualLengths rows) :=
  inferInstanceAs (Decidable (∀ r ∈ rows, ∀ r' ∈ rows, r.length = r'.length))

/-- The number of columns; a matrix without rows has none. -/
def columns (rows : List (List α)) : Nat :=
  (rows.head?.map List.length).getD 0

theorem equalLengths_iff {rows : List (List α)} :
    EqualLengths rows ↔ ∀ r ∈ rows, r.length = columns rows := by
  cases rows with
  | nil => simp [EqualLengths]
  | cons r rows =>
      refine ⟨fun h s hs => h s hs r List.mem_cons_self, fun h s hs s' hs' => ?_⟩
      rw [h s hs, h s' hs']

/-- Rows of one length are a matrix of that width. -/
theorem ofRows_of_equalLengths {rows : List (List α)} (h : EqualLengths rows) :
    ∃ A, Grid.ofRows rows = .ok A ∧ A.height = rows.length ∧ A.width = columns rows :=
  ⟨⟨rows, columns rows, equalLengths_iff.mp h⟩, dif_pos (equalLengths_iff.mp h), rfl, rfl⟩

/-- Rows of different lengths are none. -/
theorem ofRows_of_unequal {rows : List (List α)} (h : ¬ EqualLengths rows) :
    ∃ lengths, Grid.ofRows rows = .error (.raggedRows lengths) :=
  ⟨_, dif_neg fun hregular => h (equalLengths_iff.mpr hregular)⟩

end Rows

namespace Nested

/-- A flat list of numbers. -/
def ofEntries (xs : List Binary64) : Nested :=
  .list (xs.map .number)

/-- A list of flat lists of numbers. -/
def ofRows (rows : List (List Binary64)) : Nested :=
  .list (rows.map ofEntries)

theorem shapeOfItems?_numbers (xs : List Binary64) :
    shapeOfItems? (xs.map .number) = some [xs.length] := by
  induction xs with
  | nil => rfl
  | cons x xs ih =>
      cases xs with
      | nil => rfl
      | cons y xs =>
          rw [List.map_cons] at ih
          simp [shapeOfItems?, shape?, ih]

theorem entriesOfItems_numbers (xs : List Binary64) :
    entriesOfItems (xs.map .number) = xs := by
  induction xs with
  | nil => rfl
  | cons x xs ih => simp [entriesOfItems, entries, ih]

@[simp] theorem toVector_ofEntries (xs : List Binary64) : (ofEntries xs).toVector = .ok xs := by
  simp [ofEntries, toVector, shape?, entries, shapeOfItems?_numbers, entriesOfItems_numbers]

theorem mapM_toVector_ofEntries (rows : List (List Binary64)) :
    rows.mapM (toVector ∘ ofEntries) = .ok rows := by
  induction rows with
  | nil => rfl
  | cons r rows ih => simp [ih, bind, Except.bind, pure, Except.pure]

@[simp] theorem toGrid_ofRows (rows : List (List Binary64)) :
    (ofRows rows).toGrid = Grid.ofRows rows := by
  simp [toGrid, items, ofRows, mapM_toVector_ofEntries, bind, Except.bind]

end Nested

section Combine

variable {α : Type}

theorem exists_stretch? (n : Nat) (xs : List α) (h : xs.length = n ∨ xs.length = 1) :
    ∃ zs, stretch? n xs = some zs ∧ zs.length = n := by
  unfold stretch?
  by_cases hn : xs.length = n
  · exact ⟨xs, if_pos hn, hn⟩
  · obtain ⟨x, rfl⟩ := List.length_eq_one_iff.mp (h.resolve_left hn)
    exact ⟨List.replicate n x, if_neg hn, List.length_replicate⟩

theorem stretch?_eq_none {n : Nat} {xs : List α} (hn : xs.length ≠ n) (hone : xs.length ≠ 1) :
    stretch? n xs = none := by
  unfold stretch?
  rw [if_neg hn]
  split
  · exact absurd rfl hone
  · rfl

/-- A single entry stands for as many as the other side has. -/
theorem exists_combine? (f : α → α → α) (xs ys : List α)
    (h : xs.length = ys.length ∨ xs.length = 1 ∨ ys.length = 1) :
    ∃ zs, combine? f xs ys = some zs ∧
      zs.length = if xs.length = 1 then ys.length else xs.length := by
  have hcommon : commonLength xs.length ys.length = if xs.length = 1 then ys.length
      else xs.length := rfl
  obtain ⟨xs', hxs, hxs'⟩ := exists_stretch? (commonLength xs.length ys.length) xs
    (by rw [hcommon]; split <;> simp_all)
  obtain ⟨ys', hys, hys'⟩ := exists_stretch? (commonLength xs.length ys.length) ys
    (by rw [hcommon]; split <;> omega)
  refine ⟨List.zipWith f xs' ys', by simp only [combine?, hxs, hys], ?_⟩
  rw [List.length_zipWith, hxs', hys', Nat.min_self, hcommon]

/-- Vectors of different lengths, neither of one entry, cannot be combined. -/
theorem combine?_eq_none (f : α → α → α) {xs ys : List α} (hne : xs.length ≠ ys.length)
    (hxs : xs.length ≠ 1) (hys : ys.length ≠ 1) : combine? f xs ys = none := by
  have hcommon : commonLength xs.length ys.length = xs.length := if_neg hxs
  have hsome : stretch? xs.length xs = some xs := if_pos rfl
  have hnone : stretch? xs.length ys = none := stretch?_eq_none (Ne.symm hne) hys
  simp only [combine?, hcommon, hsome, hnone]

end Combine

namespace Grid

variable {α : Type} [Zero α] [Add α] [Mul α] {A : Grid α} {x b : List α}

theorem exists_mulVec (h : A.width = x.length) :
    ∃ y, A.mulVec x = .ok y ∧ y.length = A.height :=
  ⟨_, if_pos h, List.length_map ..⟩

variable [Sub α]

/-- A residual whose right-hand side fits, or is stretched. -/
theorem exists_residual (hx : A.width = x.length)
    (hb : b.length = A.height ∨ A.height = 1 ∨ b.length = 1) :
    ∃ r, A.residual x b = .ok r ∧ r.length = if A.height = 1 then b.length else A.height := by
  obtain ⟨y, hy, hlength⟩ := exists_mulVec hx
  obtain ⟨r, hr, hr'⟩ := exists_combine? (· - ·) y b (by omega)
  exact ⟨r, by simp only [residual, hy, hr], by rw [hr', hlength]⟩

theorem residual_eq_irregular (hx : A.width = x.length) (hb : b.length ≠ A.height)
    (hheight : A.height ≠ 1) (hone : b.length ≠ 1) : A.residual x b = .error .irregular := by
  obtain ⟨y, hy, hlength⟩ := exists_mulVec hx
  have hnone : combine? (· - ·) y b = none := combine?_eq_none _ (by omega) (by omega) hone
  simp only [residual, hy, hnone]

/-- A system that fits is solved with an entry for each row, or a pivot is refused. -/
theorem solve_cases [Div α] [Pivoting α] (hb : b.length = A.height) (hA : A.width = A.height) :
    (∃ y, A.solve b = .ok y ∧ y.length = A.height) ∨
      ∃ pivot column, A.solve b = .error (.singular pivot column) := by
  have hlength : (Elimination.equations A.rows b).length = A.height := by
    simp [Elimination.equations, hb, height]
  rw [solve, if_neg (by simpa using hb), if_neg (by simpa using hA)]
  cases hstages : Elimination.stages A.height 0 (Elimination.equations A.rows b) with
  | ok ss =>
      refine .inl ⟨_, rfl, ?_⟩
      rw [Elimination.length_backSubstitute, Elimination.length_stages hstages hlength]
  | error e =>
      obtain ⟨pivot, column, rfl⟩ := Elimination.exists_singular_of_stages hstages
      exact .inr ⟨pivot, column, rfl⟩

end Grid

/-- What an operation on a matrix, given by its rows, promises about shapes. Besides the two
mismatches it may refuse for the given kinds only, and an answer has an entry for each
row. -/
structure ShapeContract (rows : List (List Binary64)) (misfit : Prop) (others : List Kind)
    (result : Except (KernelError Binary64) (List Binary64)) : Prop where
  shape : Refused .shapeMismatch result ↔ ¬ EqualLengths rows
  dimension : EqualLengths rows → (Refused .dimensionMismatch result ↔ misfit)
  only : ∀ kind, Refused kind result →
    kind = .shapeMismatch ∨ kind = .dimensionMismatch ∨ kind ∈ others
  length : ∀ y, result = .ok y → y.length = rows.length

namespace ShapeContract

variable {rows : List (List Binary64)} {misfit : Prop} {others : List Kind}
  {e : KernelError Binary64} {y : List Binary64}

theorem of_unequal (h : ¬ EqualLengths rows) (he : e.kind = .shapeMismatch) :
    ShapeContract rows misfit others (.error e) where
  shape := by simp [he, h]
  dimension h' := absurd h' h
  only := by simp [he]
  length _ hy := nomatch hy

theorem of_misfit (h : EqualLengths rows) (hmisfit : misfit) (he : e.kind = .dimensionMismatch) :
    ShapeContract rows misfit others (.error e) where
  shape := by simp [he, h]
  dimension _ := by simp [he, hmisfit]
  only := by simp [he]
  length _ hy := nomatch hy

theorem of_other (h : EqualLengths rows) (hfits : ¬ misfit) (he : e.kind ∈ others)
    (hshape : e.kind ≠ .shapeMismatch) (hdimension : e.kind ≠ .dimensionMismatch) :
    ShapeContract rows misfit others (.error e) where
  shape := by simp [hshape, h]
  dimension _ := by simp [hdimension, hfits]
  only := by simp [he]
  length _ hy := nomatch hy

theorem of_answer (h : EqualLengths rows) (hfits : ¬ misfit) (hy : y.length = rows.length) :
    ShapeContract rows misfit others (.ok y) where
  shape := by simp [h]
  dimension _ := by simp [hfits]
  only := by simp
  length := by
    rintro _ ⟨⟩
    exact hy

/-- An operation on a matrix keeps the contract if it does so for rows of one length. Others
are refused before it starts. -/
theorem of_grid {f : Grid Binary64 → Except (KernelError Binary64) (List Binary64)}
    (h : EqualLengths rows → ∀ A : Grid Binary64, A.height = rows.length →
      A.width = columns rows → ShapeContract rows misfit others (f A)) :
    ShapeContract rows misfit others (Grid.ofRows rows >>= f) := by
  by_cases hrows : EqualLengths rows
  · obtain ⟨A, hA, hheight, hwidth⟩ := ofRows_of_equalLengths hrows
    rw [hA]
    exact h hrows A hheight hwidth
  · obtain ⟨lengths, hlengths⟩ := ofRows_of_unequal hrows
    rw [hlengths]
    exact .of_unequal hrows rfl

end ShapeContract

namespace Nested

variable {rows : List (List Binary64)} {x b : List Binary64}

theorem mulVec_ofRows : (ofRows rows).mulVec (ofEntries x) = Grid.ofRows rows >>= (·.mulVec x) := by
  simp [mulVec, bind, Except.bind]

theorem solve_ofRows : (ofRows rows).solve (ofEntries b) = Grid.ofRows rows >>= (·.solve b) := by
  simp [solve, bind, Except.bind]

/-- The residual of flat vectors is that of the matrix, which multiplies first. -/
theorem residual_ofRows : (ofRows rows).residual (ofEntries x) (ofEntries b) =
    Grid.ofRows rows >>= (·.residual x b) := by
  cases hrows : Grid.ofRows rows with
  | error e => simp [residual, hrows, bind, Except.bind]
  | ok A =>
      cases hy : A.mulVec x <;>
        simp [residual, Grid.residual, hrows, hy, bind, Except.bind]

theorem mulVec_contract (rows : List (List Binary64)) (x : List Binary64) :
    ShapeContract rows (columns rows ≠ x.length) [] ((ofRows rows).mulVec (ofEntries x)) := by
  rw [mulVec_ofRows]
  refine .of_grid fun h A hheight hwidth => ?_
  by_cases hx : columns rows = x.length
  · obtain ⟨y, hy, hlength⟩ := Grid.exists_mulVec (hwidth.trans hx)
    rw [hy]
    exact .of_answer h (not_not_intro hx) (hlength.trans hheight)
  · rw [Grid.mulVec, if_neg (by rwa [hwidth])]
    exact .of_misfit h hx rfl

theorem solve_contract (rows : List (List Binary64)) (b : List Binary64) :
    ShapeContract rows (b.length ≠ rows.length ∨ columns rows ≠ rows.length) [.singularMatrix]
      ((ofRows rows).solve (ofEntries b)) := by
  rw [solve_ofRows]
  refine .of_grid fun h A hheight hwidth => ?_
  by_cases hb : b.length = rows.length
  · by_cases hsquare : columns rows = rows.length
    · have hfits : ¬ (b.length ≠ rows.length ∨ columns rows ≠ rows.length) := by
        simp [hb, hsquare]
      obtain ⟨y, hy, hlength⟩ | ⟨pivot, column, hsingular⟩ :=
        Grid.solve_cases (hb.trans hheight.symm) (by rw [hwidth, hheight, hsquare])
      · rw [hy]
        exact .of_answer h hfits (hlength.trans hheight)
      · rw [hsingular]
        exact .of_other h hfits (List.mem_singleton.mpr rfl) nofun nofun
    · rw [Grid.solve, if_neg (by simp [hb, hheight]), if_pos (by rwa [hwidth, hheight])]
      exact .of_misfit h (.inr hsquare) rfl
  · rw [Grid.solve, if_pos (by rwa [hheight])]
    exact .of_misfit h (.inl hb) rfl

/-- A residual of a matrix that fits the vector is answered, or refused without a
mismatch. -/
theorem residual_cases (h : EqualLengths rows) (hx : columns rows = x.length) :
    ((b.length = rows.length ∨ rows.length = 1 ∨ b.length = 1) ∧
      ∃ r, (ofRows rows).residual (ofEntries x) (ofEntries b) = .ok r ∧
        r.length = if rows.length = 1 then b.length else rows.length) ∨
      (b.length ≠ rows.length ∧ rows.length ≠ 1 ∧ b.length ≠ 1) ∧
        (ofRows rows).residual (ofEntries x) (ofEntries b) = .error .irregular := by
  obtain ⟨A, hA, hheight, hwidth⟩ := ofRows_of_equalLengths h
  have hrun : (ofRows rows).residual (ofEntries x) (ofEntries b) = A.residual x b := by
    rw [residual_ofRows, hA]
    rfl
  rw [hrun, ← hheight]
  by_cases hb : b.length = A.height ∨ A.height = 1 ∨ b.length = 1
  · exact .inl ⟨hb, Grid.exists_residual (hwidth.trans hx) hb⟩
  · obtain ⟨hne, hone, hone'⟩ : b.length ≠ A.height ∧ A.height ≠ 1 ∧ b.length ≠ 1 := by
      simpa only [not_or] using hb
    exact .inr ⟨⟨hne, hone, hone'⟩,
      Grid.residual_eq_irregular (hwidth.trans hx) hne hone hone'⟩

/-- Nothing but a mismatch is found out before the right-hand side is looked at. -/
theorem residual_refused (h : EqualLengths rows → columns rows ≠ x.length) :
    ShapeContract rows (columns rows ≠ x.length ∨ b.length ≠ rows.length) []
      ((ofRows rows).residual (ofEntries x) (ofEntries b)) := by
  rw [residual_ofRows]
  refine .of_grid fun hrows A hheight hwidth => ?_
  have hproduct : A.mulVec x = .error (.vectorLength A.height A.width x.length) :=
    if_neg (by rw [hwidth]; exact h hrows)
  rw [Grid.residual, hproduct]
  exact .of_misfit hrows (.inl (h hrows)) rfl

/-- A residual keeps the contract exactly where its right-hand side has an entry for each
row, or something before it does not fit. -/
theorem residual_contract_iff (rows : List (List Binary64)) (x b : List Binary64) :
    ShapeContract rows (columns rows ≠ x.length ∨ b.length ≠ rows.length) []
        ((ofRows rows).residual (ofEntries x) (ofEntries b)) ↔
      (EqualLengths rows → columns rows = x.length → b.length = rows.length) := by
  refine ⟨fun contract h hx => ?_, fun hfits => ?_⟩
  · by_contra hb
    obtain ⟨e, he, hkind⟩ := (contract.dimension h).mpr (.inr hb)
    obtain ⟨-, r, hr, -⟩ | ⟨-, hirregular⟩ := residual_cases (b := b) h hx
    · cases hr.symm.trans he
    · cases hirregular.symm.trans he
      cases hkind
  · by_cases h : EqualLengths rows ∧ columns rows = x.length
    · have hb := hfits h.1 h.2
      obtain ⟨-, r, hr, hlength⟩ | ⟨⟨hne, -⟩, -⟩ := residual_cases (b := b) h.1 h.2
      · rw [hr]
        refine .of_answer h.1 (by simp [h.2, hb]) ?_
        rw [hlength, hb, ite_self]
      · exact absurd hb hne
    · exact residual_refused fun hrows hx => h ⟨hrows, hx⟩

/-- The product and the solution of a system keep the contract for all lengths, and the
residual exactly where the right-hand side has an entry for each row. Otherwise it is
answered with as many entries as the longer side has, if one side has a single entry, and
refused without a mismatch if neither has. -/
theorem shape_contracts (rows : List (List Binary64)) (x b : List Binary64) :
    ShapeContract rows (columns rows ≠ x.length) [] ((ofRows rows).mulVec (ofEntries x)) ∧
      ShapeContract rows (b.length ≠ rows.length ∨ columns rows ≠ rows.length) [.singularMatrix]
        ((ofRows rows).solve (ofEntries b)) ∧
      (ShapeContract rows (columns rows ≠ x.length ∨ b.length ≠ rows.length) []
          ((ofRows rows).residual (ofEntries x) (ofEntries b)) ↔
        (EqualLengths rows → columns rows = x.length → b.length = rows.length)) ∧
      (EqualLengths rows → columns rows = x.length → b.length ≠ rows.length →
        if rows.length = 1 ∨ b.length = 1 then
          ∃ r, (ofRows rows).residual (ofEntries x) (ofEntries b) = .ok r ∧
            r.length = if rows.length = 1 then b.length else rows.length
        else Refused .unusable ((ofRows rows).residual (ofEntries x) (ofEntries b))) := by
  refine ⟨mulVec_contract rows x, solve_contract rows b, residual_contract_iff rows x b,
    fun h hx hb => ?_⟩
  obtain ⟨hone, hanswer⟩ | ⟨⟨-, hone, hone'⟩, hirregular⟩ := residual_cases (b := b) h hx
  · rwa [if_pos (hone.resolve_left hb)]
  · rw [if_neg (not_or.mpr ⟨hone, hone'⟩), hirregular]
    exact refused_error.mpr rfl

/-- Two rows and a right-hand side of one entry, which is taken for both. -/
theorem residual_stretches :
    (ofRows [[1, 0], [0, 1]]).residual (ofEntries [1, 1]) (ofEntries [Binary64.ofInt 5]) =
        .ok [Binary64.ofInt (-4), Binary64.ofInt (-4)] ∧
      ¬ ShapeContract [[1, 0], [0, 1]]
        (columns ([[1, 0], [0, 1]] : List (List Binary64)) ≠ ([1, 1] : List Binary64).length ∨
          [Binary64.ofInt 5].length ≠ ([[1, 0], [0, 1]] : List (List Binary64)).length) []
        ((ofRows [[1, 0], [0, 1]]).residual (ofEntries [1, 1]) (ofEntries [Binary64.ofInt 5])) := by
  refine ⟨?_, fun contract => ?_⟩
  · decide +kernel
  · have hb := (residual_contract_iff _ _ _).mp contract (by decide +kernel) rfl
    cases hb

end Nested

end Bellman
