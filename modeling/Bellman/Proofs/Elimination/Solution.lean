import Bellman.Proofs.Elimination.Stage
import Mathlib.Algebra.BigOperators.Fin
import Mathlib.LinearAlgebra.Matrix.NonsingularInverse
import Mathlib.Tactic.FieldSimp
import Mathlib.Tactic.Ring

/-!
# An elimination gives the solution of its system

Over the rational numbers no step of an elimination changes which vectors solve the
system. The invariant is an equivalence: a vector solves the equations that are left
exactly when it is what the recorded pivots give, from the last to the first. With it an
answer is the only solution of the system that was asked for, so the matrix is
invertible; and since a pivot is the only thing that can be refused, a matrix that is not
invertible is refused for its pivot.
-/

namespace Bellman

section Dot

variable {K : Type}

/-- A list of a known length as a vector. -/
theorem exists_eq_ofFn {n : Nat} {xs : List K} (h : xs.length = n) :
    ∃ v : Fin n → K, xs = List.ofFn v :=
  ⟨fun i => xs.get (i.cast h.symm), List.ext_getElem (by simp [h]) fun i _ _ => by simp⟩

variable [Field K]

theorem dot_eq_sum (xs ys : List K) : dot xs ys = (List.zipWith (· * ·) xs ys).sum :=
  List.sum_eq_foldl.symm

@[simp] theorem dot_nil_left (ys : List K) : dot [] ys = 0 := by
  simp [dot_eq_sum]

@[simp] theorem dot_cons (x y : K) (xs ys : List K) :
    dot (x :: xs) (y :: ys) = x * y + dot xs ys := by
  simp [dot_eq_sum]

/-- A product with a difference of two rows, one of them scaled. -/
theorem dot_sub_mul (m : K) {as ps : List K} (h : as.length = ps.length) (xs : List K) :
    dot (List.zipWith (fun a p => a - m * p) as ps) xs = dot as xs - m * dot ps xs := by
  induction as generalizing ps xs with
  | nil =>
      rw [List.length_eq_zero_iff.mp h.symm]
      simp
  | cons a as ih =>
      cases ps with
      | nil => cases h
      | cons p ps =>
          cases xs with
          | nil => simp [dot_eq_sum]
          | cons x xs =>
              rw [List.zipWith_cons_cons, dot_cons, dot_cons, dot_cons, ih (by simpa using h)]
              ring

theorem dot_ofFn {n : Nat} (a x : Fin n → K) :
    dot (List.ofFn a) (List.ofFn x) = ∑ i, a i * x i := by
  induction n with
  | zero => simp
  | succ n ih =>
      rw [List.ofFn_succ, List.ofFn_succ, dot_cons, ih, Fin.sum_univ_succ]

end Dot

namespace Elimination

section Stages

variable {α : Type} [Zero α] [Sub α] [Mul α] [Div α]

theorem backSubstitute_cons [Add α] (s : Stage α) (ss : List (Stage α)) :
    backSubstitute (s :: ss) =
      (s.pivot.rightSide - dot s.pivot.coefficients.tail (backSubstitute ss)) / lead s.pivot ::
        backSubstitute ss := rfl

theorem length_backSubstitute [Add α] (ss : List (Stage α)) :
    (backSubstitute ss).length = ss.length := by
  induction ss with
  | nil => rfl
  | cons s ss ih => exact congrArg (· + 1) ih

variable [Pivoting α] {n column : Nat} {rs : List (Equation α)} {ss : List (Stage α)}

theorem length_remaining (r : Equation α) (rs : List (Equation α)) :
    (remaining r rs).length = rs.length := by
  simpa [remaining] using (chosen_spec r rs).2.length_eq

/-- One stage is recorded for each unknown. -/
theorem length_stages (h : stages n column rs = .ok ss) (hrs : rs.length = n) :
    ss.length = n := by
  induction n generalizing column rs ss with
  | zero =>
      cases h
      rfl
  | succ n ih =>
      cases rs with
      | nil => cases hrs
      | cons r rs =>
          obtain ⟨-, rest, rfl, hrest⟩ := stages_succ_cons_ok h
          have hleft : (remaining r rs).length = n := by
            simpa [length_remaining] using hrs
          exact congrArg (· + 1) (ih hrest hleft)

/-- The pivots that are recorded have been accepted. -/
theorem negligible_of_mem_stages (h : stages n column rs = .ok ss) :
    ∀ s ∈ ss, Pivoting.negligible (lead s.pivot) = false := by
  induction n generalizing column rs ss with
  | zero =>
      cases h
      exact fun s hs => absurd hs List.not_mem_nil
  | succ n ih =>
      cases rs with
      | nil =>
          cases h
          exact fun s hs => absurd hs List.not_mem_nil
      | cons r rs =>
          obtain ⟨haccepted, rest, rfl, hrest⟩ := stages_succ_cons_ok h
          exact List.forall_mem_cons.mpr ⟨haccepted, ih hrest⟩

/-- An elimination that stops has met a pivot that it refuses, and nothing else. -/
theorem exists_singular_of_stages {e : KernelError α} (h : stages n column rs = .error e) :
    ∃ pivot c, e = .singular pivot c := by
  induction n generalizing column rs with
  | zero => cases h
  | succ n ih =>
      cases rs with
      | nil => cases h
      | cons r rs =>
          rw [stages_succ_cons] at h
          split at h
          · cases h
            exact ⟨_, _, rfl⟩
          · cases hrest : stages n (column + 1) (remaining r rs) with
            | ok rest =>
                rw [hrest] at h
                cases h
            | error e' =>
                rw [hrest] at h
                cases h
                exact ih hrest

end Stages

section Field

variable {K : Type} [Field K] {n : Nat}

/-- A vector makes the two sides of an equation equal. -/
def Holds (r : Equation K) (x : List K) : Prop :=
  dot r.coefficients x = r.rightSide

/-- As many equations as unknowns. -/
structure Square (n : Nat) (rs : List (Equation K)) : Prop where
  length_eq : rs.length = n
  coefficients : ∀ r ∈ rs, r.coefficients.length = n

theorem dot_coefficients {r : Equation K} (h : r.coefficients.length = n + 1) (x : K)
    (xs : List K) :
    dot r.coefficients (x :: xs) = lead r * x + dot r.coefficients.tail xs := by
  cases hr : r.coefficients with
  | nil => rw [hr] at h; cases h
  | cons a as => simp [lead, hr]

/-- What an equation makes of a vector, put together from what it makes without its
first unknown and from what the pivot makes. -/
theorem dot_withoutLead {p s : Equation K} (hp : p.coefficients.length = n + 1)
    (hs : s.coefficients.length = n + 1) (hpivot : lead p ≠ 0) (x : K) (xs : List K) :
    dot s.coefficients (x :: xs) =
      dot (withoutLead p s).coefficients xs +
        lead s / lead p * dot p.coefficients (x :: xs) := by
  have htails : s.coefficients.tail.length = p.coefficients.tail.length := by
    rw [List.length_tail, List.length_tail, hs, hp]
  have hreduced : dot (withoutLead p s).coefficients xs =
      dot s.coefficients.tail xs - lead s / lead p * dot p.coefficients.tail xs :=
    dot_sub_mul _ htails xs
  rw [hreduced, dot_coefficients hs, dot_coefficients hp]
  field_simp
  ring

/-- Where the pivot holds, an equation holds exactly when it holds without its first
unknown. -/
theorem holds_withoutLead {p s : Equation K} (hp : p.coefficients.length = n + 1)
    (hs : s.coefficients.length = n + 1) (hpivot : lead p ≠ 0) {x : K} {xs : List K}
    (h : Holds p (x :: xs)) : Holds (withoutLead p s) xs ↔ Holds s (x :: xs) := by
  have hdot := dot_withoutLead hp hs hpivot x xs
  have hright : s.rightSide =
      (withoutLead p s).rightSide + lead s / lead p * p.rightSide := by
    change _ = s.rightSide - lead s / lead p * p.rightSide + _
    ring
  unfold Holds at h ⊢
  rw [hdot, h, hright, add_left_inj]

/-- The pivot holds exactly when the first unknown is what it gives. -/
theorem holds_pivot_iff {p : Equation K} (hp : p.coefficients.length = n + 1)
    (hpivot : lead p ≠ 0) (x : K) (xs : List K) :
    Holds p (x :: xs) ↔ x = (p.rightSide - dot p.coefficients.tail xs) / lead p := by
  rw [Holds, dot_coefficients hp, eq_div_iff hpivot, eq_sub_iff_add_eq, mul_comm]

variable [Pivoting K]

/-- A column leaves one equation and one unknown less. -/
theorem Square.remaining {r : Equation K} {rs : List (Equation K)}
    (h : Square (n + 1) (r :: rs)) : Square n (Elimination.remaining r rs) := by
  have hpivot := h.coefficients _ (mem_chosen.mpr (.inl rfl))
  constructor
  · simpa [length_remaining] using h.length_eq
  · intro s hs
    obtain ⟨t, ht, rfl⟩ := List.mem_map.mp hs
    have htail := h.coefficients _ (mem_chosen.mpr (.inr ht))
    simp [withoutLead, reduce, htail, hpivot]

end Field

/-- A pivot that is not negligible can be divided by. -/
theorem ne_zero_of_not_negligible {x : ℚ} (h : Pivoting.negligible x = false) : x ≠ 0 := by
  rintro rfl
  have hpos : (0 : ℚ) < pivotTolerance.toRat := by decide +kernel
  have hneg : Pivoting.negligible (0 : ℚ) = true := decide_eq_true hpos
  exact Bool.false_ne_true (h.symm.trans hneg)

section Rational

variable {n column : Nat} {rs : List (Equation ℚ)} {ss : List (Stage ℚ)}

/-- The invariant of an elimination: a vector solves the equations that are left exactly
when it is what the recorded pivots give. -/
theorem holds_iff_eq_backSubstitute (h : stages n column rs = .ok ss) (hrs : Square n rs)
    {x : List ℚ} (hx : x.length = n) :
    (∀ r ∈ rs, Holds r x) ↔ x = backSubstitute ss := by
  induction n generalizing column rs ss x with
  | zero =>
      cases h
      rw [List.length_eq_zero_iff.mp hrs.length_eq, List.length_eq_zero_iff.mp hx]
      simp [backSubstitute]
  | succ n ih =>
      cases rs with
      | nil => cases hrs.length_eq
      | cons r rs =>
          obtain ⟨haccepted, rest, rfl, hrest⟩ := stages_succ_cons_ok h
          have hpivot := ne_zero_of_not_negligible haccepted
          have hlen (s : Equation ℚ) (hs : s = (chosen r rs).1 ∨ s ∈ (chosen r rs).2) :
              s.coefficients.length = n + 1 := hrs.coefficients s (mem_chosen.mpr hs)
          have hfirst := hlen _ (.inl rfl)
          cases x with
          | nil => cases hx
          | cons y ys =>
              have hleft : (∀ s ∈ remaining r rs, Holds s ys) ↔ ys = backSubstitute rest :=
                ih hrest hrs.remaining (by simpa using hx)
              have hchosen : (∀ s ∈ r :: rs, Holds s (y :: ys)) ↔
                  Holds (chosen r rs).1 (y :: ys) ∧
                    ∀ s ∈ (chosen r rs).2, Holds s (y :: ys) := by
                simp only [mem_chosen, forall_eq_or_imp]
              have hothers (hp : Holds (chosen r rs).1 (y :: ys)) :
                  (∀ s ∈ (chosen r rs).2, Holds s (y :: ys)) ↔ ys = backSubstitute rest := by
                rw [← hleft, remaining, List.forall_mem_map]
                exact forall₂_congr fun s hs =>
                  (holds_withoutLead hfirst (hlen s (.inr hs)) hpivot hp).symm
              rw [hchosen, and_congr_right hothers, holds_pivot_iff hfirst hpivot]
              change _ ↔ y :: ys = _ :: backSubstitute rest
              rw [List.cons_eq_cons, and_congr_left]
              rintro rfl
              rfl

end Rational

end Elimination

namespace Grid

variable {α : Type} {m n : Nat}

theorem eq_of_rows {A B : Grid α} (hrows : A.rows = B.rows) (hwidth : A.width = B.width) :
    A = B := by
  cases A
  cases B
  cases hrows
  cases hwidth
  rfl

/-- A matrix as a grid of its rows. -/
def ofMatrix (A : Matrix (Fin m) (Fin n) α) : Grid α where
  rows := List.ofFn fun i => List.ofFn (A i)
  width := n
  regular := by simp

theorem height_ofMatrix (A : Matrix (Fin m) (Fin n) α) : (ofMatrix A).height = m :=
  List.length_ofFn

/-- Every grid is the grid of a matrix. -/
theorem exists_eq_ofMatrix (A : Grid α) :
    ∃ M : Matrix (Fin A.height) (Fin A.width) α, A = ofMatrix M := by
  have hrow (i : Fin A.height) : (A.rows.get i).length = A.width :=
    A.regular _ (List.get_mem ..)
  refine ⟨fun i j => (A.rows.get i).get (j.cast (hrow i).symm), eq_of_rows ?_ rfl⟩
  refine List.ext_getElem (by simp [ofMatrix, height]) fun i hi _ => ?_
  refine List.ext_getElem ((hrow ⟨i, hi⟩).trans (by simp [ofMatrix])) fun j _ _ => ?_
  simp only [ofMatrix, List.getElem_ofFn]
  rfl

open Elimination

/-- The equations of a matrix and a right-hand side, one for each row. -/
theorem equations_ofMatrix (A : Matrix (Fin m) (Fin n) α) (b : Fin m → α) :
    equations (ofMatrix A).rows (List.ofFn b) =
      List.ofFn fun i => ⟨List.ofFn (A i), b i⟩ := by
  refine List.ext_getElem (by simp [equations, ofMatrix]) fun i _ _ => ?_
  simp [equations, ofMatrix]

theorem square_equations (A : Matrix (Fin n) (Fin n) ℚ) (b : Fin n → ℚ) :
    Square n (equations (ofMatrix A).rows (List.ofFn b)) := by
  rw [equations_ofMatrix]
  constructor
  · simp
  · intro r hr
    obtain ⟨i, rfl⟩ := List.mem_ofFn.mp hr
    simp

/-- A vector solves the equations of a system exactly when the matrix takes it to the
right-hand side. -/
theorem holds_equations_iff (A : Matrix (Fin n) (Fin n) ℚ) (b x : Fin n → ℚ) :
    (∀ r ∈ equations (ofMatrix A).rows (List.ofFn b), Holds r (List.ofFn x)) ↔
      A.mulVec x = b := by
  rw [equations_ofMatrix, funext_iff, List.forall_mem_ofFn_iff]
  exact forall_congr' fun i => by rw [Holds, dot_ofFn]; rfl

section Solve

variable [Zero α] [Add α] [Sub α] [Mul α] [Div α] [Pivoting α]

/-- A system as large as its right-hand side is eliminated at once. -/
theorem solve_ofMatrix (A : Matrix (Fin n) (Fin n) α) (b : Fin n → α) :
    (ofMatrix A).solve (List.ofFn b) =
      (stages n 0 (equations (ofMatrix A).rows (List.ofFn b))).map backSubstitute := by
  rw [solve, height_ofMatrix, if_neg (by simp), if_neg (by simp [ofMatrix])]

/-- An answer has an entry for each unknown. -/
theorem length_of_solve {A : Matrix (Fin n) (Fin n) α} {b : Fin n → α} {x : List α}
    (h : (ofMatrix A).solve (List.ofFn b) = .ok x) : x.length = n := by
  rw [solve_ofMatrix] at h
  cases hstages : stages n 0 (equations (ofMatrix A).rows (List.ofFn b)) with
  | error e =>
      rw [hstages] at h
      cases h
  | ok ss =>
      rw [hstages] at h
      cases h
      have hlen : (equations (ofMatrix A).rows (List.ofFn b)).length = n := by
        simp [equations_ofMatrix]
      exact (length_backSubstitute ss).trans (length_stages hstages hlen)

/-- No answer means that a pivot was refused. -/
theorem exists_singular_of_solve {A : Matrix (Fin n) (Fin n) α} {b : Fin n → α}
    {e : KernelError α} (h : (ofMatrix A).solve (List.ofFn b) = .error e) :
    ∃ pivot column, e = .singular pivot column := by
  rw [solve_ofMatrix] at h
  cases hstages : stages n 0 (equations (ofMatrix A).rows (List.ofFn b)) with
  | ok ss =>
      rw [hstages] at h
      cases h
  | error e' =>
      rw [hstages] at h
      cases h
      exact exists_singular_of_stages hstages

end Solve

/-- An answer is the only solution of the system. -/
theorem mulVec_eq_iff_of_solve {A : Matrix (Fin n) (Fin n) ℚ} {b : Fin n → ℚ} {x : List ℚ}
    (h : (ofMatrix A).solve (List.ofFn b) = .ok x) (w : Fin n → ℚ) :
    A.mulVec w = b ↔ List.ofFn w = x := by
  rw [solve_ofMatrix] at h
  cases hstages : stages n 0 (equations (ofMatrix A).rows (List.ofFn b)) with
  | error e =>
      rw [hstages] at h
      cases h
  | ok ss =>
      rw [hstages] at h
      cases h
      rw [← holds_equations_iff]
      exact holds_iff_eq_backSubstitute hstages (square_equations A b) List.length_ofFn

/-- An answer has an entry for each unknown, and the matrix takes it to the right-hand
side. -/
theorem exists_mulVec_eq_of_solve {A : Matrix (Fin n) (Fin n) ℚ} {b : Fin n → ℚ}
    {x : List ℚ} (h : (ofMatrix A).solve (List.ofFn b) = .ok x) :
    ∃ v, x = List.ofFn v ∧ A.mulVec v = b := by
  obtain ⟨v, rfl⟩ := exists_eq_ofFn (length_of_solve h)
  exact ⟨v, rfl, (mulVec_eq_iff_of_solve h v).mpr rfl⟩

/-- Only an invertible matrix gets an answer. -/
theorem isUnit_of_solve {A : Matrix (Fin n) (Fin n) ℚ} {b : Fin n → ℚ} {x : List ℚ}
    (h : (ofMatrix A).solve (List.ofFn b) = .ok x) : IsUnit A := by
  obtain ⟨v, hx, hv⟩ := exists_mulVec_eq_of_solve h
  rw [← Matrix.mulVec_injective_iff_isUnit]
  intro u w huw
  -- Adding the difference of two preimages to the answer gives an answer again.
  have hsum : A.mulVec (v + (u - w)) = b := by
    change A.mulVec u = A.mulVec w at huw
    rw [Matrix.mulVec_add, Matrix.mulVec_sub, huw, hv, sub_self, add_zero]
  have heq := (mulVec_eq_iff_of_solve h _).mp hsum
  rw [hx, List.ofFn_inj, add_eq_left, sub_eq_zero] at heq
  exact heq

/-- Elimination is correct over the rational numbers, for systems of every size. What it
returns solves the equations as they were given and nothing else does, so rearranging the
equations leaves an answer as it is. A matrix that is not invertible is refused. -/
theorem solve_unique_or_singular (A : Matrix (Fin n) (Fin n) ℚ) (b : Fin n → ℚ) :
    (∀ x, (ofMatrix A).solve (List.ofFn b) = .ok x →
      IsUnit A ∧ ∃ v, x = List.ofFn v ∧ A.mulVec v = b ∧
        (∀ w, A.mulVec w = b → w = v) ∧
        ∀ (σ : Equiv.Perm (Fin n)) (y : List ℚ),
          (ofMatrix (A.submatrix σ id)).solve (List.ofFn (b ∘ σ)) = .ok y → y = x) ∧
    (¬ IsUnit A →
      ∃ pivot column,
        (ofMatrix A).solve (List.ofFn b) = .error (.singular pivot column)) := by
  constructor
  · intro x h
    obtain ⟨v, hx, hv⟩ := exists_mulVec_eq_of_solve h
    have hunique (w : Fin n → ℚ) (hw : A.mulVec w = b) : w = v :=
      List.ofFn_injective (((mulVec_eq_iff_of_solve h w).mp hw).trans hx)
    refine ⟨isUnit_of_solve h, v, hx, hv, hunique, ?_⟩
    intro σ y hy
    obtain ⟨w, rfl, hw⟩ := exists_mulVec_eq_of_solve hy
    have hback : A.mulVec w = b := by
      funext i
      have hi := congrFun hw (σ.symm i)
      simpa [Matrix.mulVec, dotProduct] using hi
    rw [hunique w hback, hx]
  · intro hA
    cases h : (ofMatrix A).solve (List.ofFn b) with
    | ok x => exact absurd (isUnit_of_solve h) hA
    | error e =>
        obtain ⟨pivot, column, rfl⟩ := exists_singular_of_solve h
        exact ⟨pivot, column, rfl⟩

/-- A system whose first column begins with a zero, so that rows have to change places. -/
theorem solve_after_exchange :
    (ofMatrix !![0, 2; 3, 1]).solve (List.ofFn ![4, 5]) = .ok [(1 : ℚ), 2] ∧
      IsUnit (!![0, 2; 3, 1] : Matrix (Fin 2) (Fin 2) ℚ) := by
  have h : (ofMatrix !![0, 2; 3, 1]).solve (List.ofFn ![4, 5]) = .ok [(1 : ℚ), 2] := by
    decide +kernel
  exact ⟨h, ((solve_unique_or_singular _ _).1 _ h).1⟩

end Grid

end Bellman
