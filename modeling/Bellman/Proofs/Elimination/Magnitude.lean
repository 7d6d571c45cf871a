import Bellman.Proofs.Elimination.Solution
import Bellman.Proofs.Rounding.Nearest
import Mathlib.Tactic.Linarith

/-!
# A lower bound for all pivots

Exchanging rows destroys any dominance that a matrix has, so the pivots of an elimination
cannot be bounded row by row. What survives is a bound on the vectors: no vector is taken
to something much smaller than itself. A vector for the equations that are left extends to
one for the equations of the column before, on which the pivot gives zero and the others
give what they gave; and the first column is what the equations make of a unit vector, so
its largest entry, which becomes the pivot, is bounded too.
-/

namespace Bellman.Elimination

open Rounding (ratAbs_eq)

theorem preferred_eq (x y : ℚ) : Pivoting.preferred x y = decide (|y| < |x|) := by
  change decide (y.abs < x.abs) = _
  rw [ratAbs_eq, ratAbs_eq]

theorem negligible_eq (x : ℚ) :
    Pivoting.negligible x = decide (|x| < pivotTolerance.toRat) := by
  change decide (x.abs < _) = _
  rw [ratAbs_eq]

/-- The pivot of a column is as large as any entry of the column. -/
theorem abs_lead_le_chosen {r s : Equation ℚ} {rs : List (Equation ℚ)} (hs : s ∈ r :: rs) :
    |lead s| ≤ |lead (chosen r rs).1| := by
  obtain ⟨i, hi⟩ := List.mem_iff_getElem?.mp hs
  have hmem : (lead s, i) ∈ (lead r, 0) :: (rs.map lead).zipIdx 1 := by
    change _ ∈ ((r :: rs).map lead).zipIdx
    rw [List.mem_zipIdx_iff_getElem?, List.getElem?_map, hi]
    rfl
  have hbest := not_better_choice (fun c best : ℚ × Nat => Pivoting.preferred c.1 best.1)
    (by
      intro a b h
      rw [preferred_eq] at h ⊢
      exact decide_eq_false (not_lt.mpr (le_of_lt (of_decide_eq_true h))))
    (by
      intro a b c hab hbc
      rw [preferred_eq] at hab hbc ⊢
      exact decide_eq_false (not_lt.mpr
        ((not_lt.mp (of_decide_eq_false hab)).trans (not_lt.mp (of_decide_eq_false hbc)))))
    (lead r, 0) ((rs.map lead).zipIdx 1) _ hmem
  rw [preferred_eq] at hbest
  rw [(chosen_spec r rs).1]
  exact not_lt.mp (of_decide_eq_false hbest)

/-- No vector is larger, up to the factor, than the largest value that the equations make
of it. -/
def Magnifies (c : ℚ) (n : Nat) (rs : List (Equation ℚ)) : Prop :=
  ∀ x : List ℚ, x.length = n → ∀ m, 0 ≤ m →
    (∀ r ∈ rs, |dot r.coefficients x| ≤ m) → ∀ y ∈ x, c * |y| ≤ m

theorem dot_replicate_zero (xs : List ℚ) (n : Nat) : dot xs (List.replicate n 0) = 0 := by
  induction n generalizing xs with
  | zero => simp [dot_eq_sum]
  | succ n ih =>
      cases xs with
      | nil => simp
      | cons x xs => rw [List.replicate_succ, dot_cons, ih, mul_zero, zero_add]

variable {c : ℚ} {n : Nat}

/-- The first column is what the equations make of the first unit vector. -/
theorem Magnifies.le_abs_pivot {r : Equation ℚ} {rs : List (Equation ℚ)}
    (h : Magnifies c (n + 1) (r :: rs)) (hrs : Square (n + 1) (r :: rs)) :
    c ≤ |lead (chosen r rs).1| := by
  have hcolumn (s : Equation ℚ) (hs : s ∈ r :: rs) :
      |dot s.coefficients (1 :: List.replicate n 0)| ≤ |lead (chosen r rs).1| := by
    rw [dot_coefficients (hrs.coefficients s hs), dot_replicate_zero, mul_one, add_zero]
    exact abs_lead_le_chosen hs
  simpa using h (1 :: List.replicate n 0) (by simp) _ (abs_nonneg _) hcolumn 1 (by simp)

/-- A column passes the bound on. The vector is extended so that the pivot makes zero of
it; then the other equations make of it what they make without their first unknown. -/
theorem Magnifies.remaining {r : Equation ℚ} {rs : List (Equation ℚ)}
    (h : Magnifies c (n + 1) (r :: rs)) (hrs : Square (n + 1) (r :: rs))
    (hpivot : lead (chosen r rs).1 ≠ 0) : Magnifies c n (remaining r rs) := by
  intro xs hxs m hm hbound
  let p := (chosen r rs).1
  have hlen (s : Equation ℚ) (hs : s = p ∨ s ∈ (chosen r rs).2) :
      s.coefficients.length = n + 1 := hrs.coefficients s (mem_chosen.mpr hs)
  let x := -dot p.coefficients.tail xs / lead p
  have hzero : dot p.coefficients (x :: xs) = 0 := by
    rw [dot_coefficients (hlen p (.inl rfl)), mul_div_cancel₀ _ hpivot, neg_add_cancel]
  have hextended (s : Equation ℚ) (hs : s ∈ r :: rs) :
      |dot s.coefficients (x :: xs)| ≤ m := by
    rcases mem_chosen.mp hs with rfl | hs
    · rw [hzero, abs_zero]
      exact hm
    · rw [dot_withoutLead (hlen p (.inl rfl)) (hlen s (.inr hs)) hpivot, hzero, mul_zero,
        add_zero]
      exact hbound _ (List.mem_map_of_mem hs)
  intro y hy
  exact h (x :: xs) (by simp [hxs]) m hm hextended y (List.mem_cons_of_mem _ hy)

/-- Where the bound is not below the tolerance, no pivot is refused and all of them keep
the bound. -/
theorem Magnifies.exists_stages {rs : List (Equation ℚ)} (h : Magnifies c n rs)
    (hrs : Square n rs) (hc : pivotTolerance.toRat ≤ c) (column : Nat) :
    ∃ ss, stages n column rs = .ok ss ∧ ss.length = n ∧ ∀ s ∈ ss, c ≤ |lead s.pivot| := by
  induction n generalizing column rs with
  | zero => exact ⟨[], rfl, rfl, fun s hs => absurd hs List.not_mem_nil⟩
  | succ n ih =>
      cases rs with
      | nil => cases hrs.length_eq
      | cons r rs =>
          have hbound := h.le_abs_pivot hrs
          have haccepted : Pivoting.negligible (lead (chosen r rs).1) = false := by
            rw [negligible_eq]
            exact decide_eq_false (not_lt.mpr (hc.trans hbound))
          obtain ⟨rest, hrest, hlen, hpivots⟩ := ih
            (h.remaining hrs (ne_zero_of_not_negligible haccepted)) hrs.remaining (column + 1)
          refine ⟨stageOf r rs :: rest, ?_, congrArg (· + 1) hlen, ?_⟩
          · rw [stages_succ_cons, haccepted, if_neg Bool.false_ne_true, hrest]
            rfl
          · intro s hs
            rcases List.mem_cons.mp hs with rfl | hs
            · exact hbound
            · exact hpivots s hs

end Bellman.Elimination
