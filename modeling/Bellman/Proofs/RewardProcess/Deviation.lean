import Bellman.Proofs.Display.Shown
import Bellman.Proofs.Rounding.Order
import Bellman.RewardProcess.Check

/-!
# Deviations

The deviations of the rows of a check are differences of finite doubles. So each has a place in
the order of doubles, and the largest one is below a bound exactly when all of them are. A
deviation between numbers that are shown as one text is below the tolerance: the text writes one
number, and both are close to it.
-/

namespace Bellman

namespace RewardProcess

open Binary64

variable {x y : Binary64} {xs : List Binary64}

theorem isFinite_residualTolerance : residualTolerance.isFinite = true := by
  decide +kernel

/-- Doubles as close as this differ by less than the tolerance. -/
theorem lt_residualTolerance_of_near (hx : x.isFinite = true) (hy : y.isFinite = true)
    (h : |x.toRat - y.toRat| < 2 ^ (-33 : ℤ)) : (x - y).abs.lt residualTolerance = true := by
  have hsmall : (x - y).isFinite = true ∧ |(x - y).toRat| ≤ 2 ^ (-33 : ℤ) := by
    rcases sub_eq hx hy with ⟨s, hs⟩ | hsub
    · rw [hs, toRat_signedZero, abs_zero]
      exact ⟨rfl, by positivity⟩
    · rw [hsub]
      exact abs_toRat_ofRat_le (by decide) (by decide) h
  have htolerance : (2 : ℚ) ^ (-33 : ℤ) < residualTolerance.toRat := by decide +kernel
  rw [lt_iff_toRat_lt ((isFinite_abs _).trans hsmall.1) isFinite_residualTolerance, toRat_abs]
  exact hsmall.2.trans_lt htolerance

/-- Numbers that are shown as one text differ by less than the tolerance. -/
theorem lt_residualTolerance_of_same_text {text : String} (hx : Display.number x = .ok text)
    (hy : Display.number y = .ok text) : (x - y).abs.lt residualTolerance = true := by
  have hfinite := Display.isFinite_of_number hx
  have hfinite' := Display.isFinite_of_number hy
  have haccurate {z : Binary64} (hz : Display.number z = .ok text) :
      Display.Accurate z 10 text.toList := by
    obtain ⟨other, hother, h⟩ := Display.exists_accurate (Display.isFinite_of_number hz)
      (show 0 < 10 by decide)
    rwa [Except.ok.inj (hz.symm.trans hother)]
  obtain ⟨p, hp, hxp⟩ := haccurate hx
  obtain ⟨q, hq, hyq⟩ := haccurate hy
  obtain rfl := hp.unique hq
  apply lt_residualTolerance_of_near hfinite hfinite'
  have htolerance : max (10 ^ (-12 : ℤ)) (1 / 2 * 10 ^ (-(10 : ℕ) : ℤ)) < (2 ^ (-34 : ℤ) : ℚ) := by
    norm_num
  calc |x.toRat - y.toRat| ≤ |x.toRat - p| + |p - y.toRat| := abs_sub_le _ _ _
    _ < 2 ^ (-34 : ℤ) + 2 ^ (-34 : ℤ) := by
      rw [abs_sub_comm x.toRat]
      exact add_lt_add (hxp.trans_lt htolerance) (hyq.trans_lt htolerance)
    _ = 2 ^ (-33 : ℤ) := by norm_num

theorem larger_spec (hx : x.isNaN = false) (hy : y.isNaN = false) :
    (larger x y = x ∨ larger x y = y) ∧ x.rank ≤ (larger x y).rank ∧
      y.rank ≤ (larger x y).rank := by
  unfold larger
  rw [if_neg (by simp [hx]), if_neg (by simp [hy])]
  split
  next h => exact ⟨.inr rfl, ((lt_iff_rank_lt hx hy).mp h).le, le_rfl⟩
  next h =>
    rw [Bool.not_eq_true, lt_eq_false_iff_rank_le hx hy] at h
    exact ⟨.inl rfl, le_rfl, h⟩

/-- What is kept of the numbers so far is one of them, and none is larger. -/
theorem foldl_larger_spec {m : Binary64} (hm : m.isNaN = false)
    (hxs : ∀ x ∈ xs, x.isNaN = false) :
    (xs.foldl (fun m x => larger m x.abs) m = m ∨
        xs.foldl (fun m x => larger m x.abs) m ∈ xs.map abs) ∧
      m.rank ≤ (xs.foldl (fun m x => larger m x.abs) m).rank ∧
      ∀ x ∈ xs, x.abs.rank ≤ (xs.foldl (fun m x => larger m x.abs) m).rank := by
  induction xs generalizing m with
  | nil => exact ⟨.inl rfl, le_rfl, List.forall_mem_nil _⟩
  | cons x xs ih =>
      rw [List.forall_mem_cons] at hxs
      obtain ⟨hchoice, hleft, hright⟩ := larger_spec hm ((isNaN_abs x).trans hxs.1)
      have hnan : (larger m x.abs).isNaN = false := by
        rcases hchoice with h | h
        · rw [h, hm]
        · rw [h, isNaN_abs, hxs.1]
      obtain ⟨hmember, hle, hall⟩ := ih hnan hxs.2
      rw [List.foldl_cons, List.map_cons, List.mem_cons, List.forall_mem_cons]
      refine ⟨?_, hleft.trans hle, hright.trans hle, hall⟩
      rcases hmember with h | h
      · rw [h]
        exact hchoice.imp id .inl
      · exact .inr (.inr h)

/-- The largest magnitude of some numbers is one of the magnitudes, and none is larger. -/
theorem largest_spec (hne : xs ≠ []) (hxs : ∀ x ∈ xs, x.isNaN = false) :
    largest xs ∈ xs.map abs ∧ ∀ x ∈ xs, (largest xs).lt x.abs = false := by
  obtain ⟨hmember, -, hall⟩ := foldl_larger_spec (m := 0) rfl hxs
  have hmem : largest xs ∈ xs.map abs := by
    rcases hmember with hzero | hmem
    · obtain ⟨x, hx⟩ := List.exists_mem_of_ne_nil xs hne
      have hle := hall x hx
      rw [hzero] at hle
      rw [largest, hzero, ← abs_eq_zero_of_rank_le (hxs x hx) hle]
      exact List.mem_map_of_mem hx
    · exact hmem
  have hnan : (largest xs).isNaN = false := by
    obtain ⟨x, hx, h⟩ := List.mem_map.mp hmem
    rw [← h, isNaN_abs, hxs x hx]
  refine ⟨hmem, fun x hx => ?_⟩
  exact (lt_eq_false_iff_rank_le hnan ((isNaN_abs x).trans (hxs x hx))).mpr (hall x hx)

/-- The largest magnitude is below a bound exactly when all are. -/
theorem largest_lt_iff {bound : Binary64} (hne : xs ≠ []) (hxs : ∀ x ∈ xs, x.isNaN = false)
    (hbound : bound.isNaN = false) :
    (largest xs).lt bound = true ↔ ∀ x ∈ xs, x.abs.lt bound = true := by
  obtain ⟨hmem, hall⟩ := largest_spec hne hxs
  obtain ⟨y, hy, hlargest⟩ := List.mem_map.mp hmem
  have hnan : (largest xs).isNaN = false := by rw [← hlargest, isNaN_abs, hxs y hy]
  constructor
  · intro h x hx
    have hnan' : x.abs.isNaN = false := (isNaN_abs x).trans (hxs x hx)
    rw [lt_iff_rank_lt hnan' hbound]
    exact ((lt_eq_false_iff_rank_le hnan hnan').mp (hall x hx)).trans_lt
      ((lt_iff_rank_lt hnan hbound).mp h)
  · intro h
    rw [← hlargest]
    exact h y hy

end RewardProcess

end Bellman
