import Bellman.Proofs.Rounding.Closest
import Mathlib.Order.WithBot

/-!
# The order of doubles and their differences

A double that is a number has a place between the two infinities, and the comparison of doubles
is that of their places. A difference of finite doubles is a number, perhaps an infinite one, and
it is rounded to no more than the power of two above it.
-/

namespace Bellman

open Rounding

namespace Binary64

variable {x y : Binary64}

/-- The place of a double between the infinities. -/
def rank : Binary64 → WithBot (WithTop ℚ)
  | .nan => ⊥
  | .infinity true => ⊥
  | .infinity false => ((⊤ : WithTop ℚ) : WithBot (WithTop ℚ))
  | .finite s m e h => (((Binary64.finite s m e h).toRat : WithTop ℚ) : WithBot (WithTop ℚ))

theorem lt_iff_rank_lt (hx : x.isNaN = false) (hy : y.isNaN = false) :
    x.lt y = true ↔ x.rank < y.rank := by
  cases x with
  | nan => cases hx
  | infinity s =>
      cases y with
      | nan => cases hy
      | infinity t => cases s <;> cases t <;> simp [lt, rank]
      | finite t m e h => cases s <;> simp [lt, rank]
  | finite s m e h =>
      cases y with
      | nan => cases hy
      | infinity t =>
          cases t with
          | true => simp [lt, rank]
          | false => exact iff_of_true rfl (WithBot.coe_lt_coe.mpr (WithTop.coe_lt_top _))
      | finite t m' e' h' => simp [lt, rank]

theorem lt_eq_false_iff_rank_le (hx : x.isNaN = false) (hy : y.isNaN = false) :
    x.lt y = false ↔ y.rank ≤ x.rank := by
  rw [← not_lt, ← lt_iff_rank_lt hx hy, Bool.not_eq_true]

theorem lt_iff_toRat_lt (hx : x.isFinite = true) (hy : y.isFinite = true) :
    x.lt y = true ↔ x.toRat < y.toRat := by
  cases x with
  | nan => cases hx
  | infinity s => cases hx
  | finite s m e h =>
      cases y with
      | nan => cases hy
      | infinity t => cases hy
      | finite t m' e' h' => exact decide_eq_true_iff

@[simp] theorem isNaN_abs (x : Binary64) : x.abs.isNaN = x.isNaN := by
  cases x <;> rfl

theorem toRat_abs (x : Binary64) : x.abs.toRat = |x.toRat| := by
  cases x with
  | nan => exact abs_zero.symm
  | infinity s => exact abs_zero.symm
  | finite s m e h =>
      have hpos : (0 : ℚ) ≤ m * 2 ^ e := by positivity
      cases s with
      | false => exact (abs_of_nonneg hpos).symm
      | true => exact ((abs_neg _).trans (abs_of_nonneg hpos)).symm

theorem rank_zero : rank 0 = (((0 : ℚ) : WithTop ℚ) : WithBot (WithTop ℚ)) :=
  congrArg (fun q : ℚ => ((q : WithTop ℚ) : WithBot (WithTop ℚ))) (toRat_signedZero false)

/-- The magnitude of a double that is at most zero is the zero without a sign. -/
theorem abs_eq_zero_of_rank_le (hx : x.isNaN = false) (h : x.abs.rank ≤ rank 0) : x.abs = 0 := by
  rw [rank_zero] at h
  cases x with
  | nan => cases hx
  | infinity s =>
      exact absurd (top_le_iff.mp (WithBot.coe_le_coe.mp h)) WithTop.coe_ne_top
  | finite s m e hm =>
      have hle : (m : ℚ) * 2 ^ e ≤ 0 := WithTop.coe_le_coe.mp (WithBot.coe_le_coe.mp h)
      have hzero : m = 0 := by
        by_contra hne
        have hpos : (0 : ℚ) < m * 2 ^ e := by positivity
        linarith
      subst hzero
      obtain rfl : e = -1074 := (canonical_iff.mp hm).2.2.2.resolve_left (by decide)
      rfl

theorem isNaN_round (negative : Bool) (q : ℚ) : (round negative q).isNaN = false := by
  unfold round
  dsimp only
  split_ifs <;> rfl

theorem sub_eq (hx : x.isFinite = true) (hy : y.isFinite = true) :
    (∃ s, x - y = signedZero s) ∨ x - y = ofRat (x.toRat - y.toRat) := by
  cases x with
  | nan => cases hx
  | infinity s => cases hx
  | finite s m e h =>
      cases y with
      | nan => cases hy
      | infinity t => cases hy
      | finite t m' e' h' =>
          have hsub : Binary64.finite s m e h - .finite t m' e' h' =
              if (Binary64.finite s m e h).toRat + (-Binary64.finite t m' e' h').toRat = 0 then
                signedZero (s && !t)
              else ofRat ((Binary64.finite s m e h).toRat + (-Binary64.finite t m' e' h').toRat) :=
            rfl
          rw [hsub, toRat_neg, ← sub_eq_add_neg]
          split
          · exact .inl ⟨_, rfl⟩
          · exact .inr rfl

/-- A difference of finite doubles may be infinite, but has a place in the order. -/
theorem isNaN_sub (hx : x.isFinite = true) (hy : y.isFinite = true) : (x - y).isNaN = false := by
  rcases sub_eq hx hy with ⟨s, h⟩ | h
  · rw [h]
    rfl
  · rw [h]
    exact isNaN_round _ _

/-- A number below a power of two is not rounded beyond it. -/
theorem abs_toRat_ofRat_le {q : ℚ} {k : ℤ} (hlow : -1074 ≤ k) (hhigh : k < 1024)
    (h : |q| < 2 ^ k) : (ofRat q).isFinite = true ∧ |(ofRat q).toRat| ≤ 2 ^ k := by
  rw [ofRat, ratAbs_eq]
  rcases (abs_nonneg q).eq_or_lt with hzero | hpos
  · rw [← hzero, round_zero, toRat_signedZero, abs_zero]
    exact ⟨rfl, by positivity⟩
  · have hexponent : binaryExponent |q| < k := by
      have hlt := (binaryExponent_spec hpos).1.trans_lt h
      exact (zpow_lt_zpow_iff_right₀ one_lt_two).mp hlt
    have hplace : lastPlace |q| ≤ k := max_le hlow (by omega)
    have hle : toMultiple (2 ^ lastPlace |q|) |q| ≤ 2 ^ k := by
      have hpower := Numeral.Value.toMultiple_two_zpow hplace 1
      rw [Int.cast_one, one_mul] at hpower
      rw [← hpower]
      exact toMultiple_mono (by positivity) h.le
    have hlimit : (2 : ℚ) ^ k < 2 ^ 1024 := by
      rw [← zpow_natCast]
      exact zpow_lt_zpow_right₀ one_lt_two hhigh
    obtain ⟨m, e, hm, hround, hvalue⟩ := (round_spec (decide (q < 0)) hpos).1 (hle.trans_lt hlimit)
    have habs := toRat_abs (.finite (decide (q < 0)) m e hm)
    rw [hround, ← habs]
    exact ⟨rfl, hvalue.trans_le hle⟩

end Binary64

end Bellman
