import Bellman.Numeral.Magnitude
import Bellman.Proofs.Rounding.Nearest
import Mathlib.Analysis.Complex.ExponentialBounds
import Mathlib.Analysis.SpecialFunctions.Log.Base

/-!
# The common logarithm is accurate

The places of a logarithm come out of bounds that are squared again and again. A square
doubles the relative distance of the bounds, and cutting off what is behind the working
places adds a little more, so the distance at most trebles from place to place; that leaves
the bounds close at the end, as there are more than twice as many working places. When the
bounds no longer agree on a place, the number between them is therefore almost the root of
ten, and the middle that is returned is almost its logarithm.

A number near one has a small logarithm, and the error must be small beside that. The
number of places grows with the nearness to one for this reason.
-/

namespace Bellman.Numeral

open Rounding

/-! ## The distance of the bounds -/

section Distance

variable {unit lower upper low high spread : ℕ}

/-- The distance of the bounds is `spread` units at most for each unit of the lower one,
four of which are spare. -/
def Close (unit spread lower upper : ℕ) : Prop :=
  upper * unit + 4 * lower ≤ lower * unit + spread * lower

/-- Squared bounds are cut off on both sides, and their distance at most trebles. -/
theorem Close.square (h : Close unit spread lower upper) (hunit : 0 < unit)
    (hlower : unit ≤ lower) (hle : lower ≤ upper) (hspread : spread ≤ unit) :
    (upper * upper / unit + 1) * unit + 7 * (lower * lower / unit) ≤
      lower * lower / unit * unit + 3 * spread * (lower * lower / unit) := by
  have hpos : 0 < lower := hunit.trans_le hlower
  have hfour : 4 ≤ spread := by
    refine Nat.le_of_mul_le_mul_right (c := lower) ?_ hpos
    have := Nat.mul_le_mul_right unit hle
    unfold Close at h
    omega
  obtain ⟨d, rfl⟩ := Nat.exists_eq_add_of_le hle
  obtain ⟨a, rfl⟩ := Nat.exists_eq_add_of_le' hfour
  have hd : d * unit ≤ a * lower := by
    unfold Close at h
    linarith
  -- the distance is at most the lower bound, so both bounds together are below three of these
  have hdl : d ≤ lower := by
    refine Nat.le_of_mul_le_mul_right (c := unit) (hd.trans ?_) hunit
    rw [Nat.mul_comm lower]
    exact Nat.mul_le_mul_right _ (by omega)
  set low := lower * lower / unit with hlow
  have hsquare : lower * lower < (low + 1) * unit :=
    (Nat.div_lt_iff_lt_mul hunit).mp (Nat.lt_succ_self low)
  have hmul : d * lower ≤ a * (low + 1) := by
    refine Nat.le_of_mul_le_mul_right (c := unit) ?_ hunit
    calc d * lower * unit = d * unit * lower := by ring
      _ ≤ a * lower * lower := Nat.mul_le_mul_right _ hd
      _ = a * (lower * lower) := by ring
      _ ≤ a * ((low + 1) * unit) := Nat.mul_le_mul_left _ hsquare.le
      _ = a * (low + 1) * unit := by ring
  have hone : unit ≤ low := (Nat.le_div_iff_mul_le hunit).mpr (Nat.mul_le_mul hlower hlower)
  calc ((lower + d) * (lower + d) / unit + 1) * unit + 7 * low
      ≤ (lower + d) * (lower + d) + unit + 7 * low := by
        have := Nat.div_mul_le_self ((lower + d) * (lower + d)) unit
        linarith
    _ = lower * lower + 2 * (d * lower) + d * d + unit + 7 * low := by ring
    _ ≤ lower * lower + 3 * (d * lower) + unit + 7 * low := by
        have := Nat.mul_le_mul_left d hdl
        linarith
    _ ≤ (low + 1) * unit + 3 * (a * (low + 1)) + unit + 7 * low := by linarith
    _ ≤ low * unit + 3 * (a + 4) * low := by
        have : a + 4 ≤ low := hspread.trans hone
        linarith

theorem Close.ofSquare (hspare : high * unit + 7 * low ≤ low * unit + spread * low) :
    Close unit spread low high := by
  unfold Close
  linarith

/-- A tenth of the bounds, cut off on both sides, has the same relative distance but for
what was spare. -/
theorem Close.tenth (hspare : high * unit + 7 * low ≤ low * unit + spread * low)
    (hlow : unit ≤ low / 10) (hspread : spread ≤ unit) :
    Close unit spread (low / 10) (high / 10 + 1) := by
  have hhigh : 10 * (high / 10) ≤ high := Nat.mul_div_le high 10
  have hdiv : low ≤ 10 * (low / 10) + 9 := by omega
  have hdiv' : 10 * (low / 10) ≤ low := Nat.mul_div_le low 10
  set l := low / 10
  set k := high / 10
  have hk : 10 * k * unit ≤ high * unit := Nat.mul_le_mul_right _ hhigh
  have hunit : low * unit ≤ (10 * l + 9) * unit := Nat.mul_le_mul_right _ hdiv
  have hspread' : spread * low ≤ spread * (10 * l + 9) := Nat.mul_le_mul_left _ hdiv
  unfold Close
  refine Nat.le_of_mul_le_mul_left (c := 10) ?_ (by decide)
  calc 10 * ((k + 1) * unit + 4 * l) = 10 * k * unit + 10 * unit + 40 * l := by ring
    _ ≤ (10 * l + 9) * unit + spread * (10 * l + 9) + 10 * unit - 30 * l := by omega
    _ ≤ 10 * (l * unit + spread * l) := by
        have hexp : (10 * l + 9) * unit + spread * (10 * l + 9) =
            10 * (l * unit + spread * l) + 9 * unit + 9 * spread := by ring
        omega

end Distance

/-! ## The bounds enclose a logarithm -/

/-- The bounds, in units of the last working place, enclose a number from one to ten with
the logarithm `l`, and are close together. -/
structure Encloses (working spread lower upper : ℕ) (l : ℝ) : Prop where
  one_le : 2 ^ working ≤ lower
  le : lower ≤ upper
  close : Close (2 ^ working) spread lower upper
  lower_le : Real.logb 10 (lower / 2 ^ working) ≤ l
  le_upper : l ≤ Real.logb 10 (upper / 2 ^ working)
  le_one : l ≤ 1

section Enclosed

variable {working spread lower upper n : ℕ} {l : ℝ}

theorem unit_pos (working : ℕ) : (0 : ℝ) < 2 ^ working := by positivity

theorem logb_le_logb_units (working : ℕ) {m : ℕ} (hm : 0 < m) (h : m ≤ n) :
    Real.logb 10 (m / 2 ^ working) ≤ Real.logb 10 (n / 2 ^ working) := by
  have hcast : (m : ℝ) ≤ n := by exact_mod_cast h
  have hpos : (0 : ℝ) < m := by exact_mod_cast hm
  apply Real.logb_le_logb_of_le (by norm_num) (by positivity)
  gcongr

/-- Ten units count as one. -/
theorem logb_ten_units (working : ℕ) :
    Real.logb 10 ((10 * 2 ^ working : ℕ) / 2 ^ working) = 1 := by
  push_cast
  rw [mul_div_cancel_right₀ _ (unit_pos working).ne']
  exact Real.logb_self_eq_one (by norm_num)

theorem one_le_log_ten : 1 ≤ Real.log 10 := by
  rw [Real.le_log_iff_exp_le (by norm_num)]
  linarith [Real.exp_one_lt_three]

namespace Encloses

theorem lower_pos (h : Encloses working spread lower upper l) : 0 < lower :=
  (Nat.two_pow_pos working).trans_le h.one_le

theorem nonneg (h : Encloses working spread lower upper l) : 0 ≤ l := by
  refine le_trans ?_ h.lower_le
  apply Real.logb_nonneg (by norm_num)
  rw [one_le_div (unit_pos working)]
  exact_mod_cast h.one_le

/-- Both bounds squared and cut off. -/
theorem square (h : Encloses working spread lower upper l) (hspread : spread ≤ 2 ^ working) :
    2 ^ working ≤ lower * lower / 2 ^ working ∧
      lower * lower / 2 ^ working ≤ upper * upper / 2 ^ working + 1 ∧
      (upper * upper / 2 ^ working + 1) * 2 ^ working + 7 * (lower * lower / 2 ^ working) ≤
        lower * lower / 2 ^ working * 2 ^ working + 3 * spread * (lower * lower / 2 ^ working) ∧
      Real.logb 10 ((lower * lower / 2 ^ working : ℕ) / 2 ^ working) ≤ 2 * l ∧
      2 * l ≤ Real.logb 10 ((upper * upper / 2 ^ working + 1 : ℕ) / 2 ^ working) := by
  have hunit : 0 < 2 ^ working := Nat.two_pow_pos working
  have hone : 2 ^ working ≤ lower * lower / 2 ^ working :=
    (Nat.le_div_iff_mul_le hunit).mpr (Nat.mul_le_mul h.one_le h.one_le)
  have hsquares : lower * lower / 2 ^ working ≤ upper * upper / 2 ^ working :=
    Nat.div_le_div_right (Nat.mul_le_mul h.le h.le)
  refine ⟨hone, by omega, h.close.square hunit h.one_le h.le hspread, ?_, ?_⟩
  · have hlow : ((lower * lower / 2 ^ working : ℕ) : ℝ) / 2 ^ working ≤
        (lower / 2 ^ working) ^ 2 := by
      rw [div_pow, sq (2 ^ working : ℝ), ← div_div, sq]
      gcongr
      rw [le_div_iff₀ (unit_pos working)]
      exact_mod_cast Nat.div_mul_le_self (lower * lower) (2 ^ working)
    have hpos : (0 : ℝ) < (lower * lower / 2 ^ working : ℕ) := by
      exact_mod_cast hunit.trans_le hone
    calc Real.logb 10 ((lower * lower / 2 ^ working : ℕ) / 2 ^ working)
        ≤ Real.logb 10 ((lower / 2 ^ working) ^ 2) :=
          Real.logb_le_logb_of_le (by norm_num) (by positivity) hlow
      _ = 2 * Real.logb 10 (lower / 2 ^ working) := by rw [Real.logb_pow]; norm_num
      _ ≤ 2 * l := by linarith [h.lower_le]
  · have hhigh : ((upper : ℝ) / 2 ^ working) ^ 2 ≤
        (upper * upper / 2 ^ working + 1 : ℕ) / 2 ^ working := by
      rw [div_pow, sq (2 ^ working : ℝ), ← div_div, sq]
      gcongr
      rw [div_le_iff₀ (unit_pos working)]
      exact_mod_cast ((Nat.div_lt_iff_lt_mul hunit).mp
        (Nat.lt_succ_self (upper * upper / 2 ^ working))).le
    have hpos : (0 : ℝ) < upper := by exact_mod_cast h.lower_pos.trans_le h.le
    calc 2 * l ≤ 2 * Real.logb 10 (upper / 2 ^ working) := by linarith [h.le_upper]
      _ = Real.logb 10 ((upper / 2 ^ working) ^ 2) := by rw [Real.logb_pow]; norm_num
      _ ≤ _ := Real.logb_le_logb_of_le (by norm_num) (by positivity) hhigh

/-- Where the square lies below ten, its logarithm is twice the logarithm. -/
theorem below_ten (h : Encloses working spread lower upper l) (hspread : spread ≤ 2 ^ working)
    (hten : upper * upper / 2 ^ working + 1 ≤ 10 * 2 ^ working) :
    Encloses working (3 * spread) (lower * lower / 2 ^ working)
      (upper * upper / 2 ^ working + 1) (2 * l) := by
  obtain ⟨hone, hle, hspare, hlow, hhigh⟩ := h.square hspread
  refine ⟨hone, hle, .ofSquare hspare, hlow, hhigh, hhigh.trans ?_⟩
  exact (logb_le_logb_units working (Nat.succ_pos _) hten).trans_eq (logb_ten_units working)

/-- Where the square reaches ten, a tenth of it is between one and ten. -/
theorem from_ten (h : Encloses working spread lower upper l)
    (hspread : 3 * spread ≤ 2 ^ working)
    (hten : 10 * 2 ^ working ≤ lower * lower / 2 ^ working) :
    Encloses working (3 * spread) (lower * lower / 2 ^ working / 10)
      ((upper * upper / 2 ^ working + 1) / 10 + 1) (2 * l - 1) := by
  obtain ⟨-, hle, hspare, hlow, hhigh⟩ := h.square (by omega)
  set low := lower * lower / 2 ^ working
  set high := upper * upper / 2 ^ working + 1
  have hone : 2 ^ working ≤ low / 10 := by omega
  have hpos : (0 : ℝ) < low := by
    exact_mod_cast (Nat.two_pow_pos working).trans_le (show 2 ^ working ≤ low by omega)
  have htenth (x : ℝ) (hx : 0 < x) :
      Real.logb 10 (x / 10 / 2 ^ working) = Real.logb 10 (x / 2 ^ working) - 1 := by
    rw [div_right_comm, Real.logb_div (by positivity) (by norm_num),
      Real.logb_self_eq_one (by norm_num)]
  refine ⟨hone, by omega, Close.tenth hspare hone hspread, ?_, ?_, by linarith [h.le_one]⟩
  · have hcut : ((low / 10 : ℕ) : ℝ) ≤ low / 10 := Nat.cast_div_le
    have hcut₀ : (0 : ℝ) < (low / 10 : ℕ) := by
      exact_mod_cast (Nat.two_pow_pos working).trans_le hone
    calc Real.logb 10 ((low / 10 : ℕ) / 2 ^ working)
        ≤ Real.logb 10 (low / 10 / 2 ^ working) := by
          apply Real.logb_le_logb_of_le (by norm_num) (by positivity)
          gcongr
      _ = Real.logb 10 (low / 2 ^ working) - 1 := htenth low hpos
      _ ≤ 2 * l - 1 := by linarith
  · have hcut : (high : ℝ) / 10 ≤ (high / 10 + 1 : ℕ) := by
      rw [div_le_iff₀ (by norm_num)]
      exact_mod_cast (show high ≤ (high / 10 + 1) * 10 by omega)
    have hhigh₀ : (0 : ℝ) < high := by
      exact_mod_cast (Nat.succ_pos _ : 0 < high)
    calc 2 * l - 1 ≤ Real.logb 10 (high / 2 ^ working) - 1 := by linarith
      _ = Real.logb 10 (high / 10 / 2 ^ working) := (htenth high hhigh₀).symm
      _ ≤ Real.logb 10 ((high / 10 + 1 : ℕ) / 2 ^ working) := by
          apply Real.logb_le_logb_of_le (by norm_num) (by positivity)
          gcongr

/-- Where ten lies between the squares, the logarithm is almost one half: both that of the
square and one, which is that of ten, lie between the logarithms of the bounds. -/
theorem near_root (h : Encloses working spread lower upper l) (hspread : spread ≤ 2 ^ working)
    (hlow : lower * lower / 2 ^ working < 10 * 2 ^ working)
    (hhigh : 10 * 2 ^ working < upper * upper / 2 ^ working + 1) :
    |2 * l - 1| ≤ 3 * spread / 2 ^ working := by
  obtain ⟨hone, -, hspare, hle, hge⟩ := h.square hspread
  set low := lower * lower / 2 ^ working
  set high := upper * upper / 2 ^ working + 1
  have hunit := unit_pos working
  have hlow₀ : 0 < low := (Nat.two_pow_pos working).trans_le hone
  have hpos : (0 : ℝ) < low := by exact_mod_cast hlow₀
  have hhigh₀ : (0 : ℝ) < high := by exact_mod_cast (Nat.succ_pos _ : 0 < high)
  have hten := logb_ten_units working
  have hleft := logb_le_logb_units working hlow₀ hlow.le
  have hright := logb_le_logb_units working (by positivity) hhigh.le
  have hratio : (high : ℝ) / low - 1 ≤ 3 * spread / 2 ^ working := by
    rw [sub_le_iff_le_add, div_le_iff₀ hpos, add_mul, div_mul_eq_mul_div, one_mul,
      ← sub_le_iff_le_add, le_div_iff₀ hunit, sub_mul, sub_le_iff_le_add]
    exact_mod_cast (show high * 2 ^ working ≤ 3 * spread * low + low * 2 ^ working by omega)
  have hwidth : Real.logb 10 (high / 2 ^ working) - Real.logb 10 (low / 2 ^ working) ≤
      3 * spread / 2 ^ working := by
    rw [← Real.logb_div (by positivity) (by positivity), div_div_div_cancel_right₀ hunit.ne']
    calc Real.logb 10 (high / low) ≤ Real.log (high / low) := by
          apply div_le_self _ one_le_log_ten
          apply Real.log_nonneg
          rw [one_le_div hpos]
          exact_mod_cast (hlow.trans hhigh).le
      _ ≤ high / low - 1 := Real.log_le_sub_one_of_pos (by positivity)
      _ ≤ 3 * spread / 2 ^ working := hratio
  rw [hten] at hleft hright
  rw [abs_le]
  constructor <;> linarith

end Encloses

/-! ## The places that come out -/

/-- The places leave an interval, and a number at `l` of its length is as far from the
middle as `l` is from one half. -/
theorem abs_sub_middle_le {places : LogPlaces} {x ε : ℝ}
    (hx : x * 2 ^ places.count = places.bits + l) (hε : |2 * l - 1| ≤ ε) :
    |x - (2 * places.bits + 1) / 2 ^ (places.count + 1)| ≤ ε / 2 ^ (places.count + 1) := by
  have hpos : (0 : ℝ) < 2 ^ (places.count + 1) := by positivity
  have hsplit : x - (2 * places.bits + 1) / 2 ^ (places.count + 1) =
      (2 * l - 1) / 2 ^ (places.count + 1) := by
    rw [eq_div_iff hpos.ne', sub_mul, div_mul_cancel₀ _ hpos.ne', pow_succ, ← mul_assoc, hx]
    ring
  rw [hsplit, abs_div, abs_of_pos hpos]
  gcongr

/-- The middle of the interval that the places leave is off by half its length at most. If
the places end early, it is off by no more than it would have been. -/
theorem abs_sub_logPlaces_le {places : LogPlaces} {x : ℝ} (steps : ℕ)
    (h : Encloses working spread lower upper l)
    (hx : x * 2 ^ places.count = places.bits + l)
    (hspread : 6 * spread * 3 ^ steps ≤ 2 ^ working) :
    let r := logPlaces working steps lower upper places
    |x - (2 * r.bits + 1) / 2 ^ (r.count + 1)| ≤ 1 / 2 ^ (places.count + steps + 1) := by
  induction steps generalizing spread lower upper l places with
  | zero =>
      have hhalf : |2 * l - 1| ≤ 1 := by
        rw [abs_le]
        constructor <;> linarith [h.nonneg, h.le_one]
      exact abs_sub_middle_le hx hhalf
  | succ steps ih =>
      have htreble : 6 * (3 * spread) * 3 ^ steps ≤ 2 ^ working := by
        rw [pow_succ] at hspread
        linarith
      have hspread₃ : 3 * spread ≤ 2 ^ working := by
        refine le_trans ?_ htreble
        rw [mul_comm 6, mul_assoc]
        exact Nat.le_mul_of_pos_right _ (by positivity)
      have hcount : places.count + (steps + 1) + 1 = places.count + 1 + steps + 1 := by ring
      rw [logPlaces, hcount]
      simp only [Nat.shiftRight_eq_div_pow, Nat.shiftLeft_eq]
      split_ifs with hten hbelow
      · refine ih (h.from_ten hspread₃ hten) ?_ htreble
        push_cast
        rw [pow_succ, ← mul_assoc, hx]
        ring
      · refine ih (h.below_ten (by omega) hbelow) ?_ htreble
        push_cast
        rw [pow_succ, ← mul_assoc, hx]
        ring
      · refine (abs_sub_middle_le hx (h.near_root (by omega) (by omega) (by omega))).trans ?_
        have hsmall : (3 * spread / 2 ^ working : ℝ) ≤ 1 / 2 ^ (steps + 1) := by
          rw [div_le_div_iff₀ (unit_pos working) (by positivity), one_mul]
          have hpow : 2 ^ steps ≤ 3 ^ steps := Nat.pow_le_pow_left (by decide) _
          have hle : 3 * spread * 2 ^ (steps + 1) ≤ 2 ^ working := by
            calc 3 * spread * 2 ^ (steps + 1) = 6 * spread * 2 ^ steps := by ring
              _ ≤ 6 * spread * 3 ^ (steps + 1) := by
                  gcongr <;> omega
              _ ≤ 2 ^ working := hspread
          exact_mod_cast hle
        calc (3 * spread / 2 ^ working : ℝ) / 2 ^ (places.count + 1)
            ≤ 1 / 2 ^ (steps + 1) / 2 ^ (places.count + 1) := by gcongr
          _ = 1 / 2 ^ (places.count + 1 + steps + 1) := by
              rw [div_div, ← pow_add]
              congr 2
              ring

end Enclosed

/-! ## The logarithm -/

variable {q : ℚ}

/-- The first bounds: a number from one to ten, cut off after the working places. -/
theorem encloses_floor {x : ℚ} (working : ℕ) (hone : 1 ≤ x) (hten : x < 10) :
    let lower := (x * 2 ^ (working : ℤ)).floor.toNat
    Encloses working 5 lower (lower + 1) (Real.logb 10 x) := by
  have hunit : (0 : ℚ) < 2 ^ working := by positivity
  have hfloor : (0 : ℤ) ≤ ⌊x * 2 ^ (working : ℤ)⌋ := Int.floor_nonneg.mpr (by positivity)
  intro lower
  have hcast : ((lower : ℕ) : ℤ) = ⌊x * 2 ^ (working : ℤ)⌋ := Int.toNat_of_nonneg hfloor
  have hcastq : ((lower : ℕ) : ℚ) = ⌊x * 2 ^ (working : ℤ)⌋ := by exact_mod_cast hcast
  have hlow : (lower : ℚ) ≤ x * 2 ^ working := by
    rw [hcastq, ← zpow_natCast]
    exact Int.floor_le _
  have hhigh : x * 2 ^ working < lower + 1 := by
    rw [hcastq, ← zpow_natCast]
    exact Int.lt_floor_add_one _
  have hone' : 2 ^ working ≤ lower := by
    have hlt : (2 ^ working : ℚ) < lower + 1 := by nlinarith
    have hlt' : 2 ^ working < lower + 1 := by exact_mod_cast hlt
    omega
  have hpos : 0 < lower := (Nat.two_pow_pos working).trans_le hone'
  have hpos' : (0 : ℝ) < lower := by exact_mod_cast hpos
  have hx : (0 : ℝ) < x := by exact_mod_cast one_pos.trans_le hone
  refine ⟨hone', Nat.le_succ _, ?_, ?_, ?_, ?_⟩
  · unfold Close
    linarith
  · apply Real.logb_le_logb_of_le (by norm_num) (by positivity)
    rw [div_le_iff₀ (unit_pos working)]
    exact_mod_cast hlow
  · apply Real.logb_le_logb_of_le (by norm_num) hx
    rw [le_div_iff₀ (unit_pos working)]
    exact_mod_cast hhigh.le
  · have hle : (x : ℝ) ≤ 10 := by exact_mod_cast hten.le
    calc Real.logb 10 x ≤ Real.logb 10 10 := Real.logb_le_logb_of_le (by norm_num) hx hle
      _ = 1 := Real.logb_self_eq_one (by norm_num)

/-- A number that is not one has a logarithm that is not much smaller than its distance
from one. -/
theorem placesNearOne_spec (hq : 0 < q) (hone : q ≠ 1) :
    1 / 2 ^ (placesNearOne q + 5) ≤ |Real.logb 10 q| := by
  have hdist : 0 < |q - 1| := abs_pos.mpr (sub_ne_zero.mpr hone)
  -- the distance from one is at least the last of the places
  have hplace : (1 / 2 ^ placesNearOne q : ℚ) ≤ |q - 1| := by
    refine le_trans ?_ (binaryExponent_spec hdist).1
    rw [placesNearOne, ratAbs_eq, one_div, ← zpow_natCast, ← zpow_neg]
    apply zpow_le_zpow_right₀ one_le_two
    omega
  have hplace' : (1 / 2 ^ placesNearOne q : ℝ) ≤ |(q : ℝ) - 1| := by
    simpa using (Rat.cast_le (K := ℝ)).mpr hplace
  have hsmall : (1 / 2 ^ placesNearOne q : ℝ) ≤ 1 := by
    rw [div_le_one (by positivity)]
    exact one_le_pow₀ one_le_two
  have hq' : (0 : ℝ) < q := by exact_mod_cast hq
  have hlog : 1 / 2 ^ placesNearOne q / 2 ≤ |Real.log q| := by
    rcases lt_or_ge (q : ℝ) 1 with hlt | hge
    · rw [abs_of_neg (by linarith)] at hplace'
      have hle := Real.log_le_sub_one_of_pos hq'
      rw [abs_of_neg (Real.log_neg hq' hlt)]
      linarith
    · rw [abs_of_nonneg (by linarith)] at hplace'
      refine le_trans ?_ (le_abs_self _)
      refine le_trans ?_ (Real.one_sub_inv_le_log_of_pos hq')
      rw [div_le_iff₀ two_pos, sub_mul, le_sub_iff_add_le, ← le_sub_iff_add_le',
        inv_mul_le_iff₀ hq']
      rcases le_total (q : ℝ) 2 with h2 | h2
      · nlinarith
      · nlinarith
  have hten : Real.log 10 ≤ 16 := by
    have := Real.log_le_sub_one_of_pos (show (0 : ℝ) < 10 by norm_num)
    linarith
  rw [Real.logb, abs_div, abs_of_pos (one_pos.trans_le one_le_log_ten),
    le_div_iff₀ (one_pos.trans_le one_le_log_ten)]
  calc 1 / 2 ^ (placesNearOne q + 5) * Real.log 10
      ≤ 1 / 2 ^ (placesNearOne q + 5) * 16 := by gcongr
    _ = 1 / 2 ^ placesNearOne q / 2 := by rw [pow_add]; field_simp; norm_num
    _ ≤ |Real.log q| := hlog

theorem spread_le_working (steps : ℕ) : 6 * 5 * 3 ^ steps ≤ 2 ^ workingPlaces steps := by
  have hpow : 3 ^ steps ≤ 4 ^ steps := Nat.pow_le_pow_left (by decide) _
  have hfour : 4 ^ steps = 2 ^ (2 * steps) := by rw [Nat.pow_mul]
  rw [workingPlaces, pow_add, ← hfour]
  calc 6 * 5 * 3 ^ steps ≤ 2 ^ 64 * 4 ^ steps := by gcongr; decide
    _ = 4 ^ steps * 2 ^ 64 := Nat.mul_comm _ _

section Mantissa

variable (hq : 0 < q)

include hq

/-- A number without its power of ten lies between one and ten. -/
theorem mantissa_mem : 1 ≤ q / 10 ^ decimalExponent q ∧ q / 10 ^ decimalExponent q < 10 := by
  obtain ⟨hlow, hhigh⟩ := decimalExponent_spec hq
  have hten : (0 : ℚ) < 10 ^ decimalExponent q := by positivity
  refine ⟨(one_le_div hten).mpr hlow, ?_⟩
  rw [div_lt_iff₀ hten, ← zpow_one_add₀ (by norm_num), add_comm]
  exact hhigh

theorem logb_eq_add_mantissa :
    Real.logb 10 q = decimalExponent q + Real.logb 10 (q / 10 ^ decimalExponent q : ℚ) := by
  have hq' : (q : ℝ) ≠ 0 := by exact_mod_cast hq.ne'
  push_cast
  rw [Real.logb_div hq' (by positivity), ← Real.rpow_intCast, Real.logb_rpow (by norm_num)
    (by norm_num), add_sub_cancel]

/-- One is a power of ten. -/
theorem ne_one_of_mantissa (hmantissa : q / 10 ^ decimalExponent q ≠ 1) : q ≠ 1 := by
  rintro rfl
  obtain ⟨hlow, hhigh⟩ := decimalExponent_spec hq
  have hpower : (10 : ℚ) ^ (0 : ℤ) = 1 := zpow_zero 10
  have hle := (zpow_le_zpow_iff_right₀ (by norm_num)).mp (hlow.trans_eq hpower.symm)
  have hlt := (zpow_lt_zpow_iff_right₀ (by norm_num)).mp (hpower.trans_lt hhigh)
  have hzero : decimalExponent 1 = 0 := by omega
  simp [hzero] at hmantissa

end Mantissa

/-- The error of the logarithm is small beside the logarithm itself. -/
theorem abs_commonLog_sub_le (hq : 0 < q) :
    |(commonLog q : ℝ) - Real.logb 10 q| ≤ |Real.logb 10 q| / 2 ^ 196 := by
  obtain ⟨hone, hten⟩ := mantissa_mem hq
  have hlog := logb_eq_add_mantissa hq
  have hne := ne_one_of_mantissa hq
  unfold commonLog
  dsimp only
  set k := decimalExponent q
  set x := q / 10 ^ k
  split_ifs with hpower
  · have hzero : Real.logb 10 (x : ℝ) = 0 := by simp [hpower]
    rw [hlog, hzero]
    simpa using div_nonneg (abs_nonneg (k : ℝ)) (by positivity)
  · have hstart : Real.logb 10 x * 2 ^ (⟨0, 0⟩ : LogPlaces).count =
        (⟨0, 0⟩ : LogPlaces).bits + Real.logb 10 x := by simp
    have hplaces := abs_sub_logPlaces_le (logarithmPlaces q)
      (encloses_floor (workingPlaces (logarithmPlaces q)) hone hten) hstart (spread_le_working _)
    dsimp only at hplaces
    set r := logPlaces (workingPlaces (logarithmPlaces q)) (logarithmPlaces q)
      (x * 2 ^ (workingPlaces (logarithmPlaces q) : ℤ)).floor.toNat
      ((x * 2 ^ (workingPlaces (logarithmPlaces q) : ℤ)).floor.toNat + 1) ⟨0, 0⟩
    have hsub : ((k + ((2 * r.bits + 1 : ℕ) : ℚ) / 2 ^ ((r.count + 1 : ℕ) : ℤ) : ℚ) : ℝ) -
        Real.logb 10 q =
        -(Real.logb 10 x - (2 * r.bits + 1) / 2 ^ (r.count + 1)) := by
      rw [hlog, zpow_natCast]
      push_cast
      ring
    rw [hsub, abs_neg]
    refine hplaces.trans ?_
    rw [le_div_iff₀ (by positivity)]
    refine le_trans (le_of_eq ?_) (placesNearOne_spec hq (hne hpower))
    rw [logarithmPlaces, zero_add, div_mul_eq_mul_div, one_mul, div_eq_div_iff (by positivity)
      (by positivity), ← pow_add, one_mul]
    congr 1
    ring

end Bellman.Numeral
