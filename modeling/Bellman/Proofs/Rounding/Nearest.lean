import Bellman.Rounding
import Mathlib.Algebra.Order.Floor.Ring
import Mathlib.Algebra.Order.Field.Power
import Mathlib.Data.Rat.Floor
import Mathlib.Tactic.Linarith
import Mathlib.Tactic.Positivity
import Mathlib.Tactic.Ring
import Mathlib.Tactic.FieldSimp

/-!
# Rounding goes to the nearest number

What a rounding does is fixed by two properties: no whole number is nearer, and of two that
are equally near the even one is taken. From these follow all that is used of it, that it
is exact on whole numbers, keeps the order and is off by half a unit at most. The exponents
of two and of ten that scale a number are those of its first place, so rounding to a number
of places is off by a fixed part of the number itself.
-/

namespace Bellman.Rounding

variable {p q : ℚ} {m n : ℤ}

theorem ratAbs_eq (q : ℚ) : q.abs = |q| := by
  rcases le_total 0 q with h | h
  · rw [Rat.abs_of_nonneg h, abs_of_nonneg h]
  · rw [Rat.abs_of_nonpos h, abs_of_nonpos h]

/-- No whole number is nearer, and of two equally near ones this is the even one. -/
structure IsHalfEven (q : ℚ) (n : ℤ) : Prop where
  near : |q - n| ≤ 1 / 2
  even : |q - n| = 1 / 2 → n % 2 = 0

theorem isHalfEven_halfEven (q : ℚ) : IsHalfEven q (halfEven q) := by
  have hfloor : q.floor = ⌊q⌋ := rfl
  have hlow := Int.floor_le q
  have hhigh := Int.lt_floor_add_one q
  unfold halfEven
  rw [hfloor]
  dsimp only
  split_ifs with hless hmore heven
  · have hdist : |q - (⌊q⌋ : ℚ)| < 1 / 2 := by rw [abs_lt]; constructor <;> linarith
    exact ⟨hdist.le, fun h => absurd h hdist.ne⟩
  · have hdist : |q - ((⌊q⌋ + 1 : ℤ) : ℚ)| < 1 / 2 := by
      rw [abs_lt]; push_cast; constructor <;> linarith
    exact ⟨hdist.le, fun h => absurd h hdist.ne⟩
  · refine ⟨?_, fun _ => heven⟩
    rw [abs_le]; constructor <;> linarith
  · refine ⟨?_, fun _ => by omega⟩
    rw [abs_le]; push_cast; constructor <;> linarith

/-- Between two numbers in order no roundings change places. If they did, both numbers
would be halfway between the two roundings, which would be even neighbours. -/
theorem IsHalfEven.le (hp : IsHalfEven p m) (hq : IsHalfEven q n) (h : p ≤ q) : m ≤ n := by
  by_contra! hlt
  obtain ⟨hp₁, hp₂⟩ := abs_le.mp hp.near
  obtain ⟨hq₁, hq₂⟩ := abs_le.mp hq.near
  have hstep : ((n + 1 : ℤ) : ℚ) ≤ m := by exact_mod_cast hlt
  push_cast at hstep
  have hm : |p - m| = 1 / 2 := by
    rw [abs_of_nonpos (by linarith)]
    linarith
  have hn : |q - n| = 1 / 2 := by
    rw [abs_of_nonneg (by linarith)]
    linarith
  have hnext : (m : ℚ) = ((n + 1 : ℤ) : ℚ) := by push_cast; linarith
  have heven := hp.even hm
  have heven' := hq.even hn
  rw [Int.cast_inj.mp hnext] at heven
  omega

theorem IsHalfEven.eq (h : IsHalfEven q m) (h' : IsHalfEven q n) : m = n :=
  le_antisymm (h.le h' le_rfl) (h'.le h le_rfl)

theorem halfEven_mono (h : p ≤ q) : halfEven p ≤ halfEven q :=
  (isHalfEven_halfEven p).le (isHalfEven_halfEven q) h

theorem halfEven_nonneg (h : 0 ≤ q) : 0 ≤ halfEven q := by
  have hmono := halfEven_mono h
  have hzero : halfEven 0 = 0 := halfEven_intCast 0
  rwa [hzero] at hmono

theorem halfEven_neg (q : ℚ) : halfEven (-q) = -halfEven q := by
  have h := isHalfEven_halfEven q
  have hdist : |-q - ((-halfEven q : ℤ) : ℚ)| = |q - halfEven q| := by
    rw [abs_sub_comm]
    congr 1
    push_cast
    ring
  refine (isHalfEven_halfEven (-q)).eq ⟨?_, fun heq => ?_⟩
  · rw [hdist]
    exact h.near
  · rw [hdist] at heq
    have heven := h.even heq
    omega

/-- The quotient of two numbers lies in one of two neighbouring powers, and a comparison
tells which. -/
theorem between_powers {b x y : ℚ} {i j : ℤ} (hb : 1 < b) (hx : b ^ i ≤ x) (hx' : x < b ^ (i + 1))
    (hy : b ^ j ≤ y) (hy' : y < b ^ (j + 1)) :
    let k := if x / y < b ^ (i - j) then i - j - 1 else i - j
    b ^ k ≤ x / y ∧ x / y < b ^ (k + 1) := by
  have hb₀ : 0 < b := one_pos.trans hb
  have hpos : 0 < y := (zpow_pos hb₀ j).trans_le hy
  intro k
  unfold k
  split_ifs with hlt
  · refine ⟨?_, by simpa using hlt⟩
    rw [le_div_iff₀ hpos]
    calc b ^ (i - j - 1) * y ≤ b ^ (i - j - 1) * b ^ (j + 1) := by gcongr
      _ = b ^ i := by rw [← zpow_add₀ hb₀.ne']; congr 1; ring
      _ ≤ x := hx
  · refine ⟨le_of_not_gt hlt, ?_⟩
    rw [div_lt_iff₀ hpos]
    calc x < b ^ (i + 1) := hx'
      _ = b ^ (i - j + 1) * b ^ j := by rw [← zpow_add₀ hb₀.ne']; congr 1; ring
      _ ≤ b ^ (i - j + 1) * y := by gcongr

theorem two_zpow_log2_le {n : ℕ} (h : n ≠ 0) : (2 : ℚ) ^ (n.log2 : ℤ) ≤ n := by
  rw [zpow_natCast]
  exact_mod_cast Nat.log2_self_le h

theorem lt_two_zpow_log2 (n : ℕ) : (n : ℚ) < 2 ^ ((n.log2 : ℤ) + 1) := by
  have h : n < 2 ^ (n.log2 + 1) := Nat.lt_log2_self
  rw [← Nat.cast_succ, zpow_natCast]
  exact_mod_cast h

theorem digitCount_le_iff {n k : ℕ} (hk : 0 < k) : digitCount n ≤ k ↔ n < 10 ^ k :=
  Nat.length_toDigits_le_iff (by decide) hk

theorem digitCount_pos (n : ℕ) : 0 < digitCount n :=
  Nat.length_toDigits_pos

theorem ten_zpow_digitCount_le {n : ℕ} (h : n ≠ 0) :
    (10 : ℚ) ^ ((digitCount n : ℤ) - 1) ≤ n := by
  have hpos := digitCount_pos n
  obtain ⟨k, hk⟩ : ∃ k, digitCount n = k + 1 := ⟨digitCount n - 1, by omega⟩
  rw [hk, Nat.cast_succ, add_sub_cancel_right, zpow_natCast]
  rcases Nat.eq_zero_or_pos k with rfl | hk₀
  · simpa using Nat.one_le_iff_ne_zero.mpr h
  · have hle : ¬ n < 10 ^ k := by
      rw [← digitCount_le_iff hk₀]
      omega
    exact_mod_cast Nat.le_of_not_lt hle

theorem lt_ten_zpow_digitCount (n : ℕ) : (n : ℚ) < 10 ^ (digitCount n : ℤ) := by
  rw [zpow_natCast]
  exact_mod_cast (digitCount_le_iff (digitCount_pos n)).mp le_rfl

theorem natAbs_num_div_den (h : 0 < q) : ((q.num.natAbs : ℕ) : ℚ) / q.den = q := by
  have hnum : ((q.num.natAbs : ℕ) : ℚ) = q.num := by
    rw [Nat.cast_natAbs, abs_of_pos (Rat.num_pos.mpr h)]
  rw [hnum, Rat.num_div_den]

theorem natAbs_num_ne_zero (h : 0 < q) : q.num.natAbs ≠ 0 := by
  have := Rat.num_pos.mpr h
  omega

/-- A positive number lies between the power of two with its exponent and the next one. -/
theorem binaryExponent_spec (h : 0 < q) :
    (2 : ℚ) ^ binaryExponent q ≤ q ∧ q < 2 ^ (binaryExponent q + 1) := by
  have hspec := between_powers one_lt_two (two_zpow_log2_le (natAbs_num_ne_zero h))
    (lt_two_zpow_log2 q.num.natAbs) (two_zpow_log2_le q.den_ne_zero) (lt_two_zpow_log2 q.den)
  rwa [natAbs_num_div_den h] at hspec

/-- A positive number lies between the power of ten with its exponent and the next one. -/
theorem decimalExponent_spec (h : 0 < q) :
    (10 : ℚ) ^ decimalExponent q ≤ q ∧ q < 10 ^ (decimalExponent q + 1) := by
  have hten : (1 : ℚ) < 10 := by norm_num
  have hspec := between_powers hten (ten_zpow_digitCount_le (natAbs_num_ne_zero h))
    (by simpa using lt_ten_zpow_digitCount q.num.natAbs) (ten_zpow_digitCount_le q.den_ne_zero)
    (by simpa using lt_ten_zpow_digitCount q.den)
  have hexp : ((digitCount q.num.natAbs : ℤ) - 1) - ((digitCount q.den : ℤ) - 1) =
      (digitCount q.num.natAbs : ℤ) - (digitCount q.den : ℤ) := by ring
  rwa [natAbs_num_div_den h, hexp] at hspec

theorem binaryExponent_mono (hp : 0 < p) (h : p ≤ q) : binaryExponent p ≤ binaryExponent q := by
  have hlow := (binaryExponent_spec hp).1
  have hhigh := (binaryExponent_spec (hp.trans_le h)).2
  have hlt : (2 : ℚ) ^ binaryExponent p < 2 ^ (binaryExponent q + 1) :=
    hlow.trans_lt (h.trans_lt hhigh)
  have := (zpow_lt_zpow_iff_right₀ one_lt_two).mp hlt
  omega

variable {unit : ℚ}

theorem abs_toMultiple_sub_le (hunit : 0 < unit) (q : ℚ) :
    |toMultiple unit q - q| ≤ unit / 2 := by
  have hnear := (isHalfEven_halfEven (q / unit)).near
  have hsplit : toMultiple unit q - q = -((q / unit - halfEven (q / unit)) * unit) := by
    rw [toMultiple, sub_mul, div_mul_cancel₀ q hunit.ne']
    ring
  rw [hsplit, abs_neg, abs_mul, abs_of_pos hunit]
  calc |q / unit - halfEven (q / unit)| * unit ≤ 1 / 2 * unit := by gcongr
    _ = unit / 2 := by ring

theorem toMultiple_mono (hunit : 0 < unit) (h : p ≤ q) :
    toMultiple unit p ≤ toMultiple unit q := by
  have hdiv : p / unit ≤ q / unit := by gcongr
  have hround : (halfEven (p / unit) : ℚ) ≤ halfEven (q / unit) :=
    Int.cast_le.mpr (halfEven_mono hdiv)
  exact mul_le_mul_of_nonneg_right hround hunit.le

theorem toMultiple_neg (unit q : ℚ) : toMultiple unit (-q) = -toMultiple unit q := by
  rw [toMultiple, toMultiple, neg_div, halfEven_neg, Int.cast_neg, neg_mul]

/-- A multiple of the unit is its own rounding. -/
theorem toMultiple_intCast_mul (hunit : unit ≠ 0) (n : ℤ) :
    toMultiple unit (n * unit) = n * unit := by
  rw [toMultiple, mul_div_cancel_right₀ _ hunit, halfEven_intCast]

/-- Rounding to significant places is off by half a unit of the last place at most, which
is small beside the number. -/
theorem abs_toSignificant_sub_le (places : ℕ) (q : ℚ) :
    |toSignificant places q - q| ≤ |q| / 2 ^ places := by
  by_cases hq : q = 0
  · simp [toSignificant, hq]
  have hpos : 0 < |q| := abs_pos.mpr hq
  rw [toSignificant, if_neg hq, ratAbs_eq]
  refine (abs_toMultiple_sub_le (by positivity) q).trans ?_
  have hunit : (2 : ℚ) ^ (binaryExponent |q| - places + 1) / 2 =
      2 ^ binaryExponent |q| / 2 ^ places := by
    rw [zpow_add₀ two_ne_zero, zpow_sub₀ two_ne_zero, zpow_natCast, zpow_one]
    ring
  rw [hunit]
  gcongr
  exact (binaryExponent_spec hpos).1

theorem toSignificant_neg (places : ℕ) (q : ℚ) :
    toSignificant places (-q) = -toSignificant places q := by
  by_cases hq : q = 0
  · simp [toSignificant, hq]
  rw [toSignificant, toSignificant, if_neg hq, if_neg (neg_ne_zero.mpr hq), ratAbs_eq, ratAbs_eq,
    abs_neg, toMultiple_neg]

end Bellman.Rounding
