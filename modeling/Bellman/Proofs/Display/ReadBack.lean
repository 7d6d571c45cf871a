import Bellman.Proofs.Display.Shown
import Bellman.Proofs.Numeral.Meaning
import Bellman.Proofs.Rounding.Closest

/-!
# Shown numbers are read back

What is shown of a number is a plain numeral, so it is read as the double closest to the number
it writes. Whole numbers that are shown are doubles themselves. With places, the number that was
shown is a double within half a unit of the numeral, so the one that is read is no farther off,
and it has the same number of units: where both are exactly half a unit away they are the same
double, since no two doubles are a unit apart.

Only a sign can be lost. A small negative number without any units is shown as a zero with its
sign, which is read as the zero that has none.
-/

namespace Bellman

open Rounding Decimal Text
open Numeral (Literal Arithmetic Spelled Writes readScalar placeValue)
open Numeral.Value (roundRat rounded)

namespace Numeral

variable {fs : List Char} {whole : ℕ}

/-- The digits of a number begin with a zero only if it is zero. -/
theorem eq_zero_of_head?_toDigits {n : ℕ} (h : (Nat.toDigits 10 n).head? = some '0') : n = 0 := by
  induction n using Nat.strong_induction_on with
  | _ n ih =>
      rw [Nat.toDigits_eq_if (by decide)] at h
      split at h
      next => simpa using h
      next hlarge =>
        rw [List.head?_append_of_ne_nil _ Nat.toDigits_ne_nil] at h
        have hrest := ih (n / 10) (by omega) h
        omega

/-- The literal of a plain numeral. -/
def plainLiteral (whole : ℕ) (fs : List Char) : Literal :=
  ⟨Nat.toDigits 10 whole, if fs = [] then none else some fs, none⟩

theorem fraction_plainLiteral (whole : ℕ) (fs : List Char) :
    (plainLiteral whole fs).fraction.getD [] = fs := by
  unfold plainLiteral
  split
  next h => exact h.symm
  next => rfl

theorem proper_plainLiteral (hwhole : whole < 10 ^ digitLimit)
    (hfs : ∀ d ∈ fs, d.isDigit = true) (hshort : fs.length ≤ digitLimit) :
    (plainLiteral whole fs).Proper where
  whole_digits := isDigit_toDigits whole
  fraction_digits := by rwa [fraction_plainLiteral]
  nonempty := fun h => absurd h Nat.toDigits_ne_nil
  leading := by
    intro _ hhead d hd
    obtain rfl := eq_zero_of_head?_toDigits hhead
    simpa [plainLiteral] using hd
  whole_short := (Nat.length_toDigits_le_iff (by decide) (by decide)).mpr hwhole
  fraction_short := by rwa [fraction_plainLiteral]
  exponent_digits := by simp [plainLiteral]
  exponent_short := by simp [plainLiteral]

theorem value_plainLiteral (whole : ℕ) (fs : List Char) :
    (plainLiteral whole fs).value = whole + placeValue fs / 10 ^ fs.length := by
  rw [Literal.value, fraction_plainLiteral]
  simp [plainLiteral, placeValue_toDigits, exponentValue]

theorem spelling_plainLiteral (whole : ℕ) (fs : List Char) :
    (Token.literal (plainLiteral whole fs)).Spelling (plain whole fs) := by
  have hspelling := Token.Spelling.literal (l := plainLiteral whole fs) .none
  rw [List.append_nil] at hspelling
  convert hspelling using 1
  unfold plain plainLiteral
  split <;> rfl

/-- A plain numeral under a sign is read as the double of the number it writes. -/
theorem readScalar_plain (negative : Bool) (hwhole : whole < 10 ^ digitLimit)
    (hfs : ∀ d ∈ fs, d.isDigit = true) (hshort : fs.length ≤ digitLimit) {q : ℚ}
    (hq : (whole : ℚ) + placeValue fs / 10 ^ fs.length = q)
    (hsmall : |rounded (signedValue negative q)| < 2 ^ 1024) :
    readScalar (String.ofList (signed negative (plain whole fs))) =
      .ok (roundRat (signedValue negative q)) := by
  have hread {a : Arithmetic} {cs : List Char} (h : a.Text 1 cs) (ha : a.Defined)
      (hvalue : a.value = signedValue negative q) :
      readScalar (String.ofList cs) = .ok (roundRat (signedValue negative q)) := by
    have htext : a.Text 1 (String.ofList cs).toList := by rwa [String.toList_ofList]
    rw [readScalar_of_text htext (by decide) ha, hvalue,
      if_pos ((Value.roundRat_spec _).1 hsmall).1]
  have hproper := proper_plainLiteral hwhole hfs hshort
  have hliteral (n : ℕ) : Writes n .signed (.literal _ hproper) _ :=
    .ofPower (.ofAtom (.literal n _ hproper))
  have hspelled := Spelled.of_spelling (spelling_plainLiteral whole fs)
  have hvalue : (Arithmetic.literal _ hproper).value = q := (value_plainLiteral whole fs).trans hq
  cases negative with
  | false => exact hread ⟨_, .ofProduct (.ofSigned (hliteral 1)), hspelled⟩ trivial hvalue
  | true =>
      have hminus : (Arithmetic.minus (.literal _ hproper)).Text 1 ('-' :: plain whole fs) :=
        ⟨_, .ofProduct (.ofSigned (.minus (hliteral 0))),
          (Spelled.of_spelling .minus).append hspelled⟩
      exact hread hminus trivial (congrArg Neg.neg hvalue)

end Numeral

namespace Display

variable {x : Binary64} {n : ℤ}

theorem wholeTolerance_pos : 0 < wholeTolerance.toRat := by
  decide +kernel

/-- A power of two has no more digits than places. -/
theorem lt_ten_pow_of_lt_two_pow {k e limit : ℕ} (h : (k : ℚ) < 2 ^ e) (he : e ≤ limit) :
    k < 10 ^ limit := by
  have hlt : k < 2 ^ e := by exact_mod_cast h
  calc k < 2 ^ e := hlt
    _ ≤ 10 ^ e := Nat.pow_le_pow_left (by decide) e
    _ ≤ 10 ^ limit := Nat.pow_le_pow_right (by decide) he

/-- A whole number that is a double is read as that double, and shown again as it was. -/
theorem whole_read_back (hexact : rounded n = n) (hsmall : |(n : ℚ)| < 2 ^ 1024) :
    readScalar (String.ofList (whole n)) = .ok (roundRat n) ∧
      number (roundRat n) = .ok (String.ofList (whole n)) := by
  obtain ⟨hfinite, hvalue, -⟩ := (Numeral.Value.roundRat_spec n).1 (hexact.symm ▸ hsmall)
  constructor
  · have hshort : n.natAbs < 10 ^ digitLimit := by
      refine lt_ten_pow_of_lt_two_pow (e := 1024) ?_ (by decide)
      rwa [Nat.cast_natAbs, Int.cast_abs]
    have hread := Numeral.readScalar_plain (n < 0) hshort (List.forall_mem_nil _) (Nat.zero_le _)
      (q := n.natAbs) (by simp [placeValue])
      (by rw [signedValue_natAbs, hexact]; exact hsmall)
    rwa [signedValue_natAbs, plain, if_pos rfl, List.append_nil, ← whole_eq] at hread
  · have hround : halfEven (roundRat n).toRat = n := by rw [hvalue, hexact, halfEven_intCast]
    rw [number_eq_whole hfinite _ defaultPlaces, hround]
    rw [hround, hvalue, hexact, sub_self, abs_zero]
    exact wholeTolerance_pos

/-- What is shown of a number with places. -/
def placedText (x : Binary64) : String :=
  String.ofList (signed x.isNegative (trimmed (pointed 10 (units 10 x.toRat))))

theorem number_eq_placedText (hfinite : x.isFinite = true)
    (hfar : wholeTolerance.toRat ≤ |x.toRat - halfEven x.toRat|) :
    number x = .ok (placedText x) :=
  number_eq_trimmed hfinite hfar 10

/-- The number that this text writes. -/
def written (x : Binary64) : ℚ :=
  signedValue x.isNegative (units 10 x.toRat / 10 ^ 10)

theorem abs_written (x : Binary64) : |written x| = units 10 x.toRat / 10 ^ 10 := by
  have hpos : (0 : ℚ) ≤ units 10 x.toRat / 10 ^ 10 := by positivity
  unfold written signedValue
  split
  · rw [abs_neg, abs_of_nonneg hpos]
  · exact abs_of_nonneg hpos

theorem abs_written_sub_le (x : Binary64) : |written x - x.toRat| ≤ 1 / 2 / 10 ^ 10 := by
  have hunits := abs_units_sub_le 10 x.toRat
  rw [zpow_neg, zpow_natCast, ← div_eq_mul_inv] at hunits
  rwa [written, abs_signedValue_sub]

/-- A double that is not shown as a whole number is none. -/
theorem abs_toRat_lt_of_far (hfar : wholeTolerance.toRat ≤ |x.toRat - halfEven x.toRat|) :
    |x.toRat| < 2 ^ 52 := by
  apply Binary64.abs_toRat_lt_of_not_whole
  intro n hn
  rw [hn, halfEven_intCast, sub_self, abs_zero] at hfar
  exact absurd wholeTolerance_pos (not_lt.mpr hfar)

theorem abs_written_le (hfar : wholeTolerance.toRat ≤ |x.toRat - halfEven x.toRat|) :
    |written x| ≤ ((2 ^ 52 + 1 : ℤ) : ℚ) := by
  have hx := abs_toRat_lt_of_far hfar
  have hclose := abs_written_sub_le x
  have htriangle := abs_sub_abs_le_abs_sub (written x) x.toRat
  have hhalf : (1 / 2 / 10 ^ 10 : ℚ) ≤ 1 := by norm_num
  push_cast
  linarith

theorem abs_rounded_written_lt (hfar : wholeTolerance.toRat ≤ |x.toRat - halfEven x.toRat|) :
    |rounded (written x)| < 2 ^ 53 := by
  have hlimit : |((2 ^ 52 + 1 : ℤ) : ℚ)| < 2 ^ 53 := by norm_num
  calc |rounded (written x)| = rounded |written x| := Numeral.Value.abs_rounded _
    _ ≤ rounded (2 ^ 52 + 1 : ℤ) := Numeral.Value.rounded_mono (abs_written_le hfar)
    _ = (2 ^ 52 + 1 : ℤ) := Numeral.Value.rounded_intCast hlimit
    _ < 2 ^ 53 := (le_abs_self _).trans_lt hlimit

/-- What is shown of a number with places is read as the double of the number it writes. -/
theorem readScalar_placedText (hfar : wholeTolerance.toRat ≤ |x.toRat - halfEven x.toRat|) :
    readScalar (placedText x) = .ok (roundRat (written x)) := by
  have hsmall := (abs_rounded_written_lt hfar).trans Numeral.Value.two_pow_53_lt
  have hdropped : (dropTrailingZeros (lastDigits 10 (units 10 x.toRat))).length ≤ digitLimit := by
    have hle := (List.rdropWhile_prefix (· == '0') (lastDigits 10 (units 10 x.toRat))).length_le
    rw [length_lastDigits] at hle
    exact hle.trans (by decide)
  have hshort : units 10 x.toRat / 10 ^ 10 < 10 ^ digitLimit := by
    refine lt_ten_pow_of_lt_two_pow (e := 53) ?_ (by decide)
    have hle : ((units 10 x.toRat / 10 ^ 10 : ℕ) : ℚ) ≤ |written x| := by
      rw [abs_written]
      exact Nat.cast_div_le.trans_eq (by rw [Nat.cast_pow, Nat.cast_ofNat])
    refine (hle.trans (abs_written_le hfar)).trans_lt ?_
    norm_num
  rw [placedText, trimmed_pointed (by decide)]
  exact Numeral.readScalar_plain x.isNegative hshort
    (isDigit_dropTrailingZeros (isDigit_lastDigits 10 _)) hdropped (whole_add_places 10 _) hsmall

/-- A power of ten is no multiple of a power of two with a negative exponent. -/
theorem mul_two_zpow_ne_unit (n : ℤ) (k : ℕ) : (n : ℚ) * 2 ^ (-k : ℤ) ≠ 1 / 10 ^ 10 := by
  intro h
  have hpower : (n * 10 ^ 10 : ℚ) = 2 ^ k := by
    rw [zpow_neg, zpow_natCast] at h
    field_simp at h
    exact h
  have hpower' : n * 10 ^ 10 = 2 ^ k := by exact_mod_cast hpower
  have hfive : (5 : ℤ) ∣ 2 ^ k := by
    rw [← hpower']
    exact Dvd.dvd.mul_left (by decide) n
  have hcoprime : IsCoprime (5 : ℤ) (2 ^ k) := IsCoprime.pow_right ⟨1, -2, by decide⟩
  exact absurd (hcoprime.isUnit_of_dvd' dvd_rfl hfive) (by decide)

/-- No two doubles are a unit of the last place apart. -/
theorem abs_toRat_sub_ne_unit (x y : Binary64) : |x.toRat| - |y.toRat| ≠ 1 / 10 ^ 10 := by
  have hmultiple (x : Binary64) : ∃ n : ℤ, |x.toRat| = n * 2 ^ (-1074 : ℤ) := by
    obtain ⟨n, hn⟩ := x.exists_toRat_eq_mul
    refine ⟨|n|, ?_⟩
    rw [hn, abs_mul, Int.cast_abs, abs_of_pos (show (0 : ℚ) < 2 ^ (-1074 : ℤ) by positivity)]
  obtain ⟨m, hm⟩ := hmultiple x
  obtain ⟨n, hn⟩ := hmultiple y
  rw [hm, hn, ← sub_mul, ← Int.cast_sub]
  exact mul_two_zpow_ne_unit (m - n) 1074

/-- A double that is no farther off than the one that was shown has as many units. -/
theorem units_eq_of_closer {y : Binary64}
    (h : abs (|y.toRat| - |written x|) ≤ abs (|x.toRat| - |written x|)) :
    units 10 y.toRat = units 10 x.toRat := by
  have hx : abs (|x.toRat| - |written x|) ≤ 1 / 2 / 10 ^ 10 := by
    rw [abs_sub_comm]
    exact (abs_abs_sub_abs_le _ _).trans (abs_written_sub_le x)
  rcases (h.trans hx).lt_or_eq with hlt | heq
  · have hround : halfEven (|y.toRat| * 10 ^ 10) = (units 10 x.toRat : ℤ) := by
      apply halfEven_eq_of_abs_lt
      have hscale : ((units 10 x.toRat : ℤ) : ℚ) - |y.toRat| * 10 ^ 10 =
          -((|y.toRat| - |written x|) * 10 ^ 10) := by
        rw [abs_written, Int.cast_natCast]
        ring
      rw [hscale, abs_neg, abs_mul, abs_of_pos (show (0 : ℚ) < 10 ^ 10 by positivity)]
      exact (lt_div_iff₀ (by positivity)).mp hlt
    rw [units, hround, Int.toNat_natCast]
  · -- Both are half a unit off: on the same side they are equal, and they cannot be on two.
    have hx' : abs (|x.toRat| - |written x|) = 1 / 2 / 10 ^ 10 := le_antisymm hx (heq ▸ h)
    have hne := abs_toRat_sub_ne_unit x y
    have hne' := abs_toRat_sub_ne_unit y x
    have hsame : |y.toRat| = |x.toRat| := by
      rcases (abs_eq (by positivity)).mp heq with hy | hy <;>
        rcases (abs_eq (by positivity)).mp hx' with hx | hx
      · linarith
      · exact absurd (by linarith) hne'
      · exact absurd (by linarith) hne
      · linarith
    rw [units, units, hsame]

/-- A number of units that is no whole number is a unit away from every whole number. -/
theorem unit_le_abs_written_sub (h : units 10 x.toRat % 10 ^ 10 ≠ 0) (n : ℤ) :
    1 / 10 ^ 10 ≤ |written x - n| := by
  obtain ⟨m, hm, hwritten⟩ : ∃ m : ℤ, m % 10 ^ 10 ≠ 0 ∧ written x = m / 10 ^ 10 := by
    unfold written signedValue
    split
    · exact ⟨-units 10 x.toRat, by omega, by push_cast; ring⟩
    · exact ⟨units 10 x.toRat, by omega, by push_cast; rfl⟩
  have hne : m - n * 10 ^ 10 ≠ 0 := by omega
  have hone : (1 : ℚ) ≤ |((m - n * 10 ^ 10 : ℤ) : ℚ)| := by exact_mod_cast Int.one_le_abs hne
  have hscale : written x - n = ((m - n * 10 ^ 10 : ℤ) : ℚ) / 10 ^ 10 := by
    rw [hwritten]
    push_cast
    ring
  rw [hscale, abs_div, abs_of_pos (show (0 : ℚ) < 10 ^ 10 by positivity)]
  gcongr

theorem unit_le_abs_written (h : units 10 x.toRat % 10 ^ 10 ≠ 0) :
    1 / 10 ^ 10 ≤ |written x| := by
  have hzero := unit_le_abs_written_sub h 0
  rwa [Int.cast_zero, sub_zero] at hzero

/-- The double that is read is no farther off than the one that was shown. -/
theorem abs_rounded_written_sub_le (h : units 10 x.toRat % 10 ^ 10 ≠ 0) :
    |rounded (written x) - written x| ≤ |x.toRat - written x| := by
  refine Numeral.Value.abs_rounded_sub_le (le_trans ?_ (unit_le_abs_written h)) x
  calc (2 : ℚ) ^ (-1022 : ℤ) ≤ 2 ^ (-34 : ℤ) := zpow_le_zpow_right₀ one_le_two (by decide)
    _ ≤ 1 / 10 ^ 10 := by norm_num

theorem units_roundRat_written (h : units 10 x.toRat % 10 ^ 10 ≠ 0)
    (hvalue : (roundRat (written x)).toRat = rounded (written x)) :
    units 10 (roundRat (written x)).toRat = units 10 x.toRat := by
  have hmagnitude : |x.toRat - written x| = abs (|x.toRat| - |written x|) := by
    rw [abs_sub_comm, abs_written, written, abs_signedValue_sub, abs_sub_comm]
  have hcloser := abs_rounded_written_sub_le h
  rw [hmagnitude, ← hvalue] at hcloser
  exact units_eq_of_closer ((abs_abs_sub_abs_le _ _).trans hcloser)

theorem decide_written_lt_zero (h : units 10 x.toRat ≠ 0) :
    decide (written x < 0) = x.isNegative := by
  have hpos : (0 : ℚ) < units 10 x.toRat / 10 ^ 10 := by positivity
  unfold written signedValue
  cases x.isNegative with
  | false => exact decide_eq_false (not_lt.mpr hpos.le)
  | true => exact decide_eq_true (neg_lt_zero.mpr hpos)

/-- What is read of units behind the point is not close to a whole number. -/
theorem far_roundRat_written (h : units 10 x.toRat % 10 ^ 10 ≠ 0)
    (hvalue : (roundRat (written x)).toRat = rounded (written x)) (n : ℤ) :
    wholeTolerance.toRat ≤ |(roundRat (written x)).toRat - n| := by
  have hapart := unit_le_abs_written_sub h n
  have hnear : |rounded (written x) - written x| ≤ 1 / 2 / 10 ^ 10 := by
    refine (abs_rounded_written_sub_le h).trans ?_
    rw [abs_sub_comm]
    exact abs_written_sub_le x
  have htriangle := abs_sub_le (written x) (rounded (written x)) n
  rw [abs_sub_comm (written x) (rounded (written x))] at htriangle
  have htolerance : (10 : ℚ) ^ (-12 : ℤ) ≤ 1 / 10 ^ 10 - 1 / 2 / 10 ^ 10 := by norm_num
  rw [hvalue]
  refine (wholeTolerance_le.trans htolerance).trans ?_
  linarith

/-- What is read of a number with units behind the point is shown as it was. -/
theorem number_written (hfar : wholeTolerance.toRat ≤ |x.toRat - halfEven x.toRat|)
    (hplaces : units 10 x.toRat % 10 ^ 10 ≠ 0) :
    number (roundRat (written x)) = .ok (placedText x) := by
  obtain ⟨hfinite, hvalue, hsign⟩ := (Numeral.Value.roundRat_spec (written x)).1
    ((abs_rounded_written_lt hfar).trans Numeral.Value.two_pow_53_lt)
  have hunits : units 10 x.toRat ≠ 0 := by omega
  rw [number_eq_placedText hfinite (far_roundRat_written hplaces hvalue _), placedText,
    units_roundRat_written hplaces hvalue, hsign, decide_written_lt_zero hunits, ← placedText]

theorem signed_inj {a b : Bool} (cs : List Char) : signed a cs = signed b cs ↔ a = b := by
  constructor
  · intro h
    have hlength := congrArg List.length h
    cases a <;> cases b <;> simp [signed] at hlength ⊢
  · rintro rfl
    rfl

/-- Units that make a whole number are shown as its digits under the sign. -/
theorem placedText_of_whole (h : units 10 x.toRat % 10 ^ 10 = 0) :
    placedText x =
      String.ofList (signed x.isNegative (Nat.toDigits 10 (units 10 x.toRat / 10 ^ 10))) := by
  rw [placedText, trimmed_pointed (by decide), dropTrailingZeros_lastDigits h, plain, if_pos rfl,
    List.append_nil]

/-- They write a whole number, and it has their sign unless it is zero. -/
theorem exists_written_eq (h : units 10 x.toRat % 10 ^ 10 = 0) :
    ∃ n : ℤ, written x = n ∧ n.natAbs = units 10 x.toRat / 10 ^ 10 ∧
      (decide (n < 0) = x.isNegative ↔ ¬ (x.isNegative = true ∧ units 10 x.toRat = 0)) := by
  obtain ⟨k, hk⟩ : ∃ k, units 10 x.toRat = k * 10 ^ 10 := ⟨units 10 x.toRat / 10 ^ 10, by omega⟩
  have hzero : k * 10 ^ 10 = 0 ↔ k = 0 := by omega
  unfold written signedValue
  rw [hk, hzero, Nat.mul_div_cancel _ (by positivity), Nat.cast_mul, Nat.cast_pow,
    Nat.cast_ofNat, mul_div_cancel_right₀ _ (by positivity)]
  cases x.isNegative with
  | false => exact ⟨k, rfl, rfl, by simp⟩
  | true => exact ⟨-k, by simp, by omega, by simp [Nat.pos_iff_ne_zero]⟩

/-- What is read of a number whose units make a whole number is shown as it was, unless there
are none and it is negative. -/
theorem number_written_whole (hfar : wholeTolerance.toRat ≤ |x.toRat - halfEven x.toRat|)
    (hwhole : units 10 x.toRat % 10 ^ 10 = 0) :
    number (roundRat (written x)) = .ok (placedText x) ↔
      ¬ (x.isNegative = true ∧ units 10 x.toRat = 0) := by
  obtain ⟨n, hwritten, habs, hsign⟩ := exists_written_eq hwhole
  have hexact : rounded n = n := by
    have hsmall := (abs_written_le hfar).trans_lt
      (show ((2 ^ 52 + 1 : ℤ) : ℚ) < 2 ^ 53 by norm_num)
    rw [hwritten] at hsmall
    exact Numeral.Value.rounded_intCast hsmall
  have hsmall := (abs_rounded_written_lt hfar).trans Numeral.Value.two_pow_53_lt
  rw [hwritten, hexact] at hsmall
  rw [hwritten, (whole_read_back hexact hsmall).2, whole_eq, habs, placedText_of_whole hwhole,
    Except.ok.injEq, String.ofList_inj, signed_inj, hsign]

theorem units_eq_zero_iff (q : ℚ) : units 10 q = 0 ↔ |q| ≤ 1 / 2 * 10 ^ (-10 : ℤ) := by
  have hscale : |q| ≤ 1 / 2 * 10 ^ (-10 : ℤ) ↔ |q| * 10 ^ 10 ≤ 1 / 2 := by
    rw [zpow_neg, ← div_eq_mul_inv, le_div_iff₀ (by positivity)]
    norm_cast
  have hpos : (0 : ℚ) ≤ |q| * 10 ^ 10 := by positivity
  have hcast := cast_units 10 q
  rw [hscale]
  constructor
  · intro h
    have hnear := (isHalfEven_halfEven (|q| * 10 ^ 10)).near
    rw [← hcast, h, Nat.cast_zero, Int.cast_zero, sub_zero, abs_of_nonneg hpos] at hnear
    exact hnear
  · intro h
    have hround : halfEven (|q| * 10 ^ 10) = 0 := by
      refine (isHalfEven_halfEven _).eq ⟨?_, fun _ => rfl⟩
      rwa [Int.cast_zero, sub_zero, abs_of_nonneg hpos]
    omega

/-- The numbers whose sign is lost are negative, not very close to zero, and have no units. -/
theorem lost_sign_iff (x : Binary64) :
    x.toRat ≤ -wholeTolerance.toRat ∧ -(1 / 2 * 10 ^ (-10 : ℤ)) ≤ x.toRat ↔
      wholeTolerance.toRat ≤ |x.toRat - halfEven x.toRat| ∧ x.isNegative = true ∧
        units 10 x.toRat = 0 := by
  have hzero (h : |x.toRat| ≤ 1 / 2 * 10 ^ (-10 : ℤ)) : halfEven x.toRat = 0 := by
    apply halfEven_eq_of_abs_lt
    rw [Int.cast_zero, zero_sub, abs_neg]
    exact h.trans_lt (by norm_num)
  have hsigned := x.signedValue_abs_toRat
  rw [units_eq_zero_iff]
  constructor
  · rintro ⟨hlow, hhigh⟩
    have hneg : x.toRat < 0 := hlow.trans_lt (neg_lt_zero.mpr wholeTolerance_pos)
    have hsmall : |x.toRat| ≤ 1 / 2 * 10 ^ (-10 : ℤ) := by
      rw [abs_of_neg hneg]
      linarith
    refine ⟨?_, ?_, hsmall⟩
    · rw [hzero hsmall, Int.cast_zero, sub_zero, abs_of_neg hneg]
      linarith
    · by_contra hpos
      rw [signedValue, if_neg hpos] at hsigned
      exact absurd (hsigned ▸ abs_nonneg x.toRat) (not_le.mpr hneg)
  · rintro ⟨hfar, hneg, hsmall⟩
    rw [signedValue, if_pos hneg] at hsigned
    rw [hzero hsmall, Int.cast_zero, sub_zero] at hfar
    constructor <;> linarith

/-- Every finite number is shown as a text that is read as a number. That number is shown as the
same text, unless the first is negative, not within the tolerance of zero, and rounded to zero. -/
theorem shown_reads_back_iff (x : Binary64) :
    (x.isFinite = true ↔ ∃ text y, number x = .ok text ∧ readScalar text = .ok y) ∧
    ((∃ text y, number x = .ok text ∧ readScalar text = .ok y ∧ number y = .ok text) ↔
      x.isFinite = true ∧ ¬ (x.toRat ≤ -wholeTolerance.toRat ∧
        -(1 / 2 * 10 ^ (-10 : ℤ)) ≤ x.toRat)) := by
  rcases Bool.eq_false_or_eq_true x.isFinite with hfinite | hinfinite
  · rw [lost_sign_iff]
    rcases lt_or_ge |x.toRat - halfEven x.toRat| wholeTolerance.toRat with hnear | hfar
    · have hshown := number_eq_whole hfinite hnear defaultPlaces
      obtain ⟨hread, hagain⟩ := whole_read_back (Numeral.Value.rounded_whole x).1
        (Numeral.Value.rounded_whole x).2
      refine ⟨⟨fun _ => ⟨_, _, hshown, hread⟩, fun _ => hfinite⟩,
        fun _ => ⟨hfinite, fun h => absurd hnear (not_lt.mpr h.1)⟩,
        fun _ => ⟨_, _, hshown, hread, hagain⟩⟩
    · have hshown := number_eq_placedText hfinite hfar
      have hread := readScalar_placedText hfar
      refine ⟨⟨fun _ => ⟨_, _, hshown, hread⟩, fun _ => hfinite⟩, ?_, ?_⟩
      · rintro ⟨text, y, htext, hy, hagain⟩
        obtain rfl := Except.ok.inj (hshown.symm.trans htext)
        obtain rfl := Except.ok.inj (hread.symm.trans hy)
        refine ⟨hfinite, fun h => ?_⟩
        have hwhole : units 10 x.toRat % 10 ^ 10 = 0 := by rw [h.2.2, Nat.zero_mod]
        exact (number_written_whole hfar hwhole).mp hagain h.2
      · rintro ⟨-, hkept⟩
        refine ⟨_, _, hshown, hread, ?_⟩
        by_cases hwhole : units 10 x.toRat % 10 ^ 10 = 0
        · exact (number_written_whole hfar hwhole).mpr fun h => hkept ⟨hfar, h⟩
        · exact number_written hfar hwhole
  · have hnone (text : String) : number x ≠ .ok text := by
      intro h
      rw [isFinite_of_number h] at hinfinite
      cases hinfinite
    simp [hinfinite, hnone]

/-- Minus one hundred thousand millionth is shown as a zero with a sign, which is not shown
again. -/
theorem not_shown_again :
    (Binary64.ofRat (-1 / 10 ^ 11)).isFinite = true ∧
      ¬ ∃ text y, number (Binary64.ofRat (-1 / 10 ^ 11)) = .ok text ∧
        readScalar text = .ok y ∧ number y = .ok text := by
  refine ⟨by decide +kernel, ?_⟩
  rintro ⟨text, y, htext, hy, hagain⟩
  have hshown : number (Binary64.ofRat (-1 / 10 ^ 11)) = .ok "-0" := by decide +kernel
  have hread : readScalar "-0" = .ok 0 := by decide +kernel
  have hzero : number 0 = .ok "0" := by decide +kernel
  obtain rfl := Except.ok.inj (hshown.symm.trans htext)
  obtain rfl := Except.ok.inj (hread.symm.trans hy)
  exact absurd (Except.ok.inj (hzero.symm.trans hagain)) (by decide)

end Display

end Bellman
