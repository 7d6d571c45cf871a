import Bellman.Display
import Bellman.Proofs.Numeral.Arithmetic
import Mathlib.Data.List.DropRight
import Mathlib.Tactic.FieldSimp
import Mathlib.Tactic.Linarith
import Mathlib.Tactic.Positivity
import Mathlib.Tactic.Ring

/-!
# Decimal numerals and what they write

A decimal numeral is a row of digits, perhaps with a point and further digits behind them, and
perhaps with a minus sign in front; every digit counts for its place, so a numeral writes one
number. A number of units of the last of some decimal places is written with the digits of its
whole part, the point, and one digit for each place.

Zeros at the end say nothing behind a point. In front of a point, or where there is none, each
of them is a factor of ten.
-/

namespace Bellman

open Numeral (placeValue)

theorem Numeral.placeValue_append (ds es : List Char) :
    placeValue (ds ++ es) = placeValue ds * 10 ^ es.length + placeValue es := by
  induction ds with
  | nil => simp [placeValue]
  | cons d ds ih =>
      rw [List.cons_append, placeValue, placeValue, ih, List.length_append, pow_add]
      ring

theorem Numeral.placeValue_digitChar {n : ℕ} (h : n < 10) : placeValue [n.digitChar] = n := by
  rw [placeValue, placeValue, List.length_nil, pow_zero, mul_one, add_zero]
  exact Nat.toNat_digitChar_sub_48_of_lt_ten h

theorem Numeral.placeValue_zeros (k : ℕ) : placeValue (List.replicate k '0') = 0 := by
  induction k with
  | zero => rfl
  | succ k ih => simp [List.replicate_succ, placeValue, ih]

/-- The digits of a number write it. -/
theorem Numeral.placeValue_toDigits (n : ℕ) : placeValue (Nat.toDigits 10 n) = n := by
  induction n using Nat.strong_induction_on with
  | _ n ih =>
      rw [Nat.toDigits_eq_if (by decide)]
      split
      next hsmall => exact placeValue_digitChar hsmall
      next hlarge =>
        have hdigit := placeValue_digitChar (Nat.mod_lt n (by decide : 0 < 10))
        rw [placeValue_append, ih (n / 10) (by omega), hdigit, List.length_singleton]
        omega

theorem isDigit_toDigits (n : ℕ) : ∀ d ∈ Nat.toDigits 10 n, d.isDigit = true :=
  fun _ h => Nat.isDigit_of_mem_toDigits (by decide) le_rfl h

namespace Decimal

/-- The last digits of a number, as many as there are places. -/
def lastDigits : ℕ → ℕ → List Char
  | 0, _ => []
  | places + 1, n => lastDigits places (n / 10) ++ [(n % 10).digitChar]

@[simp] theorem length_lastDigits (places n : ℕ) : (lastDigits places n).length = places := by
  induction places generalizing n with
  | zero => rfl
  | succ places ih => simp [lastDigits, ih]

theorem isDigit_lastDigits (places n : ℕ) : ∀ d ∈ lastDigits places n, d.isDigit = true := by
  induction places generalizing n with
  | zero => exact List.forall_mem_nil _
  | succ places ih =>
      intro d hd
      rcases List.mem_append.mp hd with hd | hd
      · exact ih (n / 10) d hd
      · rw [List.mem_singleton.mp hd, Nat.isDigit_digitChar]
        exact decide_eq_true (Nat.mod_lt n (by decide))

theorem placeValue_lastDigits (places n : ℕ) :
    placeValue (lastDigits places n) = n % 10 ^ places := by
  induction places generalizing n with
  | zero => simp [lastDigits, placeValue, Nat.mod_one]
  | succ places ih =>
      rw [lastDigits, Numeral.placeValue_append, ih,
        Numeral.placeValue_digitChar (Nat.mod_lt n (by decide)), List.length_singleton, pow_one,
        pow_succ', Nat.mod_mul]
      ring

/-- Digits, perhaps with a point and digits behind it, and the number they write. -/
inductive Unsigned : List Char → ℚ → Prop
  | whole {ds : List Char} (hne : ds ≠ []) (hds : ∀ d ∈ ds, d.isDigit = true) :
      Unsigned ds (placeValue ds)
  | pointed {ds fs : List Char} (hne : ds ≠ []) (hds : ∀ d ∈ ds, d.isDigit = true)
      (hfne : fs ≠ []) (hfs : ∀ d ∈ fs, d.isDigit = true) :
      Unsigned (ds ++ '.' :: fs) (placeValue ds + placeValue fs / 10 ^ fs.length)

/-- A decimal numeral and the number it writes. -/
inductive Denotes : List Char → ℚ → Prop
  | positive {cs : List Char} {q : ℚ} (h : Unsigned cs q) : Denotes cs q
  | negative {cs : List Char} {q : ℚ} (h : Unsigned cs q) : Denotes ('-' :: cs) (-q)

variable {cs ds fs : List Char} {p q : ℚ}

theorem point_not_mem (hds : ∀ d ∈ ds, d.isDigit = true) : '.' ∉ ds := by
  intro h
  have hpoint := hds '.' h
  simp at hpoint

theorem Unsigned.head?_isDigit (h : Unsigned cs q) : ∃ d ∈ cs.head?, d.isDigit = true := by
  have hhead {ds : List Char} (hne : ds ≠ []) (hds : ∀ d ∈ ds, d.isDigit = true) :
      ∃ d ∈ ds.head?, d.isDigit = true :=
    ⟨ds.head hne, List.head?_eq_some_head hne, hds _ (List.head_mem hne)⟩
  cases h with
  | whole hne hds => exact hhead hne hds
  | pointed hne hds =>
      obtain ⟨d, hd, hdigit⟩ := hhead hne hds
      exact ⟨d, by rw [List.head?_append, hd]; rfl, hdigit⟩

/-- A numeral writes one number only. -/
theorem Unsigned.unique (hp : Unsigned cs p) (hq : Unsigned cs q) : p = q := by
  generalize hcs : cs = cs' at hq
  cases hp with
  | whole hne hds =>
      cases hq with
      | whole => rw [hcs]
      | pointed =>
          rw [hcs] at hds
          exact absurd (by simp) (point_not_mem hds)
  | pointed hne hds hfne hfs =>
      cases hq with
      | whole _ hds' =>
          rw [← hcs] at hds'
          exact absurd (by simp) (point_not_mem hds')
      | pointed =>
          obtain ⟨rfl, -, rfl⟩ :=
            (List.append_cons_inj_of_notMem (point_not_mem hds) (point_not_mem hfs)).mp hcs
          rfl

theorem Denotes.unique (hp : Denotes cs p) (hq : Denotes cs q) : p = q := by
  have hsign {cs : List Char} {q : ℚ} : ¬ Unsigned ('-' :: cs) q := by
    intro h
    obtain ⟨d, hd, hdigit⟩ := h.head?_isDigit
    cases hd
    cases hdigit
  cases hp with
  | positive hp =>
      cases hq with
      | positive hq => exact hp.unique hq
      | negative => exact absurd hp hsign
  | negative hp =>
      cases hq with
      | positive hq => exact absurd hq hsign
      | negative hq => rw [hp.unique hq]

/-- A text after a minus sign, if there is one. -/
def signed (negative : Bool) (cs : List Char) : List Char :=
  if negative then '-' :: cs else cs

/-- A magnitude under a sign. -/
def signedValue (negative : Bool) (q : ℚ) : ℚ :=
  if negative then -q else q

theorem Unsigned.signed (h : Unsigned cs q) (negative : Bool) :
    Denotes (signed negative cs) (signedValue negative q) := by
  cases negative with
  | false => exact .positive h
  | true => exact .negative h

/-- Nothing is dropped from the end beyond what stays. -/
theorem rdropWhile_append_cons {β : Type} {p : β → Bool} {x : β} (hx : p x = false)
    (xs ys : List β) : (xs ++ x :: ys).rdropWhile p = xs ++ x :: ys.rdropWhile p := by
  induction ys using List.reverseRecOn with
  | nil => simp [hx]
  | append_singleton ys y ih =>
      rw [← List.cons_append, ← List.append_assoc, List.rdropWhile_concat,
        List.rdropWhile_concat, ih]
      split
      · rfl
      · simp

theorem dropTrailingPoints_eq (cs : List Char) :
    Display.dropTrailingPoints cs = cs.rdropWhile (· == '.') := rfl

/-- Only zeros are dropped. -/
theorem exists_zeros (cs : List Char) :
    ∃ k, cs = dropTrailingZeros cs ++ List.replicate k '0' := by
  refine ⟨(cs.rtakeWhile (· == '0')).length, ?_⟩
  have hzeros : cs.rtakeWhile (· == '0') =
      List.replicate (cs.rtakeWhile (· == '0')).length '0' := by
    apply List.eq_replicate_of_mem
    intro c hc
    simpa using List.mem_rtakeWhile_imp hc
  rw [← hzeros]
  exact List.rdropWhile_append_rtakeWhile.symm

theorem isDigit_dropTrailingZeros (hds : ∀ d ∈ ds, d.isDigit = true) :
    ∀ d ∈ dropTrailingZeros ds, d.isDigit = true :=
  fun d hd => hds d ((List.rdropWhile_prefix _ ds).subset hd)

/-- Behind a point, zeros at the end say nothing. -/
theorem placeValue_dropTrailingZeros (fs : List Char) :
    (placeValue (dropTrailingZeros fs) : ℚ) / 10 ^ (dropTrailingZeros fs).length =
      placeValue fs / 10 ^ fs.length := by
  obtain ⟨k, hk⟩ := exists_zeros fs
  have hvalue : placeValue fs = placeValue (dropTrailingZeros fs) * 10 ^ k := by
    conv_lhs => rw [hk, Numeral.placeValue_append, Numeral.placeValue_zeros, List.length_replicate]
    rfl
  have hlength : fs.length = (dropTrailingZeros fs).length + k := by
    conv_lhs => rw [hk, List.length_append, List.length_replicate]
  rw [hvalue, hlength, pow_add]
  push_cast
  field_simp

/-- The digits of a number are a numeral for it. -/
theorem unsigned_toDigits (n : ℕ) : Unsigned (Nat.toDigits 10 n) n := by
  have hwhole := Unsigned.whole Nat.toDigits_ne_nil (isDigit_toDigits n)
  rwa [Numeral.placeValue_toDigits] at hwhole

/-- A whole part, and a point only before digits. -/
def plain (whole : ℕ) (fs : List Char) : List Char :=
  Nat.toDigits 10 whole ++ if fs = [] then [] else '.' :: fs

theorem unsigned_plain (whole : ℕ) (hfs : ∀ d ∈ fs, d.isDigit = true) :
    Unsigned (plain whole fs) (whole + placeValue fs / 10 ^ fs.length) := by
  unfold plain
  split
  next hnil =>
    rw [hnil, List.append_nil]
    simpa [placeValue] using unsigned_toDigits whole
  next hne =>
    have hpointed := Unsigned.pointed Nat.toDigits_ne_nil (isDigit_toDigits whole) hne hfs
    rwa [Numeral.placeValue_toDigits] at hpointed

/-- A number with zeros in front so that a digit stands before the point, cut at the point. -/
theorem padded_eq (places n : ℕ) :
    List.replicate (places + 1 - (Nat.toDigits 10 n).length) '0' ++ Nat.toDigits 10 n =
      Nat.toDigits 10 (n / 10 ^ places) ++ lastDigits places n := by
  induction places generalizing n with
  | zero =>
      have hlength := @Nat.length_toDigits_pos 10 n
      simp [lastDigits, Nat.sub_eq_zero_of_le hlength]
  | succ places ih =>
      rw [lastDigits, ← List.append_assoc, pow_succ', ← Nat.div_div_eq_div_mul, ← ih]
      rcases Nat.lt_or_ge n 10 with hsmall | hlarge
      · rw [Nat.toDigits_of_lt_base hsmall, Nat.div_eq_of_lt hsmall, Nat.mod_eq_of_lt hsmall,
          Nat.toDigits_zero, ← List.replicate_succ']
        rfl
      · rw [Nat.toDigits_of_base_le (by decide) hlarge, List.length_append, List.length_singleton,
          Nat.add_sub_add_right, List.append_assoc]

theorem pointed_eq {places : ℕ} (h : 0 < places) (n : ℕ) :
    pointed places n = Nat.toDigits 10 (n / 10 ^ places) ++ '.' :: lastDigits places n := by
  have hlength : (Nat.toDigits 10 (n / 10 ^ places) ++ lastDigits places n).length - places =
      (Nat.toDigits 10 (n / 10 ^ places)).length := by
    rw [List.length_append, length_lastDigits, Nat.add_sub_cancel]
  rw [pointed]
  simp only [padded_eq, hlength, if_neg h.ne', List.take_left', List.drop_left']

theorem pointed_zero (n : ℕ) : pointed 0 n = Nat.toDigits 10 n := by
  have hpadded := padded_eq 0 n
  rw [pow_zero, Nat.div_one, lastDigits, List.append_nil] at hpadded
  simp only [pointed, hpadded, Nat.sub_zero, List.take_length, if_true]

/-- A text without the zeros, and then the points, at its end. -/
def trimmed (cs : List Char) : List Char :=
  Display.dropTrailingPoints (dropTrailingZeros cs)

/-- A sign is neither a zero nor a point. -/
theorem trimmed_signed (negative : Bool) (cs : List Char) :
    trimmed (signed negative cs) = signed negative (trimmed cs) := by
  cases negative with
  | false => rfl
  | true =>
      have hzeros := rdropWhile_append_cons (p := (· == '0')) (x := '-') rfl [] cs
      have hpoints := rdropWhile_append_cons (p := (· == '.')) (x := '-') rfl []
        (cs.rdropWhile (· == '0'))
      simp only [List.nil_append] at hzeros hpoints
      change (('-' :: cs).rdropWhile (· == '0')).rdropWhile (· == '.') = _
      rw [hzeros, hpoints]
      rfl

/-- No point is dropped from behind digits. -/
theorem dropTrailingPoints_append (cs : List Char) (hne : ds ≠ [])
    (hds : ∀ d ∈ ds, d.isDigit = true) : Display.dropTrailingPoints (cs ++ ds) = cs ++ ds := by
  rw [dropTrailingPoints_eq, List.rdropWhile_eq_self_iff]
  intro hne' hlast
  rw [List.getLast_append_of_ne_nil _ hne] at hlast
  have hpoint : ds.getLast hne = '.' := by simpa using hlast
  exact point_not_mem hds (hpoint ▸ List.getLast_mem hne)

/-- With places, the zeros that are dropped stand behind the point, and the point goes only if
nothing is left behind it. -/
theorem trimmed_pointed {places : ℕ} (h : 0 < places) (n : ℕ) :
    trimmed (pointed places n) =
      plain (n / 10 ^ places) (dropTrailingZeros (lastDigits places n)) := by
  have hzeros : dropTrailingZeros (pointed places n) =
      Nat.toDigits 10 (n / 10 ^ places) ++ '.' :: dropTrailingZeros (lastDigits places n) := by
    rw [pointed_eq h]
    exact rdropWhile_append_cons rfl _ _
  rw [trimmed, hzeros, plain]
  split
  next hnil =>
    have hpoint : Display.dropTrailingPoints (Nat.toDigits 10 (n / 10 ^ places) ++ ['.']) =
        Display.dropTrailingPoints (Nat.toDigits 10 (n / 10 ^ places)) :=
      List.rdropWhile_concat_pos (· == '.') _ '.' rfl
    rw [hnil, hpoint, List.append_nil]
    exact dropTrailingPoints_append [] Nat.toDigits_ne_nil (isDigit_toDigits _)
  next hne =>
    rw [List.append_cons]
    exact dropTrailingPoints_append _ hne (isDigit_dropTrailingZeros (isDigit_lastDigits places n))

/-- The whole part and what is left of the places make up the number of units. -/
theorem whole_add_places (places n : ℕ) :
    ((n / 10 ^ places : ℕ) : ℚ) + placeValue (dropTrailingZeros (lastDigits places n)) /
      10 ^ (dropTrailingZeros (lastDigits places n)).length = n / 10 ^ places := by
  have hdiv : (n : ℚ) = 10 ^ places * (n / 10 ^ places : ℕ) + (n % 10 ^ places : ℕ) := by
    exact_mod_cast (Nat.div_add_mod n (10 ^ places)).symm
  rw [placeValue_dropTrailingZeros, placeValue_lastDigits, length_lastDigits, ← sub_eq_zero]
  field_simp
  linarith

/-- With places, what is left writes the number of units. -/
theorem unsigned_trimmed_pointed {places : ℕ} (h : 0 < places) (n : ℕ) :
    Unsigned (trimmed (pointed places n)) (n / 10 ^ places) := by
  rw [trimmed_pointed h, ← whole_add_places]
  exact unsigned_plain _ (isDigit_dropTrailingZeros (isDigit_lastDigits places n))

/-- Of a whole number nothing is left behind the point. -/
theorem dropTrailingZeros_lastDigits {places n : ℕ} (h : n % 10 ^ places = 0) :
    dropTrailingZeros (lastDigits places n) = [] := by
  induction places generalizing n with
  | zero => rfl
  | succ places ih =>
      rw [pow_succ', Nat.mod_mul] at h
      have hzero : n % 10 = 0 := by omega
      have hrest : n / 10 % 10 ^ places = 0 := by omega
      rw [lastDigits, hzero]
      exact (List.rdropWhile_concat_pos (· == '0') _ _ rfl).trans (ih hrest)

/-- Without places there is no point, and zeros at the end are dropped from the whole number. -/
theorem trimmed_pointed_zero (n : ℕ) :
    trimmed (pointed 0 n) = dropTrailingZeros (Nat.toDigits 10 n) := by
  rw [trimmed, pointed_zero]
  by_cases hnil : dropTrailingZeros (Nat.toDigits 10 n) = []
  · rw [hnil]
    rfl
  · exact dropTrailingPoints_append [] hnil (isDigit_dropTrailingZeros (isDigit_toDigits n))

/-- A number that is not a multiple of ten keeps its digits. -/
theorem dropTrailingZeros_toDigits {n : ℕ} (h : n % 10 ≠ 0) :
    dropTrailingZeros (Nat.toDigits 10 n) = Nat.toDigits 10 n := by
  have hlast (cs : List Char) :
      dropTrailingZeros (cs ++ [(n % 10).digitChar]) = cs ++ [(n % 10).digitChar] := by
    apply List.rdropWhile_concat_neg
    simpa using h
  rw [Nat.toDigits_eq_if (by decide)]
  split
  next hsmall =>
    rw [Nat.mod_eq_of_lt hsmall] at hlast
    exact hlast []
  next => exact hlast _

/-- A multiple of ten loses at least one of its digits. -/
theorem placeValue_dropTrailingZeros_le {n : ℕ} (h : n % 10 = 0) :
    10 * placeValue (dropTrailingZeros (Nat.toDigits 10 n)) ≤ n := by
  rw [Nat.toDigits_eq_if (by decide), h]
  split
  next hsmall =>
    obtain rfl : n = 0 := by omega
    decide
  next =>
    have hlast : dropTrailingZeros (Nat.toDigits 10 (n / 10) ++ [Nat.digitChar 0]) =
        dropTrailingZeros (Nat.toDigits 10 (n / 10)) :=
      List.rdropWhile_concat_pos (· == '0') _ _ rfl
    obtain ⟨k, hk⟩ := exists_zeros (Nat.toDigits 10 (n / 10))
    have hvalue : n / 10 = placeValue (dropTrailingZeros (Nat.toDigits 10 (n / 10))) * 10 ^ k := by
      conv_lhs => rw [← Numeral.placeValue_toDigits (n / 10), hk, Numeral.placeValue_append,
        Numeral.placeValue_zeros, List.length_replicate]
      rfl
    have hle : placeValue (dropTrailingZeros (Nat.toDigits 10 (n / 10))) ≤ n / 10 := by
      conv_rhs => rw [hvalue]
      exact Nat.le_mul_of_pos_right _ (by positivity)
    rw [hlast]
    omega

end Decimal

end Bellman
