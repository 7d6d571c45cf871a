import Bellman.Proofs.Numeral.Grouping
import Bellman.Proofs.Numeral.Guard
import Bellman.Proofs.Numeral.Obstacle

/-!
# Formulas of plain numbers are computed exactly

As long as all powers are whole and within the guard's range, a formula has the value of
ordinary arithmetic, however it was put together: differences as sums with negative
multiples, quotients as products with reciprocals, and the negative of a sum in two parts,
of which one is computed at once.
-/

namespace Bellman.Numeral

variable {q x y : ℚ} {v : Value}

theorem digitsValue_append (ds es : List Char) :
    digitsValue (ds ++ es) = digitsValue ds * 10 ^ es.length + placeValue es := by
  induction es generalizing ds with
  | nil => simp [placeValue]
  | cons e es ih =>
      have hsnoc : digitsValue (ds ++ [e]) = 10 * digitsValue ds + (e.toNat - '0'.toNat) := by
        simp [digitsValue]
      rw [List.append_cons, ih, hsnoc, placeValue, List.length_cons]
      ring

theorem digitsValue_eq (ds : List Char) : digitsValue ds = placeValue ds := by
  simpa [digitsValue] using digitsValue_append [] ds

/-- A literal is worth what it writes. -/
theorem Literal.value?_eq {l : Literal} (hl : l.Proper) : l.value? = some l.value := by
  have hshort : ¬ (Text.digitLimit < l.whole.length ∨
      Text.digitLimit < (l.fraction.getD []).length) :=
    not_or.mpr ⟨not_lt.mpr hl.whole_short, not_lt.mpr hl.fraction_short⟩
  have hscale (e : ℤ) : (digitsValue (l.whole ++ l.fraction.getD []) : ℚ) *
      10 ^ (e - (l.fraction.getD []).length) =
      (placeValue l.whole + placeValue (l.fraction.getD []) / 10 ^ (l.fraction.getD []).length) *
        10 ^ e := by
    rw [digitsValue_append, digitsValue_eq, zpow_sub₀ (by norm_num), zpow_natCast]
    push_cast
    field_simp
  simp only [value?, if_neg hshort, hscale, Literal.value, Option.some.injEq]
  rcases l.exponent with _ | ⟨_ | _, ds⟩ <;> simp [exponentValue, digitsValue_eq]

namespace Formula

/-- A formula of rational numbers in which every power has a result within range. -/
inductive Plain : Formula → ℚ → Prop
  | value (q : ℚ) : Plain (.value (.rational q)) q
  | add {f g : Formula} {x y : ℚ} : Plain f x → Plain g y → Plain (.add f g) (x + y)
  | mul {f g : Formula} {x y : ℚ} : Plain f x → Plain g y → Plain (.mul f g) (x * y)
  | pow {f g : Formula} {x y : ℚ} : Plain f x → Plain g y → Operator.power.Defined x y →
      Plain (.pow f g) (x ^ y.num)

variable {f g : Formula}

theorem pow_of_defined (h : Operator.power.Defined x y) :
    Value.pow (.rational x) (.rational y) = .rational (x ^ y.num) := by
  obtain ⟨hden, hzero, -⟩ := h
  by_cases hx : x = 0
  · subst hx
    have hy := hzero rfl
    by_cases hy₀ : y = 0
    · simp [Value.pow, Value.zeroPow, hy₀]
    · have hnum : y.num ≠ 0 := Rat.num_ne_zero.mpr hy₀
      simp [Value.pow, Value.zeroPow, hy₀, not_lt.mpr hy, zero_zpow _ hnum]
  · exact pow_rational hx hden

theorem guardedPow_of_defined (h : Operator.power.Defined x y) :
    guardedPow (.rational x) (.rational y) = .ok (.rational (x ^ y.num)) := by
  by_cases hx : x = 0
  · subst hx
    simp [guardedPow, Value.knowledge, Value.isZero, pow_of_defined h]
  · obtain ⟨hlow, hhigh⟩ := h.2.2 hx
    exact guardedPow_of_range hx h.1 hlow hhigh

namespace Plain

theorem ne_emptyBrackets (h : Plain f q) : f ≠ .emptyBrackets := by
  cases h <;> nofun

theorem hasSymbol_eq_false (h : Plain f q) : f.hasSymbol = false := by
  induction h with
  | value q => rfl
  | add _ _ ih ih' | mul _ _ ih ih' | pow _ _ _ ih ih' => simp [hasSymbol, ih, ih']

theorem compute_eq (h : Plain f q) : f.compute = .ok (.rational q) := by
  induction h with
  | value q => rfl
  | add _ _ ih ih' => simp [compute, ih, ih', bind, Except.bind, Value.add, pure, Except.pure]
  | mul h h' ih ih' =>
      rw [compute_mul, ih, ih']
      cases h <;> cases h' <;> rfl
  | pow _ _ hdefined ih ih' =>
      simp [compute, ih, ih', bind, Except.bind, guardedPow_of_defined hdefined]

/-- What is computed at once has its value too. -/
theorem of_settle? (h : Plain f q) (hv : f.settle? = some v) : v = .rational q := by
  induction h generalizing v with
  | value q =>
      cases hv
      rfl
  | add => cases hv
  | @mul f g x y _ _ ih ih' =>
      rw [settle?] at hv
      cases hf : f.settle? with
      | none => simp [hf] at hv
      | some a =>
          cases hg : g.settle? with
          | none => simp [hf, hg] at hv
          | some b =>
              rw [ih hf, ih' hg] at *
              simp_all [Value.mul, eq_comm]
  | @pow f g x y h h' hdefined ih ih' =>
      -- only a power of a number that is written out is computed at once
      cases h with
      | value =>
          cases h' with
          | value =>
              simp only [settle?, if_pos hdefined.1, unguardedPow, pow_of_defined hdefined] at hv
              split_ifs at hv <;> cases hv <;> rfl
          | _ => cases hv
      | _ => cases hv

theorem minus (h : Plain f q) : Plain f.minus (-q) := by
  have hmul := Plain.mul (.value (-1)) h
  rwa [neg_one_mul] at hmul

/-- The summands of a sum and their values. -/
theorem summands (h : Plain f q) : ∃ qs, List.Forall₂ Plain f.summands qs ∧ qs.sum = q := by
  induction h with
  | add h h' ih ih' =>
      obtain ⟨xs, hxs, rfl⟩ := ih
      obtain ⟨ys, hys, rfl⟩ := ih'
      exact ⟨xs ++ ys, List.rel_append hxs hys, List.sum_append⟩
  | value q => exact ⟨[q], .cons (.value q) .nil, by simp⟩
  | mul h h' => exact ⟨_, .cons (.mul h h') .nil, by simp⟩
  | pow h h' hdefined => exact ⟨_, .cons (.pow h h' hdefined) .nil, by simp⟩

/-- What is put together at once and what is added to it make up the negative of the sum. -/
theorem exists_parts {fs : List Formula} {qs : List ℚ} (h : List.Forall₂ Plain fs qs) :
    ∃ x y, x + y = qs.sum ∧
      (∀ c : ℚ, (fs.filterMap settle?).foldl (fun acc v => Value.add acc v.neg) (.rational c) =
        .rational (c - x)) ∧
      ∀ (acc : Formula) (r : ℚ), Plain acc r →
        Plain ((fs.filter (·.settle?.isNone)).foldl (fun acc b => .add acc b.minus) acc)
          (r - y) := by
  induction h with
  | nil => exact ⟨0, 0, by simp, by simp, fun acc r h => by simpa using h⟩
  | @cons f q fs qs hf _ ih =>
      obtain ⟨x, y, hsum, hsettled, hothers⟩ := ih
      cases hv : f.settle? with
      | some v =>
          obtain rfl := hf.of_settle? hv
          refine ⟨q + x, y, by rw [List.sum_cons, ← hsum]; ring, fun c => ?_, fun acc r hacc => ?_⟩
          · have hstep : Value.add (.rational c) (Value.neg (.rational q)) = .rational (c - q) := by
              simp [Value.neg, Value.mul, Value.add, sub_eq_add_neg]
            rw [List.filterMap_cons_some hv, List.foldl_cons, hstep, hsettled, sub_sub]
          · simpa [hv] using hothers acc r hacc
      | none =>
          refine ⟨x, q + y, by rw [List.sum_cons, ← hsum]; ring, fun c => ?_, fun acc r hacc => ?_⟩
          · simpa [hv] using hsettled c
          · have hrest := hothers _ _ (hacc.add hf.minus)
            rw [← sub_eq_add_neg, sub_sub] at hrest
            simpa [hv] using hrest

theorem negateSum (h : Plain f q) : Plain f.negateSum (-q) := by
  obtain ⟨qs, hqs, rfl⟩ := h.summands
  obtain ⟨x, y, hsum, hsettled, hothers⟩ := exists_parts hqs
  have hneg := hothers _ _ (.value (0 - x))
  rw [zero_sub, ← neg_add', hsum] at hneg
  rw [Formula.negateSum, hsettled 0, zero_sub]
  exact hneg

theorem negate (h : Plain f q) : ∃ g, f.negate = some g ∧ Plain g (-q) := by
  cases h with
  | value q =>
      have hneg : Value.neg (.rational q) = .rational (-q) := by
        simp [Value.neg, Value.mul]
      exact ⟨.value (.rational (-q)), by rw [Formula.negate, hneg], .value (-q)⟩
  | add h h' => exact ⟨_, rfl, (Plain.add h h').negateSum⟩
  | mul h h' => exact ⟨_, rfl, (Plain.mul h h').minus⟩
  | pow h h' hdefined => exact ⟨_, rfl, (Plain.pow h h' hdefined).minus⟩

end Plain

end Formula

/-- The formula of a tree is plain and has its value. -/
theorem Arithmetic.exists_plain {a : Arithmetic} (h : a.Defined) :
    ∃ f, Formula.ofPhrase? a.phrase = some f ∧ f.Plain a.value := by
  induction a with
  | literal l hl =>
      refine ⟨.value (.rational l.value), ?_, .value l.value⟩
      simp [phrase, Formula.ofPhrase?, l.value?_eq hl]
  | plus a ih =>
      obtain ⟨f, hf, hplain⟩ := ih h
      refine ⟨f, ?_, hplain⟩
      rw [phrase, Formula.ofPhrase?, hf]
      have hne := hplain.ne_emptyBrackets
      cases f <;> simp_all
  | minus a ih =>
      obtain ⟨f, hf, hplain⟩ := ih h
      obtain ⟨g, hg, hnegative⟩ := hplain.negate
      exact ⟨g, by rw [phrase, Formula.ofPhrase?, hf, Option.bind_some, hg], hnegative⟩
  | binary op a b ih ih' =>
      obtain ⟨ha, hb, hop⟩ := h
      obtain ⟨f, hf, hplain⟩ := ih ha
      obtain ⟨g, hg, hplain'⟩ := ih' hb
      have hphrase : (binary op a b).phrase = .binary op.operation a.phrase b.phrase := rfl
      rw [hphrase]
      cases op with
      | add =>
          exact ⟨f.add g, by simp [Operator.operation, Formula.ofPhrase?, hf, hg],
            hplain.add hplain'⟩
      | subtract =>
          refine ⟨f.add g.minus, by simp [Operator.operation, Formula.ofPhrase?, hf, hg], ?_⟩
          have hsum := hplain.add hplain'.minus
          rwa [← sub_eq_add_neg] at hsum
      | multiply =>
          exact ⟨f.mul g, by simp [Operator.operation, Formula.ofPhrase?, hf, hg],
            hplain.mul hplain'⟩
      | divide =>
          refine ⟨f.mul (g.pow (.value (.rational (-1)))),
            by simp [Operator.operation, Formula.ofPhrase?, hf, hg], ?_⟩
          have hone : b.value ^ (-1 : ℚ).num = b.value⁻¹ := zpow_neg_one b.value
          have hpower : Operator.power.Defined b.value (-1) :=
            ⟨rfl, fun hzero => absurd hzero hop.1, fun _ => hone ▸ hop.2⟩
          have hproduct := hplain.mul (hplain'.pow (.value (-1)) hpower)
          rwa [hone, ← div_eq_mul_inv] at hproduct
      | power =>
          exact ⟨f.pow g, by simp [Operator.operation, Formula.ofPhrase?, hf, hg],
            hplain.pow hplain' hop⟩

end Bellman.Numeral
