import Bellman.Proofs.Rule.Offered
import Bellman.Proofs.Text.Trimming

/-!
# The form of expectation that is split

What `linearity` does to an expression is said here as a relation, with one case for each
thing that can be missing, in the order in which it is looked for, and one for the expression
that is rewritten. The places are the first ones: of the opening in the expression, of the bar
behind it and of the bracket behind that.
-/

namespace Bellman.Catalog

open Text Pattern

variable {inside remainder summand : List Char}

/-- The next reward and a discounted remainder, which begins with a visible character. -/
def DiscountedSum (inside remainder : List Char) : Prop :=
  ∃ a b c, (∀ x ∈ a, isBlank x = true) ∧ (∀ x ∈ b, isBlank x = true) ∧
    (∀ x ∈ c, isBlank x = true) ∧ remainder.head?.any (!isBlank ·) = true ∧
      inside = Latex.nextReward.toList ++ (a ++ ("+".toList ++ (b ++ (Latex.discount.toList ++
        (c ++ remainder)))))

/-- The summand of a remainder: without one thin space in front, unless that is all. -/
inductive Summand : List Char → List Char → Prop where
  | afterThin {r : List Char} : trim r ≠ [] → Summand (Latex.thin.toList ++ r) (trim r)
  | thinAlone {r : List Char} : trim r = [] →
      Summand (Latex.thin.toList ++ r) Latex.thin.toList
  | plain {r : List Char} : ¬ Latex.thin.toList <+: r → Summand r (trim r)

/-- What becomes of an expression in which the first expectation is to be split. -/
inductive Split (e : List Char) : Except RuleError String → Prop where
  | noExpectation : ¬ Latex.expectation.toList <:+: e →
      Split e (.error (.missing .expectation))
  | noBar {before inner : List Char} :
      FirstIn Latex.expectation.toList e before inner → ¬ Latex.bar.toList <:+: inner →
      Split e (.error (.missing .bar))
  | noBracket {before inner inside conditioned : List Char} :
      FirstIn Latex.expectation.toList e before inner →
      FirstIn Latex.bar.toList inner inside conditioned → ']' ∉ conditioned →
      Split e (.error (.missing .closingBracket))
  | otherInside {before inner inside condition after : List Char} :
      FirstIn Latex.expectation.toList e before inner →
      FirstIn Latex.bar.toList inner inside (condition ++ ']' :: after) → ']' ∉ condition →
      (∀ remainder, ¬ DiscountedSum (trim inside) remainder) →
      Split e (.error (.missing .discountedSum))
  | split {before inner inside condition after remainder summand : List Char} :
      FirstIn Latex.expectation.toList e before inner →
      FirstIn Latex.bar.toList inner inside (condition ++ ']' :: after) → ']' ∉ condition →
      DiscountedSum (trim inside) remainder → Summand remainder summand →
      Split e (.ok (String.ofList (normalize (before ++
        "\\mathbb\x7bE\x7d[R_\x7bt+1\x7d\\mid ".toList ++ trim condition ++
        "] + \\gamma\\,\\mathbb\x7bE\x7d[".toList ++ summand ++
        "\\mid ".toList ++ trim condition ++ "]".toList ++ after))))

/-- A discounted sum is read up to its remainder. -/
theorem discountedSum_iff : DiscountedSum inside remainder ↔
    (∃ sum, discountedSumPattern.read? inside = some (sum, remainder)) ∧ remainder ≠ [] := by
  constructor
  · rintro ⟨a, b, c, ha, hb, hc, hhead, rfl⟩
    have hne : remainder ≠ [] := by
      rintro rfl
      cases hhead
    have hblank : remainder.head?.any isBlank = false := by
      cases remainder with
      | nil => rfl
      | cons x r => simpa using hhead
    have hmatches : (spaced [exactly Latex.nextReward, exactly "+", exactly Latex.discount]).Matches
        (Latex.nextReward.toList ++ (a ++ ("+".toList ++ (b ++ Latex.discount.toList))))
        (c ++ remainder) :=
      ⟨_, _, rfl, rfl, _, _, rfl, ha, _, _, rfl, rfl, _, _, rfl, hb, rfl⟩
    have hread := determined_texts Latex.nextReward ["+", Latex.discount] (by decide) _ _ hmatches
    have hlong := read?_andThen hread (read?_blanks hc hblank)
    exact ⟨⟨_, by simpa [discountedSumPattern] using hlong⟩, hne⟩
  · rintro ⟨⟨sum, hread⟩, hne⟩
    obtain ⟨m, rest, c, hsum, hblanks, -⟩ := exists_of_read?_andThen hread
    have hinside := append_of_read? hsum
    have hrest := append_of_read? hblanks
    have hc : ∀ x ∈ c, isBlank x = true := matches_of_read? hblanks
    obtain ⟨-, hremainder⟩ := Prod.mk.inj (Option.some.inj hblanks)
    obtain ⟨-, -, rfl, rfl, a, -, rfl, ha, -, -, rfl, rfl, b, -, rfl, hb, rfl⟩ :=
      matches_of_read? hsum
    refine ⟨a, b, c, ha, hb, hc, ?_, by rw [hinside, hrest]; simp⟩
    have hhead : remainder.head?.any isBlank = false := hremainder ▸ head?_trimLeft rest
    cases remainder with
    | nil => exact absurd rfl hne
    | cons x r => simpa using hhead

theorem exists_summand (remainder : List Char) : ∃ summand, Summand remainder summand := by
  by_cases hthin : Latex.thin.toList <+: remainder
  · obtain ⟨r, rfl⟩ := hthin
    by_cases hr : trim r = []
    · exact ⟨_, .thinAlone hr⟩
    · exact ⟨_, .afterThin hr⟩
  · exact ⟨_, .plain hthin⟩

private theorem trim_thin_append {r : List Char} (hr : trim r = []) :
    trim (Latex.thin.toList ++ r) = Latex.thin.toList := by
  have hblank : ∀ c ∈ r, isBlank c = true := by
    rw [← visible_eq_nil, ← visible_trim, hr]
    rfl
  have htrim : trim (Latex.thin.toList ++ r) = trim Latex.thin.toList :=
    trim_append_of_blank (a := []) (by simp) Latex.thin.toList hblank
  exact htrim.trans (by decide)

/-- The summand of a discounted sum is found. -/
theorem DiscountedSum.discounted?_eq (hsum : DiscountedSum inside remainder)
    (hsummand : Summand remainder summand) : discounted? inside = some summand := by
  obtain ⟨⟨sum, hread⟩, hne⟩ := discountedSum_iff.mp hsum
  have hempty : remainder.isEmpty = false := by simpa using hne
  have hdrop (r : List Char) : (Latex.thin.toList ++ r).drop Latex.thin.length = r :=
    List.drop_left
  unfold discounted?
  rw [hread]
  cases hsummand with
  | afterThin hr => simp [hempty, hdrop, hr]
  | thinAlone hr => simp [hempty, hdrop, hr, trim_thin_append hr]
  | plain hthin => simp [hempty, hthin]

/-- What is found as the second summand is the summand of a discounted sum. -/
theorem discounted?_eq_some_iff : discounted? inside = some summand ↔
    ∃ remainder, DiscountedSum inside remainder ∧ Summand remainder summand := by
  refine ⟨fun h => ?_, fun ⟨_, hsum, hsummand⟩ => hsum.discounted?_eq hsummand⟩
  have hread : ∃ sum remainder, discountedSumPattern.read? inside = some (sum, remainder) ∧
      remainder ≠ [] := by
    unfold discounted? at h
    split at h
    next => cases h
    next sum remainder hread =>
      split at h
      next => cases h
      next hne => exact ⟨sum, remainder, hread, by simpa using hne⟩
  obtain ⟨sum, remainder, hread, hne⟩ := hread
  have hsum : DiscountedSum inside remainder := discountedSum_iff.mpr ⟨⟨sum, hread⟩, hne⟩
  obtain ⟨x, hx⟩ := exists_summand remainder
  obtain rfl := Option.some.inj ((hsum.discounted?_eq hx).symm.trans h)
  exact ⟨remainder, hsum, hx⟩

/-- Each check of an expression is passed or names what is missing. -/
theorem exists_split (e : List Char) : ∃ o, Split e o := by
  cases hopening : splitAt? Latex.expectation.toList e with
  | none => exact ⟨_, .noExpectation (splitAt?_eq_none_iff.mp hopening)⟩
  | some opened =>
      obtain ⟨before, inner⟩ := opened
      have opening := splitAt?_eq_some_iff.mp hopening
      cases hbar : splitAt? Latex.bar.toList inner with
      | none => exact ⟨_, .noBar opening (splitAt?_eq_none_iff.mp hbar)⟩
      | some barred =>
          obtain ⟨inside, conditioned⟩ := barred
          have bar := splitAt?_eq_some_iff.mp hbar
          cases hclosing : splitAt? "]".toList conditioned with
          | none =>
              exact ⟨_, .noBracket opening bar (splitAt?_singleton_eq_none.mp hclosing)⟩
          | some closed =>
              obtain ⟨condition, after⟩ := closed
              obtain ⟨rfl, hcondition⟩ := splitAt?_singleton.mp hclosing
              by_cases hsum : ∃ remainder, DiscountedSum (trim inside) remainder
              · obtain ⟨remainder, hsum⟩ := hsum
                obtain ⟨summand, hsummand⟩ := exists_summand remainder
                exact ⟨_, .split opening bar hcondition hsum hsummand⟩
              · exact ⟨_, .otherInside opening bar hcondition fun remainder h =>
                  hsum ⟨remainder, h⟩⟩

/-- What a case says is what the rule does. -/
theorem Split.transform {e : String} {o : Except RuleError String} (h : Split e.toList o) :
    linearity.transform e = o := by
  cases h with
  | noExpectation hopening =>
      simp [linearity, rule, splitExpectation, splitAt?_eq_none_iff.mpr hopening]
  | noBar opening hbar =>
      simp [linearity, rule, splitExpectation, splitAt?_eq_some_iff.mpr opening,
        splitAt?_eq_none_iff.mpr hbar]
  | noBracket opening bar hclosing =>
      simp [linearity, rule, splitExpectation, splitAt?_eq_some_iff.mpr opening,
        splitAt?_eq_some_iff.mpr bar, splitAt?_singleton_eq_none.mpr hclosing]
  | @otherInside before inner inside condition after opening bar hcondition hsum =>
      have hclosing : splitAt? [']'] (condition ++ ']' :: after) = some (condition, after) :=
        splitAt?_singleton.mpr ⟨rfl, hcondition⟩
      have hdiscounted := Option.eq_none_iff_forall_ne_some.mpr fun summand h => by
        obtain ⟨remainder, hsum', -⟩ := discounted?_eq_some_iff.mp h
        exact hsum remainder hsum'
      simp [linearity, rule, splitExpectation, splitAt?_eq_some_iff.mpr opening,
        splitAt?_eq_some_iff.mpr bar, hclosing, hdiscounted]
  | @split before inner inside condition after remainder summand opening bar hcondition hsum
      hsummand =>
      have hclosing : splitAt? [']'] (condition ++ ']' :: after) = some (condition, after) :=
        splitAt?_singleton.mpr ⟨rfl, hcondition⟩
      have hdiscounted := discounted?_eq_some_iff.mpr ⟨_, hsum, hsummand⟩
      simp [linearity, rule, splitExpectation, splitAt?_eq_some_iff.mpr opening,
        splitAt?_eq_some_iff.mpr bar, hclosing, hdiscounted, expect]
      rfl

/-- The first expectation is split in the one way that its form allows, and otherwise the
first part that is missing is named. -/
theorem linearity_transform_iff (e : String) (o : Except RuleError String) :
    linearity.transform e = o ↔ Split e.toList o := by
  refine ⟨fun h => ?_, Split.transform⟩
  obtain ⟨o', ho'⟩ := exists_split e.toList
  rwa [← h, ho'.transform]

end Bellman.Catalog
