import Bellman.Proofs.Rule.Blocked
import Bellman.Proofs.Rule.Regularity
import Bellman.Proofs.Rule.SplitForm

/-!
# A rule is exhausted by one application

What a rule writes is never what it looks for, not even together with what stands around it.
A substitution leaves its own pattern alone, and the first expectation behind a splitting is
that of the reward, which is no discounted sum. Only the series of the present return is
different: it is no word, so a return in front of it comes to stand by itself.
-/

namespace Bellman.Catalog

open Text Pattern

namespace Substitution

/-- What a substitution writes leaves its pattern alone. -/
theorem leavesAlone_self {s : Substitution} (hs : s ≠ series) :
    LeavesAlone s.pattern s.replacement s.pattern := by
  have forms : ∀ s ∈ all, s ≠ series → ∀ w ∈ s.pattern.forms, ∀ g ∈ s.outcomes,
      Avoids w g ∧ Avoids g w.tail := by
    decide +kernel
  have contained : ∀ s ∈ all, s ≠ series → s ≠ recursion → s.pattern.Contained := by decide
  refine s.leavesAlone_of_forms (forms s s.mem_all hs) ?_
  by_cases hrecursion : s = recursion
  · subst hrecursion
    exact matches_recursion
  · exact fun m cs => (contained s s.mem_all hs hrecursion).matches_iff m _ cs

/-- Nothing is left of a pattern in the normal spacing of what is substituted. -/
theorem occursIn_normalize_rewrite {s : Substitution} (hs : s ≠ series) (cs : List Char) :
    s.pattern.occursIn (normalize (s.rewrite cs)) = false := by
  rw [s.regular.occursIn_normalize]
  exact (leavesAlone_self hs).occursIn_rewrite_self s.solid s.determined cs

end Substitution

/-- An expression whose first expectation is that of the reward is not split. -/
theorem linearity_of_wall {e : String} {before rest : List Char}
    (he : e.toList = before ++ (wall ++ rest)) (hbefore : ¬ Latex.expectation.toList <:+: before) :
    ∃ form, linearity.transform e = .error (.missing form) := by
  have opening : FirstIn Latex.expectation.toList e.toList before
      (Latex.nextReward.toList ++ (Latex.bar.toList ++ rest)) :=
    (firstIn_iff (d := '\\') rfl (by decide)).mpr ⟨by simp [he, wall], hbefore⟩
  have bar : FirstIn Latex.bar.toList (Latex.nextReward.toList ++ (Latex.bar.toList ++ rest))
      Latex.nextReward.toList rest :=
    (firstIn_iff (d := '\\') rfl (by decide)).mpr ⟨rfl, by decide⟩
  have hreward : discountedSumPattern.read? (trim Latex.nextReward.toList) = none := by decide
  by_cases hclosing : ']' ∈ rest
  · obtain ⟨condition, after, rfl, hcondition⟩ := List.eq_append_cons_of_mem hclosing
    refine ⟨_, (Split.otherInside opening bar hcondition fun remainder h => ?_).transform⟩
    obtain ⟨⟨sum, hread⟩, -⟩ := discountedSum_iff.mp h
    rw [hreward] at hread
    cases hread
  · exact ⟨_, (Split.noBracket opening bar hclosing).transform⟩

/-- What is written for the first expectation begins with the expected reward. -/
theorem linearity_of_transform {e out : String} (h : linearity.transform e = .ok out) :
    ∃ form, linearity.transform out = .error (.missing form) := by
  obtain ⟨cs, hcs, rfl⟩ := linearity_eq_ok.mp h
  obtain ⟨before, inside, condition, after, summand, hsplit, rfl⟩ := exists_splitAs hcs
  obtain ⟨rest, hrest⟩ := exists_splitText_eq condition summand
  have hout : before ++ (splitText condition summand ++ after) = before ++ (wall ++
      (" ".toList ++ (trim condition ++ ("]".toList ++ rest)) ++ after)) := by
    simp [hrest, wall]
  have hfirst : ¬ Latex.expectation.toList <:+: before :=
    ((firstIn_iff (d := '\\') rfl (by decide)).mp (splitAt?_eq_some_iff.mp hsplit.opening)).2
  rw [hout]
  refine linearity_of_wall (by rw [String.toList_ofList, normalize_around Blocked.firm_wall]) ?_
  intro hinside
  refine hfirst (infix_of_collapse Blocked.opening_visible (hinside.trans ?_))
  exact (List.dropWhile_suffix isBlank).isInfix

/-- One application exhausts every rule but the expansion of the return. -/
theorem transform_exhausts {r : Rule} (hr : r ∈ rules) (hid : r.id ≠ defReturn.id)
    {e out : String} (h : r.transform e = .ok out) :
    ∃ form, r.transform out = .error (.missing form) := by
  obtain ⟨s, rfl⟩ | rfl | rfl := mem_rules_cases hr
  · have hs : s ≠ .series := by
      rintro rfl
      exact hid rfl
    obtain ⟨-, rfl⟩ := s.transform_eq_ok.mp h
    refine ⟨s.form, ?_⟩
    rw [s.transform_eq, String.toList_ofList, Substitution.occursIn_normalize_rewrite hs]
    rfl
  · exact linearity_of_transform h
  · obtain ⟨cs, hcs, rfl⟩ := assembleBellman_eq_ok.mp h
    obtain ⟨rfl, -, -⟩ := surplus_of_assemble hcs
    exact ⟨.rightSide, by decide⟩

/-- A discounted sum that is left inside of the second part is behind the expected reward. -/
theorem linearity_exhausted_by_nested_sum :
    (linearity ∈ rules ∧ linearity.id ≠ defReturn.id) ∧
      linearity.transform (Latex.expectation ++ "R_\x7bt+1\x7d+\\gamma" ++
          Latex.expectation ++ "R_\x7bt+1\x7d+\\gamma X\\mid Z]") =
        .ok (Latex.expectation ++ "R_\x7bt+1\x7d\\mid Z] + \\gamma\\," ++
          Latex.expectation ++ Latex.expectation ++ "R_\x7bt+1\x7d+\\gamma X\\mid Z]") ∧
      ∃ form, linearity.transform (Latex.expectation ++ "R_\x7bt+1\x7d\\mid Z] + \\gamma\\," ++
          Latex.expectation ++ Latex.expectation ++ "R_\x7bt+1\x7d+\\gamma X\\mid Z]") =
        .error (.missing form) := by
  have hrule : linearity ∈ rules := by simp [rules]
  have hid : linearity.id ≠ defReturn.id := by decide
  have hrun : linearity.transform (Latex.expectation ++ "R_\x7bt+1\x7d+\\gamma" ++
      Latex.expectation ++ "R_\x7bt+1\x7d+\\gamma X\\mid Z]") =
        .ok (Latex.expectation ++ "R_\x7bt+1\x7d\\mid Z] + \\gamma\\," ++
          Latex.expectation ++ Latex.expectation ++ "R_\x7bt+1\x7d+\\gamma X\\mid Z]") := by
    decide
  exact ⟨⟨hrule, hid⟩, hrun, transform_exhausts hrule hid hrun⟩

/-- Between two returns only the second is a word of its own, until it is a series. -/
example : defReturn.transform "G_tG_t" = .ok ("G_t" ++ Latex.returnSeries) ∧
    defReturn.transform ("G_t" ++ Latex.returnSeries) =
      .ok (Latex.returnSeries ++ Latex.returnSeries) := by
  decide

end Bellman.Catalog
