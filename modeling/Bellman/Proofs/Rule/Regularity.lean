import Bellman.Proofs.Pattern.Independence
import Bellman.Proofs.Pattern.Spacing
import Bellman.Proofs.Rule.Offered
import Bellman.Proofs.Rule.Substitution

/-!
# The substitutions of the catalog are regular

Every pattern that a rule substitutes is read wherever an instance of it stands, whatever the
spacing, and what is written for an instance does not depend on its spacing either. So a
substitution does the same to an expression and to its normal spacing, and which substitutions
leave which patterns alone can be decided on their forms: `leavesAlone_of_forms`.
-/

namespace Bellman.Catalog

open Pattern Text

theorem determined_statePattern : statePattern.Determined :=
  determined_texts "v" ["(", "s", ")"] (by decide)

/-- The braces around the policy are read where they stand: what comes next is no brace. -/
theorem determined_policyPattern : policyPattern.Determined := by
  have arguments : (spaced [exactly "(", exactly "s", exactly ")"]).Determined :=
    determined_texts "(" ["s", ")"] (by decide)
  have policy : (spaced [exactly "\\pi", .optional "\x7d".toList, exactly "(", exactly "s",
      exactly ")"]).Determined := by
    refine (determined_exactly "\\pi").andThen (arguments.afterOptional
      (solid_exactly (by decide)).spaced (by decide) ?_)
    rintro m rest ⟨a, b, rfl, rfl, -⟩ hp
    exact absurd (List.cons_prefix_cons.mp hp).1 (by decide)
  refine (determined_exactly "v_").andThen (policy.afterOptional
    (solid_exactly (by decide)).spaced (by decide) ?_)
  rintro m rest ⟨a, b, rfl, rfl, -⟩ hp
  exact absurd (List.cons_prefix_cons.mp hp).1 (by decide)

theorem determined_valuePattern : valuePattern.Determined :=
  determined_policyPattern.orElse determined_statePattern fun _ _ h =>
    read?_eq_none_of_forms (by decide) h

namespace Substitution

theorem determined (s : Substitution) : s.pattern.Determined := by
  have state : givenStatePattern.Determined ∧ givenStatePattern.Solid :=
    ⟨determined_givenStatePattern, solid_givenStatePattern⟩
  cases s with
  | expectedReturn => exact determined_valuePattern
  | series => exact (determined_exactly _).andThen determined_wordEnd
  | recursion => exact (determined_exactly _).andThen determined_wordEnd
  | unrolled => exact determined_texts _ [Latex.seriesFactor, Latex.seriesReward] (by decide)
  | reward =>
      refine (determined_exactly _).spaced fun q hq => ?_
      obtain rfl | hq := List.mem_cons.mp hq
      · exact ⟨determined_exactly _, solid_exactly (by decide)⟩
      · obtain rfl := List.mem_singleton.mp hq
        exact state
  | nextState =>
      refine determined_futureStartPattern.spaced fun q hq => ?_
      obtain rfl := List.mem_singleton.mp hq
      exact state
  | nextValue =>
      refine determined_futureStartPattern.spaced fun q hq => ?_
      obtain rfl | hq := List.mem_cons.mp hq
      · exact ⟨determined_nextConditionPattern, (solid_exactly (by decide)).spaced⟩
      · obtain rfl := List.mem_singleton.mp hq
        exact ⟨determined_exactly _, solid_exactly (by decide)⟩

theorem tight (s : Substitution) : s.pattern.Tight := by
  have presentReturn : returnPattern.Tight := by
    rintro m rest ⟨a, b, rfl, rfl, rfl, -⟩
    exact ⟨"G_".toList, 't', by decide, by decide⟩
  have closing : (exactly "]").Tight := tight_exactly (by decide)
  cases s with
  | expectedReturn =>
      exact (Tight.spaced rfl (tight_exactly (by decide))).orElse
        (Tight.spaced rfl (tight_exactly (by decide)))
  | series => exact presentReturn
  | recursion => exact presentReturn
  | unrolled => exact Tight.spaced rfl (tight_exactly (by decide))
  | reward => exact Tight.spaced rfl (Tight.spaced rfl closing)
  | nextState => exact Tight.spaced rfl (Tight.spaced rfl closing)
  | nextValue => exact Tight.spaced rfl closing

theorem regular (s : Substitution) : s.pattern.Regular where
  solid := s.solid
  tight := s.tight
  compact := by
    have h : ∀ s ∈ all, s.pattern.Compact := by decide
    exact h s s.mem_all
  determined := s.determined

end Substitution

/-- The return inside of an expectation is the one that stands at its start. -/
theorem futureInside_append {a future rest : List Char} (ha : ∀ c ∈ a, isBlank c = true)
    (hfuture : futurePattern.Matches future rest) :
    futureInside (Latex.expectation.toList ++ (a ++ (future ++ rest))) = future := by
  have hhead := solid_futurePattern.head?_append hfuture
  have htrim : trimLeft (a ++ (future ++ rest)) = future ++ rest := by
    rw [trimLeft_append_of_blank ha, trimLeft_of_head hhead]
  have hdrop : (Latex.expectation.toList ++ (a ++ (future ++ rest))).drop
      Latex.expectation.length = a ++ (future ++ rest) :=
    List.drop_left
  rw [futureInside, hdrop, htrim, determined_futurePattern future rest hfuture]

theorem regular_futurePattern : futurePattern.Regular where
  solid := solid_futurePattern
  tight := (tight_exactly (by decide)).orElse (Tight.spaced rfl (tight_exactly (by decide)))
  compact := by decide
  determined := determined_futurePattern

/-- The parts of an expected next return: its opening, the return and what stands behind. -/
theorem exists_of_matches_futureGivenState {m rest : List Char}
    (h : futureGivenStatePattern.Matches m rest) :
    ∃ a future tail, m = Latex.expectation.toList ++ (a ++ (future ++ tail)) ∧
      (∀ c ∈ a, isBlank c = true) ∧ futurePattern.Matches future tail := by
  have contained : futurePattern.Contained := by decide
  obtain ⟨start, tail, rfl, ⟨opening, inner, rfl, rfl, a, future, rfl, ha, hfuture⟩, -⟩ := h
  exact ⟨a, future, tail, by simp, ha, contained.of_rest hfuture tail⟩

/-- The return is written in normal spacing, so the spacing of what is found does not
matter. -/
theorem conditionOnNext_collapse {m rest : List Char}
    (h : futureGivenStatePattern.Matches m rest) :
    conditionOnNext (collapse m) = conditionOnNext m := by
  obtain ⟨a, future, tail, rfl, ha, hfuture⟩ := exists_of_matches_futureGivenState h
  have hopening : ∀ c ∈ Latex.expectation.toList, isBlank c = false := by
    have hall : Latex.expectation.toList.all (!isBlank ·) = true := by decide
    simpa using hall
  have hread := regular_futurePattern.compact.read?_collapse regular_futurePattern.tight
    (future ++ tail)
  have hcollapse : collapse (future ++ tail) = collapse future ++ collapse tail :=
    collapse_append_of_last (regular_futurePattern.tight.last hfuture)
  rw [determined_futurePattern future tail hfuture, hcollapse] at hread
  have hinside : futureInside (collapse (Latex.expectation.toList ++ (a ++ (future ++ tail)))) =
      collapse future := by
    rw [collapse_append_of_visible hopening,
      collapse_append_of_head (solid_futurePattern.head?_append hfuture), hcollapse]
    exact futureInside_append (isBlank_of_mem_collapse ha) (matches_of_read? hread)
  rw [conditionOnNext, conditionOnNext, hinside, futureInside_append ha hfuture,
    normalize_congr (collapse_collapse future)]

namespace Substitution

/-- What is written depends on the words of what is found and ends with a visible
character. -/
theorem settled (s : Substitution) : s.pattern.Settled s.replacement where
  respaced := by
    intro m rest h
    cases s with
    | nextState => exact conditionOnNext_collapse h
    | _ => rfl
  last := by
    intro m
    have hend : Latex.givenNextState.toList.getLast? = some ']' := by decide
    cases s with
    | nextState =>
        rw [replacement, conditionOnNext, List.getLast?_append, hend]
        rfl
    | _ => rfl

/-- Substituting in an expression or in its normal spacing is the same. -/
theorem normalize_rewrite_normalize (s : Substitution) (cs : List Char) :
    normalize (s.rewrite (normalize cs)) = normalize (s.rewrite cs) :=
  s.regular.normalize_rewrite_normalize s.settled cs

/-- What is written for instances leaves a pattern alone if none of the forms of the pattern
begins in it or reaches into it. -/
theorem leavesAlone_of_forms (s : Substitution) {p q : Pattern}
    (forms : ∀ w ∈ q.forms, ∀ g ∈ s.outcomes, Avoids w g ∧ Avoids g w.tail)
    (behind : ∀ m cs, q.Matches m (p.rewrite s.replacement cs) ↔ q.Matches m cs) :
    LeavesAlone p s.replacement q where
  starts := by
    intro m
    obtain ⟨c, hc, hhead⟩ := s.head_replacement m
    simp [hhead, isBlank_of_mem_heads hc]
  inside := fun w hw m => (forms w hw _ (s.visible_replacement_mem m)).1
  reaching := fun w hw m => (forms w hw _ (s.visible_replacement_mem m)).2
  behind := behind

/-- The present return, and what is put in its place, begin with a word character. -/
theorem matches_recursion (m cs : List Char) :
    returnPattern.Matches m (recursion.rewrite cs) ↔ returnPattern.Matches m cs := by
  have hhead : (recursion.rewrite cs).head?.any isWordChar = cs.head?.any isWordChar := by
    cases cs using recursion.solid.scan with
    | nil => rfl
    | found m rest hm hmatches hread ih =>
        obtain ⟨a, b, rfl, rfl, rfl, -⟩ := hmatches
        rw [rewrite, rewrite_append hm hread]
        rfl
    | kept c cs hread ih =>
        rw [rewrite, rewrite_cons hread]
        rfl
  exact ⟨fun h => h.of_rest fun hrest => by rwa [← hhead],
    fun h => h.of_rest fun hrest => by rwa [hhead]⟩

end Substitution

end Bellman.Catalog
