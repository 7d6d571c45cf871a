import Bellman.Proofs.Pattern.Decomposition
import Bellman.Proofs.Rule.Regularity

/-!
# What substitutions replace

A substitution refuses an expression exactly if no instance of its pattern stands in it. Any
other expression it replaces by the text in which all instances have given way to what is
written for them, wherever they stand, and everything between them is kept but for its spacing.
-/

namespace Bellman.Catalog

open Text Pattern

namespace Substitution

/-- What is written for an instance: always the same text, but for the next return a sum over
the next state with the return in it, in normal spacing. -/
def Writes : Substitution → List Char → List Char → Prop
  | expectedReturn, _, g => g = "\\mathbb\x7bE\x7d[G_t\\mid S_t=s]".toList
  | series, _, g => g = "\\sum_\x7bk=0\x7d^\x7b\\infty\x7d \\gamma^k R_\x7bt+1+k\x7d".toList
  | recursion, _, g => g = "R_\x7bt+1\x7d + \\gamma G_\x7bt+1\x7d".toList
  | unrolled, _, g => g = ("R_\x7bt+1\x7d + \\gamma " ++
      "\\sum_\x7bk=0\x7d^\x7b\\infty\x7d \\gamma^k R_\x7bt+2+k\x7d").toList
  | reward, _, g => g = "r(s)".toList
  | nextState, m, g =>
      ∃ a future tail, m = Latex.expectation.toList ++ (a ++ (future ++ tail)) ∧
        (∀ c ∈ a, isBlank c = true) ∧ futurePattern.Matches future tail ∧
          g = "\\sum_\x7bs'\x7d p(s'\\mid s)\\,\\mathbb\x7bE\x7d[".toList ++
            (normalize future ++ "\\mid S_\x7bt+1\x7d=s']".toList)
  | nextValue, _, g => g = "v(s')".toList

theorem writes_replacement (s : Substitution) {m rest : List Char}
    (h : s.pattern.Matches m rest) : s.Writes m (s.replacement m) := by
  cases s with
  | nextState =>
      obtain ⟨a, future, tail, rfl, ha, hfuture⟩ := exists_of_matches_futureGivenState h
      refine ⟨a, future, tail, rfl, ha, hfuture, ?_⟩
      rw [replacement, conditionOnNext, futureInside_append ha hfuture, List.append_assoc]
      rfl
  | _ => rfl

/-- No instance begins inside of another. -/
theorem avoids_tail_of_forms (s : Substitution) :
    ∀ v ∈ s.pattern.forms, ∀ w ∈ s.pattern.forms, Avoids v w.tail := by
  have h : ∀ s ∈ all, ∀ v ∈ s.pattern.forms, ∀ w ∈ s.pattern.forms, Avoids v w.tail := by
    decide +kernel
  exact h s s.mem_all

/-- The value is replaced with and without a policy at once, or first the one and then the
other. -/
theorem rewrite_expectedReturn (cs : List Char) :
    statePattern.rewrite expectedReturn.replacement
        (policyPattern.rewrite expectedReturn.replacement cs) =
      expectedReturn.rewrite cs := by
  have state : statePattern.Solid := (solid_exactly (by decide)).spaced
  have policy : policyPattern.Solid := (solid_exactly (by decide)).spaced
  have contained : statePattern.Contained := by decide
  have forms : ∀ w ∈ statePattern.forms, ∀ g ∈ expectedReturn.outcomes,
      Avoids w g ∧ Avoids g w.tail := by
    decide
  have apart : ∀ v ∈ policyPattern.forms, ∀ w ∈ statePattern.forms, Avoids v w := by decide
  have leaves : LeavesAlone policyPattern expectedReturn.replacement statePattern :=
    expectedReturn.leavesAlone_of_forms forms fun m cs => contained.matches_iff m _ cs
  exact leaves.rewrite_rewrite policy state determined_statePattern apart cs

end Substitution

/-- A substitution refuses an expression exactly if no instance of its pattern stands in it.
Otherwise the expression is kept text with instances of the pattern in between, one at least,
where no other instance begins, and the result is the kept text, in normal spacing, with what
is written for the instances. For the value this is what replacing first the value under a
policy and then the value without one gives. -/
theorem transform_replaces_instances (s : Substitution) (e : String) :
    (s.rule.transform e = .error (.missing s.form) ↔ ¬ s.pattern.Stands e.toList) ∧
      (s.pattern.Stands e.toList → ∃ cut : Cut, cut.blocks ≠ [] ∧ cut.text id = e.toList ∧
        s.pattern.Exhibits cut.rest cut.blocks ∧
          (∀ b ∈ cut.blocks, s.Writes b.found (s.replacement b.found)) ∧
            s.rule.transform e = .ok (String.ofList (normalize (cut.text s.replacement)))) ∧
      (s = .expectedReturn → s.rewrite e.toList =
        statePattern.rewrite s.replacement (policyPattern.rewrite s.replacement e.toList)) := by
  have hstands : s.pattern.occursIn e.toList = true ↔ s.pattern.Stands e.toList :=
    s.determined.occursIn_iff_stands
  refine ⟨?_, fun h => ⟨s.pattern.cut e.toList, ?_, ?_, ?_, ?_, ?_⟩, ?_⟩
  · rw [← hstands, s.transform_eq]
    split <;> simp_all
  · exact s.solid.blocks_ne_nil s.determined h
  · exact s.solid.text_cut e.toList
  · exact s.solid.exhibits_cut s.determined s.avoids_tail_of_forms e.toList
  · intro b hb
    obtain ⟨rest, hm⟩ := matches_of_block hb
    exact s.writes_replacement hm
  · rw [s.transform_eq, if_pos (hstands.mpr h), Substitution.rewrite, rewrite_eq_text]
  · rintro rfl
    exact (Substitution.rewrite_expectedReturn e.toList).symm

/-- The value under a policy and the value without one, in either spacing. -/
theorem replaced_values_of_policy :
    valuePattern.Stands "v_\\pi ( s ) = v(s)".toList ∧
      (∃ cut : Cut, cut.blocks ≠ [] ∧ cut.text id = "v_\\pi ( s ) = v(s)".toList ∧
        valuePattern.Exhibits cut.rest cut.blocks ∧
          (∀ b ∈ cut.blocks, Substitution.expectedReturn.Writes b.found
            (Substitution.expectedReturn.replacement b.found)) ∧
            defValue.transform "v_\\pi ( s ) = v(s)" = .ok (String.ofList
              (normalize (cut.text Substitution.expectedReturn.replacement)))) ∧
      Substitution.expectedReturn.rewrite "v_\\pi ( s ) = v(s)".toList =
        statePattern.rewrite Substitution.expectedReturn.replacement
          (policyPattern.rewrite Substitution.expectedReturn.replacement
            "v_\\pi ( s ) = v(s)".toList) := by
  have h : valuePattern.Stands "v_\\pi ( s ) = v(s)".toList :=
    determined_valuePattern.occursIn_iff_stands.mp (by decide)
  have hreplaces := transform_replaces_instances .expectedReturn "v_\\pi ( s ) = v(s)"
  exact ⟨h, hreplaces.2.1 h, hreplaces.2.2 rfl⟩

end Bellman.Catalog
