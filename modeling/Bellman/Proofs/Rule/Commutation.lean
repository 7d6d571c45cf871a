import Bellman.Proofs.Rule.Lexing
import Bellman.Proofs.Rule.Regularity

/-!
# Substitutions that commute

Two substitutions between lexemes do not see each other: neither finds anything in what the
other writes or at its ends, and no instance of the one begins inside of one of the other. So
both orders work where both substitutions do, and they lead to the same expression. The
exception is the sum over the next state, which brings in the expectation that the next value
replaces.
-/

namespace Bellman.Catalog

open Text Pattern

namespace Substitution

variable {s s' : Substitution}

/-- Whether one of two substitutions writes what the other replaces. -/
def Feeds (s s' : Substitution) : Prop :=
  s = nextState ∧ s' = nextValue ∨ s = nextValue ∧ s' = nextState

instance (s s' : Substitution) : Decidable (s.Feeds s') :=
  inferInstanceAs (Decidable (_ ∧ _ ∨ _ ∧ _))

theorem Feeds.symm (h : s.Feeds s') : s'.Feeds s := by
  obtain ⟨rfl, rfl⟩ | ⟨rfl, rfl⟩ := h
  · exact .inr ⟨rfl, rfl⟩
  · exact .inl ⟨rfl, rfl⟩

theorem contained (hs : s ∈ lexical) : s.pattern.Contained := by
  have h : ∀ s ∈ lexical, s.pattern.Contained := by decide
  exact h s hs

theorem independent (hs : s ∈ lexical) (hs' : s' ∈ lexical) (hne : s ≠ s')
    (apart : ¬ s.Feeds s') :
    Independent s.pattern s.replacement s'.pattern s'.replacement := by
  have forms : ∀ s ∈ lexical, ∀ s' ∈ lexical, s ≠ s' → ¬ s.Feeds s' →
      ∀ w ∈ s'.pattern.forms, (∀ g ∈ s.outcomes, Avoids w g ∧ Avoids g w.tail) ∧
        ∀ v ∈ s.pattern.forms, Avoids v w ∧ Avoids w v := by
    decide +kernel
  have hforms := forms s hs s' hs' hne apart
  have hforms' := forms s' hs' s hs hne.symm fun h => apart h.symm
  exact
    { first := s.leavesAlone_of_forms (fun w hw => (hforms w hw).1)
        fun m cs => (contained hs').matches_iff m _ cs
      second := s'.leavesAlone_of_forms (fun w hw => (hforms' w hw).1)
        fun m cs => (contained hs).matches_iff m _ cs
      apart := fun v hv w hw => (hforms w hw).2 v hv }

/-- After an independent substitution another one does what it does to the expression that is
not given normal spacing in between. -/
theorem transform_after
    (independent : Independent s.pattern s.replacement s'.pattern s'.replacement) {e a : String}
    (ha : s.rule.transform e = .ok a) (h : s'.pattern.occursIn e.toList = true) :
    s'.rule.transform a =
      .ok (String.ofList (normalize (s'.rewrite (s.rewrite e.toList)))) := by
  obtain ⟨-, rfl⟩ := s.transform_eq_ok.mp ha
  rw [s'.transform_eq_ok, String.toList_ofList, s'.regular.occursIn_normalize,
    s'.normalize_rewrite_normalize]
  exact ⟨(independent.occursIn_rewrite s.solid s'.solid s'.determined e.toList).trans h, rfl⟩

end Substitution

/-- Substitutions between lexemes commute, unless one of them writes what the other
replaces. -/
theorem transforms_commute {s s' : Substitution} (hs : s ∈ lexical) (hs' : s' ∈ lexical)
    (hne : s ≠ s') (apart : ¬ s.Feeds s') {e a b : String} (ha : s.rule.transform e = .ok a)
    (hb : s'.rule.transform e = .ok b) :
    ∃ out, s'.rule.transform a = .ok out ∧ s.rule.transform b = .ok out := by
  have independent := Substitution.independent hs hs' hne apart
  have hoccurs := (s.transform_eq_ok.mp ha).1
  have hoccurs' := (s'.transform_eq_ok.mp hb).1
  refine ⟨_, Substitution.transform_after independent ha hoccurs', ?_⟩
  rw [Substitution.transform_after independent.symm hb hoccurs, Substitution.rewrite,
    Substitution.rewrite, Substitution.rewrite, Substitution.rewrite,
    independent.rewrite_comm s.solid s'.solid s.determined s'.determined]

/-- The value and the expected reward side by side. -/
theorem value_and_reward_commute :
    defValue.transform ("v(s)" ++ Latex.expectation ++ Latex.nextReward ++ Latex.givenState) =
        .ok (Latex.expectation ++ Latex.presentReturn ++ Latex.givenState ++
          Latex.expectation ++ Latex.nextReward ++ Latex.givenState) ∧
      defineReward.transform ("v(s)" ++ Latex.expectation ++ Latex.nextReward ++
        Latex.givenState) = .ok "v(s)r(s)" ∧
      ∃ out, defineReward.transform (Latex.expectation ++ Latex.presentReturn ++
          Latex.givenState ++ Latex.expectation ++ Latex.nextReward ++ Latex.givenState) =
            .ok out ∧
        defValue.transform "v(s)r(s)" = .ok out := by
  have hvalue : Substitution.expectedReturn.rule.transform
      ("v(s)" ++ Latex.expectation ++ Latex.nextReward ++ Latex.givenState) =
        .ok (Latex.expectation ++ Latex.presentReturn ++ Latex.givenState ++
          Latex.expectation ++ Latex.nextReward ++ Latex.givenState) := by
    decide
  have hreward : Substitution.reward.rule.transform
      ("v(s)" ++ Latex.expectation ++ Latex.nextReward ++ Latex.givenState) =
        .ok "v(s)r(s)" := by
    decide
  exact ⟨hvalue, hreward,
    transforms_commute (by decide) (by decide) (by decide) (by decide) hvalue hreward⟩

/-- The order matters for the sum over the next state and the next value. -/
example : ∃ e, (totalExpectation.transform e).bind valueSubstitution.transform ≠
    (valueSubstitution.transform e).bind totalExpectation.transform :=
  ⟨Latex.expectation ++ Latex.nextReturn ++ Latex.givenState ++ Latex.expectation ++
    Latex.nextReturn ++ Latex.givenNextState, by decide⟩

end Bellman.Catalog
