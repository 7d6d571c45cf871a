import Bellman.Proofs.Rule.Blocked
import Mathlib.Order.WellFounded

/-!
# Rewriting terminates

The rules of the catalog cannot be applied forever, in any order and to any text. Almost all
they do is moves, and these use up the potential. The equation is completed once at most,
because that brings in an equality sign beyond those of conditions and series, which no move
takes away. And an expectation is split under a foreign condition once at most, because that
blocks the expression. So there are three stages, and in each of them only moves are left.
-/

namespace Bellman.Catalog

open Text Pattern

/-- A rule of the catalog takes the one expression to the other. -/
def Rewrites (e out : String) : Prop :=
  ∃ r ∈ rules, r.transform e = .ok out

/-- What a row of moves does to an expression. -/
structure Spends (e out : List Char) : Prop where
  lighter : potential out < potential e
  level : surplus (visible out) = surplus (visible e)
  blocked : Blocked e → Blocked out

/-- Splitting an expectation is a move, or blocks the expression. -/
theorem spends_or_blocked_of_linearity {e out : String} (h : linearity.transform e = .ok out) :
    Spends e.toList out.toList ∨ ¬ Blocked e.toList ∧ Blocked out.toList := by
  obtain ⟨cs, hcs, rfl⟩ := linearity_eq_ok.mp h
  obtain ⟨before, inside, condition, after, summand, hsplit, rfl⟩ := exists_splitAs hcs
  rw [String.toList_ofList]
  by_cases hcondition : visible condition = "S_t=s".toList
  · have hmoves := hsplit.replaces hcondition
    rw [← visible_normalize (before ++ _)] at hmoves
    exact .inl ⟨potential_lt Nat.one_pos hmoves, surplus_eq hmoves,
      fun hblocked => (hblocked.of_splitAs hsplit).2.normalize⟩
  · refine .inr ⟨fun hblocked => ?_, (hsplit.blocked hcondition).normalize⟩
    exact hcondition (hblocked.of_splitAs hsplit).1

/-- Completing the equation needs an expression without a surplus and gives one with it. -/
theorem surplus_of_assembleBellman {e out : String} (h : assembleBellman.transform e = .ok out) :
    ¬ Blocked e.toList ∧ surplus (visible e.toList) = 0 ∧ surplus (visible out.toList) ≠ 0 := by
  obtain ⟨cs, hcs, rfl⟩ := assembleBellman_eq_ok.mp h
  obtain ⟨rfl, hsurplus, hbracket⟩ := surplus_of_assemble hcs
  refine ⟨fun hblocked => ?_, hsurplus, ?_⟩
  · exact hbracket (mem_visible.mpr ⟨hblocked.mem, by decide⟩)
  · rw [String.toList_ofList, visible_normalize, surplus_bellmanEquation]
    decide

/-- What a rule can do to an expression. -/
theorem Rewrites.cases {e out : String} (h : Rewrites e out) :
    Spends e.toList out.toList ∨ (¬ Blocked e.toList ∧ Blocked out.toList) ∨
      (¬ Blocked e.toList ∧ surplus (visible e.toList) = 0 ∧
        surplus (visible out.toList) ≠ 0) := by
  obtain ⟨r, hr, hout⟩ := h
  obtain ⟨s, rfl⟩ | rfl | rfl := mem_rules_cases hr
  · left
    obtain ⟨hoccurs, rfl⟩ := s.transform_eq_ok.mp hout
    obtain ⟨n, hmoves, hpos⟩ := s.replaces_rewrite e.toList
    rw [← visible_normalize (s.rewrite _)] at hmoves
    rw [String.toList_ofList]
    exact ⟨potential_lt (hpos hoccurs) hmoves, surplus_eq hmoves,
      fun hblocked => (hblocked.rewrite s).normalize⟩
  · obtain hspends | hblocked := spends_or_blocked_of_linearity hout
    · exact .inl hspends
    · exact .inr (.inl hblocked)
  · exact .inr (.inr (surplus_of_assembleBellman hout))

/-- In a stage in which a rule leads on or makes the expression lighter, rewriting comes to
an end. -/
theorem acc_of_stage (stage : String → Prop)
    (step : ∀ e out, stage e → Rewrites e out →
      Acc (fun out e => Rewrites e out) out ∨
        stage out ∧ potential out.toList < potential e.toList)
    {e : String} (h : stage e) : Acc (fun out e => Rewrites e out) e := by
  induction hpotential : potential e.toList using Nat.strong_induction_on generalizing e with
  | h n ih =>
      refine Acc.intro e fun out hout => ?_
      obtain hacc | ⟨hstage, hlt⟩ := step e out h hout
      · exact hacc
      · exact ih _ (hpotential ▸ hlt) hstage rfl

/-- On a blocked expression rules only make moves. -/
theorem acc_of_blocked {e : String} (h : Blocked e.toList) :
    Acc (fun out e => Rewrites e out) e := by
  refine acc_of_stage (fun e => Blocked e.toList) (fun e out hstage hout => ?_) h
  obtain hspends | ⟨hnot, -⟩ | ⟨hnot, -⟩ := hout.cases
  · exact .inr ⟨hspends.blocked hstage, hspends.lighter⟩
  · exact absurd hstage hnot
  · exact absurd hstage hnot

/-- With a surplus of equality signs the equation is not completed any more. -/
theorem acc_of_surplus {e : String} (h : surplus (visible e.toList) ≠ 0) :
    Acc (fun out e => Rewrites e out) e := by
  refine acc_of_stage (fun e => surplus (visible e.toList) ≠ 0)
    (fun e out hstage hout => ?_) h
  obtain hspends | ⟨-, hblocked⟩ | ⟨-, hzero, -⟩ := hout.cases
  · exact .inr ⟨by rwa [hspends.level], hspends.lighter⟩
  · exact .inl (acc_of_blocked hblocked)
  · exact absurd hzero hstage

/-- From every expression rewriting comes to an end. -/
theorem wellFounded_rewrites : WellFounded fun out e => Rewrites e out := by
  refine ⟨fun e => acc_of_stage (fun _ => True) (fun e out _ hout => ?_) trivial⟩
  obtain hspends | ⟨-, hblocked⟩ | ⟨-, -, hsurplus⟩ := hout.cases
  · exact .inr ⟨trivial, hspends.lighter⟩
  · exact .inl (acc_of_blocked hblocked)
  · exact .inl (acc_of_surplus hsurplus)

/-- No sequence of expressions goes on forever in which each comes from the one before by a
rule of the catalog, whether or not the rule is offered. -/
theorem no_infinite_rewriting :
    ¬ ∃ e : ℕ → String, ∀ i, ∃ r ∈ rules, r.transform (e i) = .ok (e (i + 1)) := by
  rintro ⟨e, he⟩
  have : IsWellFounded String fun out e => Rewrites e out := ⟨wellFounded_rewrites⟩
  obtain ⟨i, hi⟩ := WellFounded.not_rel_apply_succ (r := fun out e => Rewrites e out) e
  exact hi (he i)

end Bellman.Catalog
