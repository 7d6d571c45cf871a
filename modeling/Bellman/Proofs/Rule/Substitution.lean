import Bellman.Proofs.Pattern.Instances
import Bellman.Proofs.Rule.Transform

/-!
# The substitutions of the catalog

Seven of the nine rules replace every occurrence of one pattern, so what holds of all of
them is said once, of a pattern and its replacement. Besides them a rule splits an
expectation or completes the equation: `mem_rules_cases`.
-/

namespace Bellman.Catalog

open Text Pattern

/-- The rules that replace the occurrences of one pattern, by what they bring in. -/
inductive Substitution where
  | expectedReturn
  | series
  | recursion
  | unrolled
  | reward
  | nextState
  | nextValue
deriving DecidableEq

namespace Substitution

def all : List Substitution :=
  [expectedReturn, series, recursion, unrolled, reward, nextState, nextValue]

theorem mem_all (s : Substitution) : s ∈ all := by
  cases s <;> decide

/-- The rule that replaces in this way. -/
def rule : Substitution → Rule
  | expectedReturn => defValue
  | series => defReturn
  | recursion => recursiveReturn
  | unrolled => unrollReturn
  | reward => defineReward
  | nextState => totalExpectation
  | nextValue => valueSubstitution

/-- What gives way. -/
def pattern : Substitution → Pattern
  | expectedReturn => valuePattern
  | series | recursion => returnPattern
  | unrolled => seriesPattern
  | reward => rewardPattern
  | nextState => futureGivenStatePattern
  | nextValue => futureGivenNextPattern

/-- What is put in the place of an occurrence. -/
def replacement : Substitution → List Char → List Char
  | expectedReturn, _ => (Latex.expectation ++ Latex.presentReturn ++ Latex.givenState).toList
  | series, _ => Latex.returnSeries.toList
  | recursion, _ => (Latex.nextReward ++ " + \\gamma " ++ Latex.nextReturn).toList
  | unrolled, _ => (Latex.nextReward ++ " + \\gamma " ++ Latex.shiftedSeries).toList
  | reward, _ => "r(s)".toList
  | nextState, m => conditionOnNext m
  | nextValue, _ => "v(s')".toList

/-- The rewriting of characters. -/
def rewrite (s : Substitution) (cs : List Char) : List Char :=
  s.pattern.rewrite s.replacement cs

/-- What an expression lacks in which nothing is found. -/
def form : Substitution → Form
  | expectedReturn => .value
  | series | recursion => .presentReturn
  | unrolled => .returnSeries
  | reward => .expectedReward
  | nextState => .futureGivenState
  | nextValue => .futureGivenNextState

/-- A substitution rewrites an expression in which its pattern occurs and refuses any other. -/
theorem transform_eq (s : Substitution) (e : String) :
    s.rule.transform e =
      if s.pattern.occursIn e.toList then .ok (String.ofList (normalize (s.rewrite e.toList)))
      else .error (.missing s.form) := by
  -- What a rule is called and when it is offered plays no part in its transform.
  have of_substitute {form : Form} {p : Pattern} {replacement : List Char → List Char} :
      (Catalog.rule "" "" "" "" (fun _ => true) (substitute p form replacement)).transform e =
        if p.occursIn e.toList then
          .ok (String.ofList (normalize (p.rewrite replacement e.toList)))
        else .error (.missing form) := by
    simp only [Catalog.rule, substitute]
    by_cases hoccurs : p.occursIn e.toList = true
    · simp [hoccurs]
    · simp [hoccurs]
  cases s <;> exact of_substitute

/-- A substitution returns something where its pattern occurs. -/
theorem transform_eq_ok (s : Substitution) {e out : String} :
    s.rule.transform e = .ok out ↔
      s.pattern.occursIn e.toList = true ∧
        out = String.ofList (normalize (s.rewrite e.toList)) := by
  rw [s.transform_eq]
  by_cases hoccurs : s.pattern.occursIn e.toList = true
  · simp [hoccurs, eq_comm]
  · simp [hoccurs]

/-- Every occurrence begins with a character that is not blank. -/
theorem solid (s : Substitution) : s.pattern.Solid := by
  have series : seriesPattern.Solid := (solid_exactly (by decide)).spaced
  have future : futureStartPattern.Solid := (solid_exactly (by decide)).spaced
  cases s with
  | expectedReturn =>
      exact (solid_exactly (by decide)).spaced.orElse (solid_exactly (by decide)).spaced
  | series => exact (solid_exactly (by decide)).andThen
  | recursion => exact (solid_exactly (by decide)).andThen
  | unrolled => exact series
  | reward => exact (solid_exactly (by decide)).spaced
  | nextState => exact future.spaced
  | nextValue => exact future.spaced

/-- What a substitution writes for an occurrence, in visible characters. -/
def outcomes : Substitution → List (List Char)
  | .nextState => ([] :: futurePattern.forms).map fun future =>
      visible (Latex.stateSum ++ " " ++ Latex.transition ++ Latex.thin ++
        Latex.expectation).toList ++ future ++ visible Latex.givenNextState.toList
  | s => [visible (s.replacement [])]

private theorem visible_futureInside (m : List Char) :
    visible (futureInside m) ∈ [] :: futurePattern.forms := by
  unfold futureInside
  split
  next future rest hread =>
    exact List.mem_cons_of_mem _ (visible_mem_forms (matches_of_read? hread))
  next => exact List.mem_cons_self

/-- The characters with which the texts begin that substitutions write. -/
def heads : List Char :=
  ['\\', 'R', 'r', 'v']

theorem isBlank_of_mem_heads {c : Char} (hc : c ∈ heads) : isBlank c = false := by
  simp only [heads, List.mem_cons, List.not_mem_nil, or_false] at hc
  obtain rfl | rfl | rfl | rfl := hc <;> rfl

theorem head_replacement (s : Substitution) (m : List Char) :
    ∃ c ∈ heads, (s.replacement m).head? = some c := by
  cases s <;> exact ⟨_, by decide, rfl⟩

theorem visible_replacement_mem (s : Substitution) (m : List Char) :
    visible (s.replacement m) ∈ s.outcomes := by
  cases s with
  | nextState =>
      refine List.mem_map.mpr ⟨visible (futureInside m), visible_futureInside m, ?_⟩
      simp only [replacement, conditionOnNext, visible_append, visible_normalize]
  | _ => exact List.mem_singleton_self _

end Substitution

/-- A rule of the catalog replaces the occurrences of a pattern, splits an expectation or
completes the equation. -/
theorem mem_rules_cases {r : Rule} (h : r ∈ rules) :
    (∃ s : Substitution, r = s.rule) ∨ r = linearity ∨ r = assembleBellman := by
  simp only [rules, List.mem_cons, List.not_mem_nil, or_false] at h
  obtain rfl | rfl | rfl | rfl | rfl | rfl | rfl | rfl | rfl := h
  · exact .inl ⟨.expectedReturn, rfl⟩
  · exact .inl ⟨.series, rfl⟩
  · exact .inl ⟨.recursion, rfl⟩
  · exact .inl ⟨.unrolled, rfl⟩
  · exact .inr (.inl rfl)
  · exact .inl ⟨.reward, rfl⟩
  · exact .inl ⟨.nextState, rfl⟩
  · exact .inl ⟨.nextValue, rfl⟩
  · exact .inr (.inr rfl)

theorem linearity_eq_ok {e out : String} :
    linearity.transform e = .ok out ↔
      ∃ cs, splitExpectation e.toList = .ok cs ∧ out = String.ofList (normalize cs) :=
  transform_rule_eq_ok

theorem assembleBellman_eq_ok {e out : String} :
    assembleBellman.transform e = .ok out ↔
      ∃ cs, assemble e.toList = .ok cs ∧ out = String.ofList (normalize cs) :=
  transform_rule_eq_ok

end Bellman.Catalog
