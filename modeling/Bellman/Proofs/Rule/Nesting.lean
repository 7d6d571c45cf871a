import Bellman.Proofs.Rule.Splitting
import Bellman.Proofs.Text.Nesting

/-!
# Rules and nested brackets

Most rules replace texts with nested brackets by such texts, and leave the brackets of an
expression nested. Two rules need not. The value is found with a brace on one side only, and
that brace is lost without its partner. And the condition under which an expectation is split
ends at the first closing bracket, whatever that closes; what is opened in front of it is
written twice and closed once.
-/

namespace Bellman.Catalog

open Text Pattern

/-- Every text that a substitution writes is nested. -/
theorem wellNested_replacement (s : Substitution) (m : List Char) :
    WellNested (s.replacement m) := by
  have hall : ∀ s ∈ Substitution.all, ∀ g ∈ s.outcomes, WellNested g := by decide +kernel
  exact wellNested_visible.mp (hall s s.mem_all _ (s.visible_replacement_mem m))

/-- Every text that a substitution finds is nested, unless it is a value. -/
theorem wellNested_of_matches {s : Substitution} (hs : s ≠ .expectedReturn) {m rest : List Char}
    (h : s.pattern.Matches m rest) : WellNested m := by
  have hall : ∀ s ∈ Substitution.all, s ≠ .expectedReturn →
      ∀ f ∈ s.pattern.forms, WellNested f := by
    decide +kernel
  exact wellNested_visible.mp (hall s s.mem_all hs _ (visible_mem_forms h))

/-- A substitution leaves what was nested, and what was not, unless it is that of the value. -/
theorem wellNested_rewrite {s : Substitution} (hs : s ≠ .expectedReturn) (cs : List Char) :
    WellNested (s.rewrite cs) ↔ WellNested cs := by
  obtain ⟨n, hn, -⟩ := s.solid.replaces_rewrite s.replacement cs
  have heq : pending [] cs = pending [] (s.rewrite cs) := by
    refine hn.pending_eq ?_ []
    rintro m g ⟨-, ⟨rest, hm⟩, rfl⟩ due
    rw [(wellNested_of_matches hs hm).pending, (wellNested_replacement s m).pending]
  rw [wellNested_iff, wellNested_iff, heq]

/-- An expression without its values. -/
def withoutValues (e : List Char) : List Char :=
  valuePattern.rewrite (fun _ => []) e

/-- Rewriting in two ways that leave the same brackets leaves the same brackets. -/
theorem pending_rewrite_congr (p : Pattern) {replacement replacement' : List Char → List Char}
    (h : ∀ m due, pending due (replacement m) = pending due (replacement' m)) (cs due : List Char) :
    pending due (p.rewrite replacement cs) = pending due (p.rewrite replacement' cs) := by
  unfold rewrite
  induction p.pieces cs generalizing due with
  | nil => rfl
  | cons piece pieces ih =>
      rw [List.flatMap_cons, List.flatMap_cons, pending_append, pending_append]
      cases piece with
      | kept c =>
          cases pending due [c] with
          | none => rfl
          | some due' => exact ih due'
      | found m =>
          simp only [h]
          cases pending due (replacement' m) with
          | none => rfl
          | some due' => exact ih due'

/-- Replacing the values leaves the same brackets as leaving them out. -/
theorem wellNested_rewrite_value (cs : List Char) :
    WellNested (Substitution.expectedReturn.rewrite cs) ↔ WellNested (withoutValues cs) := by
  have heq : pending [] (Substitution.expectedReturn.rewrite cs) = pending [] (withoutValues cs) :=
    pending_rewrite_congr valuePattern
      (fun m due => (wellNested_replacement .expectedReturn m).pending due) cs []
  rw [wellNested_iff, wellNested_iff, heq]

section Splitting

variable {e before inside condition after summand : List Char}

private theorem pending_expectation (due : List Char) :
    pending due Latex.expectation.toList = some (']' :: due) :=
  rfl

private theorem pending_closing {due due' : List Char} :
    pending due "]".toList = some due' ↔ due = ']' :: due' := by
  have hmeet : pending due "]".toList = (meet due ']').bind some := rfl
  rw [hmeet, Option.bind_fun_some]
  exact meet_closer rfl (by decide)

private theorem wellNested_bar : WellNested Latex.bar.toList := by
  decide

/-- The inside has the brackets of the second summand. -/
private theorem pending_inside (h : SplitAs e before inside condition after summand)
    (due : List Char) : pending due inside = pending due summand := by
  have hsum : WellNested (Latex.nextReward ++ "+" ++ Latex.discount).toList := by decide
  have hthin : ∀ space ∈ [[], Latex.thin.toList], WellNested space := by decide
  obtain ⟨space, hspace, hinside⟩ := h.visible_inside
  rw [← pending_visible, hinside, pending_append, hsum.pending, Option.bind_some, pending_append,
    (hthin space hspace).pending, Option.bind_some, pending_visible]

/-- What is written has the brackets of the condition in an expectation, and then those of the
old expectation. -/
private theorem pending_splitText (condition summand after due : List Char) :
    pending due (splitText condition summand ++ after) =
      pending due (Latex.expectation.toList ++ (condition ++ ("]".toList ++
        (Latex.expectation.toList ++ (summand ++ (condition ++ ("]".toList ++ after))))))) := by
  have hreward : WellNested Latex.nextReward.toList := by decide
  have hspace : WellNested " ".toList := by decide
  have hsign : WellNested (" + " ++ Latex.discount ++ Latex.thin).toList := by decide
  have htrim (due : List Char) : pending due (trim condition) = pending due condition := by
    rw [← pending_visible, visible_trim, pending_visible]
  simp only [splitText, expect, pending_append, Option.bind_assoc, hreward.pending,
    wellNested_bar.pending, hspace.pending, hsign.pending, htrim, Option.bind_some]

/-- Splitting leaves an expression nested exactly if the condition is. -/
theorem SplitAs.wellNested_iff_condition (h : SplitAs e before inside condition after summand)
    (he : WellNested e) :
    WellNested (before ++ (splitText condition summand ++ after)) ↔ WellNested condition := by
  -- What is due before the expectation, and what is read from its second summand on.
  have hread := wellNested_iff.mp he
  rw [h.eq, pending_append, Option.bind_eq_some_iff] at hread
  obtain ⟨due, hbefore, hread⟩ := hread
  rw [pending_append, pending_expectation, Option.bind_some, pending_append, pending_inside h,
    ← pending_append] at hread
  have hsecond (due : List Char) :
      pending due (summand ++ (Latex.bar.toList ++ (condition ++ ("]".toList ++ after)))) =
        pending due (summand ++ (condition ++ ("]".toList ++ after))) := by
    simp only [pending_append, wellNested_bar.pending, Option.bind_some]
  rw [hsecond] at hread
  rw [wellNested_iff, pending_append, hbefore, Option.bind_some, pending_splitText,
    pending_append, pending_expectation, Option.bind_some, pending_append]
  constructor
  · intro hout
    obtain ⟨due₁, hcondition, hout⟩ := Option.bind_eq_some_iff.mp hout
    rw [pending_append] at hout
    obtain ⟨due₂, hclose, hout⟩ := Option.bind_eq_some_iff.mp hout
    rw [pending_append, pending_expectation, Option.bind_some] at hout
    -- The second summand needs as many brackets due as before, so the condition opens none.
    have hsame := length_pending hread hout
    have hclosed := pending_closing.mp hclose
    obtain ⟨opened, hopened, hdue⟩ := pending_above (a := []) h.closing_not_mem hcondition
    have hlength := congrArg List.length (hclosed.symm.trans hdue)
    simp only [List.length_cons, List.length_append] at hlength hsame
    obtain rfl : opened = [] := List.length_eq_zero_iff.mp (by omega)
    exact wellNested_iff.mpr hopened
  · intro hcondition
    rw [hcondition.pending, Option.bind_some, pending_append, pending_closing.mpr rfl,
      Option.bind_some, pending_append, pending_expectation]
    exact hread

end Splitting

/-- What a rule needs to leave an expression nested: for a value, that the expression is
nested without its values, and for splitting, that the condition is nested. -/
def Keeps (r : Rule) (e : List Char) : Prop :=
  (r.id = defValue.id → WellNested (withoutValues e)) ∧
    (r.id = linearity.id → ∀ before inside condition after summand,
      SplitAs e before inside condition after summand → WellNested condition)

theorem wellNested_iff_of_linearity {e out : String} (h : linearity.transform e = .ok out)
    (he : WellNested e.toList) : WellNested out.toList ↔ Keeps linearity e.toList := by
  obtain ⟨cs, hcs, rfl⟩ := linearity_eq_ok.mp h
  obtain ⟨before, inside, condition, after, summand, hsplit, rfl⟩ := exists_splitAs hcs
  rw [String.toList_ofList, ← wellNested_visible, visible_normalize, wellNested_visible,
    hsplit.wellNested_iff_condition he]
  constructor
  · intro hcondition
    refine ⟨fun hid => absurd hid (by decide), fun _ before' inside' condition' after' summand'
      hsplit' => ?_⟩
    -- Both ways to split give the same text.
    have hsame := hsplit.splitExpectation_eq.symm.trans hsplit'.splitExpectation_eq
    rw [← hsplit'.wellNested_iff_condition he, ← Except.ok.inj hsame,
      hsplit.wellNested_iff_condition he]
    exact hcondition
  · rintro ⟨-, hall⟩
    exact hall rfl _ _ _ _ _ hsplit

theorem wellNested_iff_of_substitution (s : Substitution) {e out : String}
    (h : s.rule.transform e = .ok out) (he : WellNested e.toList) :
    WellNested out.toList ↔ Keeps s.rule e.toList := by
  obtain ⟨-, rfl⟩ := s.transform_eq_ok.mp h
  rw [String.toList_ofList, ← wellNested_visible, visible_normalize, wellNested_visible]
  by_cases hs : s = .expectedReturn
  · subst hs
    rw [wellNested_rewrite_value]
    exact ⟨fun hvalues => ⟨fun _ => hvalues, fun hid => absurd hid (by decide)⟩,
      fun ⟨hvalues, _⟩ => hvalues rfl⟩
  · have hids : s.rule.id ≠ defValue.id ∧ s.rule.id ≠ linearity.id := by
      cases s with
      | expectedReturn => exact absurd rfl hs
      | _ => decide
    refine iff_of_true ((wellNested_rewrite hs _).mpr he) ⟨fun hid => ?_, fun hid => ?_⟩
    · exact absurd hid hids.1
    · exact absurd hid hids.2

/-- A rule of the catalog leaves an expression with nested brackets nested exactly if, for the
definition of value, the expression is nested without its values, and, for linearity, the
condition up to the first closing bracket is nested. The other seven rules always do. -/
theorem wellNested_iff_keeps {r : Rule} (hr : r ∈ rules) {e out : String}
    (h : r.transform e = .ok out) (he : WellNested e.toList) :
    WellNested out.toList ↔ Keeps r e.toList := by
  obtain ⟨s, rfl⟩ | rfl | rfl := mem_rules_cases hr
  · exact wellNested_iff_of_substitution s h he
  · exact wellNested_iff_of_linearity h he
  · obtain ⟨cs, hcs, rfl⟩ := assembleBellman_eq_ok.mp h
    have hequation : WellNested Latex.bellmanEquation.toList := by decide
    obtain rfl : cs = Latex.bellmanEquation.toList := by
      unfold assemble at hcs
      split at hcs
      next => exact (Except.ok.inj hcs).symm
      next => cases hcs
    rw [String.toList_ofList, ← wellNested_visible, visible_normalize, wellNested_visible]
    refine iff_of_true hequation ⟨fun hid => ?_, fun hid => ?_⟩
    · exact absurd hid (by decide)
    · exact absurd hid (by decide)

/-- Brackets that the condition closes do no harm. -/
theorem keeps_of_parentheses :
    Keeps linearity "(\\mathbb\x7bE\x7d[R_\x7bt+1\x7d + \\gamma X\\mid f(1)=s])".toList := by
  have hrun : linearity.transform "(\\mathbb\x7bE\x7d[R_\x7bt+1\x7d + \\gamma X\\mid f(1)=s])" =
      .ok ("(\\mathbb\x7bE\x7d[R_\x7bt+1\x7d\\mid f(1)=s] + " ++
        "\\gamma\\,\\mathbb\x7bE\x7d[X\\mid f(1)=s])") := by
    decide
  exact (wellNested_iff_keeps (by simp [rules]) hrun (by decide)).mp (by decide)

/-- A brace before the value is left without its partner, and a bracket that the condition
opens is opened twice and closed once. -/
theorem brackets_lost :
    (WellNested "\x7bv_\\pi\x7d(s)".toList ∧
      defValue.transform "\x7bv_\\pi\x7d(s)" = .ok "\x7b\\mathbb\x7bE\x7d[G_t\\mid S_t=s]" ∧
      ¬ WellNested "\x7b\\mathbb\x7bE\x7d[G_t\\mid S_t=s]".toList) ∧
    WellNested "\\mathbb\x7bE\x7d[R_\x7bt+1\x7d + \\gamma X\\mid f[1]=s]".toList ∧
      linearity.transform "\\mathbb\x7bE\x7d[R_\x7bt+1\x7d + \\gamma X\\mid f[1]=s]" =
        .ok ("\\mathbb\x7bE\x7d[R_\x7bt+1\x7d\\mid f[1] + " ++
          "\\gamma\\,\\mathbb\x7bE\x7d[X\\mid f[1]=s]") ∧
      ¬ WellNested ("\\mathbb\x7bE\x7d[R_\x7bt+1\x7d\\mid f[1] + " ++
          "\\gamma\\,\\mathbb\x7bE\x7d[X\\mid f[1]=s]").toList := by
  decide

end Bellman.Catalog
