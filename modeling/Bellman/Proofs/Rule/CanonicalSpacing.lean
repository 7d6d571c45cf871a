import Bellman.Proofs.Rule.Transform
import Bellman.Proofs.Text.Words

/-!
# Normal spacing is canonical

Normal spacing picks one text out of all texts with the same words: the one in which single
spaces join them. The rules of the catalog return such texts only, so a derivation never goes
on from a text that its words do not determine.
-/

namespace Bellman.Catalog

open Text

/-- What a rule of the catalog returns has normal spacing. -/
theorem normalSpacing_of_transform {r : Rule} (hr : r ∈ rules) {e out : String}
    (h : r.transform e = .ok out) : normalSpacing out = out := by
  have spaced {cs : List Char} (hout : out = String.ofList (normalize cs)) :
      normalSpacing out = out := by
    rw [hout, normalSpacing, String.toList_ofList, normalize_normalize]
  simp only [rules, List.mem_cons, List.not_mem_nil, or_false] at hr
  obtain rfl | rfl | rfl | rfl | rfl | rfl | rfl | rfl | rfl := hr <;>
  · obtain ⟨cs, -, hout⟩ := transform_rule_eq_ok.mp h
    exact spaced hout

/-- Normal spacing is the canonical form of a text. It joins the maximal runs of visible
characters by single spaces, so it is reached in one step, does not tell which blanks stood
between two texts, and is shared by exactly the texts with the same words. The rules of the
catalog return nothing else. -/
theorem normalSpacing_canonical :
    (∀ s ws, Runs s.toList ws ↔ ws.map String.ofList = wordsOf s) ∧
      (∀ s, normalSpacing s = " ".intercalate (wordsOf s)) ∧
      (∀ s, normalSpacing (normalSpacing s) = normalSpacing s) ∧
      (∀ a gap b : String, gap ≠ "" → (∀ c ∈ gap.toList, isBlank c = true) →
        normalSpacing (a ++ gap ++ b) = normalSpacing (a ++ " " ++ b)) ∧
      (∀ s t, normalSpacing s = normalSpacing t ↔ wordsOf s = wordsOf t) ∧
      ∀ r ∈ rules, ∀ e out, r.transform e = .ok out → normalSpacing out = out :=
  ⟨fun _ _ => runs_iff_wordsOf, normalSpacing_eq_intercalate, normalSpacing_normalSpacing,
    fun a _ b hne hgap => normalSpacing_between hne hgap a b, fun _ _ => normalSpacing_eq_iff,
    fun _ hr _ _ h => normalSpacing_of_transform hr h⟩

/-- A line break and an ideographic space between two texts, and a value that is expanded
between blanks. -/
theorem normalSpacing_of_two_blanks :
    normalSpacing ("\tR_t" ++ "\n\u3000" ++ "+  1 ") = normalSpacing ("\tR_t" ++ " " ++ "+  1 ") ∧
      defValue.transform "1 +\t\tv(s) " =
        .ok ("1 + " ++ Latex.expectation ++ Latex.presentReturn ++ Latex.givenState) ∧
      normalSpacing ("1 + " ++ Latex.expectation ++ Latex.presentReturn ++ Latex.givenState) =
        "1 + " ++ Latex.expectation ++ Latex.presentReturn ++ Latex.givenState := by
  obtain ⟨-, -, -, hbetween, -, hreturned⟩ := normalSpacing_canonical
  have hrun : defValue.transform "1 +\t\tv(s) " =
      .ok ("1 + " ++ Latex.expectation ++ Latex.presentReturn ++ Latex.givenState) := by decide
  exact ⟨hbetween _ _ _ (by decide) (List.all_eq_true.mp (by decide)), hrun,
    hreturned defValue (by simp [rules]) _ _ hrun⟩

end Bellman.Catalog
