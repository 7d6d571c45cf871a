import Bellman.Rule.Catalog

/-!
# What the rules of the catalog return

Every rule of the catalog rewrites characters and gives the outcome normal spacing, and most
of them rewrite by replacing the occurrences of one pattern, of which there has to be one.
-/

namespace Bellman.Catalog

open Text

variable {id name displayForm explanation : String} {offers : List Char → Bool}
  {rewrite : List Char → Except Form (List Char)}

/-- A rule returns what it rewrites the characters to, in normal spacing. -/
theorem transform_rule_eq_ok {e out : String} :
    (rule id name displayForm explanation offers rewrite).transform e = .ok out ↔
      ∃ cs, rewrite e.toList = .ok cs ∧ out = String.ofList (normalize cs) := by
  simp only [rule]
  cases rewrite e.toList with
  | ok cs => simp [eq_comm]
  | error form => simp

/-- Replacing a pattern succeeds where the pattern occurs. -/
theorem substitute_eq_ok {p : Pattern} {form : Form} {replacement : List Char → List Char}
    {cs out : List Char} :
    substitute p form replacement cs = .ok out ↔
      p.occursIn cs = true ∧ out = p.rewrite replacement cs := by
  unfold substitute
  by_cases h : p.occursIn cs = true
  · simp [h, eq_comm]
  · simp [h]

end Bellman.Catalog
