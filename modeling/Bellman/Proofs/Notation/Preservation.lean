import Bellman.Proofs.Notation.Linearity
import Bellman.Proofs.Notation.Recursion

/-!
# When the rules about returns and expectations keep the meaning

`recursive-return` and `linearity` write sums into text that has no parentheses. On the text
of a formula this keeps the meaning exactly where nothing around the rewritten part binds
tighter than the new plus, and where the discounted summand is the last one.
-/

namespace Bellman.Notation

open Catalog

/-- Every row of tokens can be written. -/
theorem exists_spells (ts : List Token) : ∃ cs, Spells ts cs := by
  induction ts with
  | nil => exact ⟨[], .nil⟩
  | cons t ts ih =>
      obtain ⟨cs, h⟩ := ih
      exact ⟨t.text ++ ' ' :: cs, .token t (fun _ => rfl) (.blank (by decide) h)⟩

/-- Every formula has a text. -/
theorem exists_reads (f : Formula) : ∃ e, Reads e f := by
  obtain ⟨cs, h⟩ := exists_spells f.tokens
  exact ⟨String.ofList cs, by rwa [Reads, String.toList_ofList]⟩

/-- On the text of a formula, whatever its spacing, the recursion of the return keeps the
meaning exactly where all present returns stand without scalars around them, and linearity
exactly where the first expectation stands without scalars around it and has, beside the
reward, one discounted term and no other inside. -/
theorem means_iff_alone {e : String} {f : Formula} (h : Reads e f) :
    (∀ out, recursiveReturn.transform e = .ok out → (Means out f ↔ f.ReturnsAlone)) ∧
      ∀ out, linearity.transform e = .ok out → (Means out f ↔ f.SplitsAlone) :=
  ⟨fun _ run => h.means_iff_returnsAlone run, fun _ run => h.means_iff_splitsAlone run⟩

/-- The reward and a discounted return, expected between scalars. -/
def expectedSum (before : List Symbol) (a : Atom) : Formula :=
  .single (.expected before (.add (.atom [] .reward []) (.single (.atom [.discount] a []))) [])

private theorem spells_expectedSum (a : Atom) :
    Spells (expectedSum [] a).tokens
      (expect ((Latex.nextReward ++ " + \\gamma ").toList ++ a.mark.text) "S_t=s".toList) := by
  have atom : Spells [.mark a.mark] (a.mark.text ++ []) :=
    .token (.mark a.mark) (fun _ => rfl) .nil
  have sum : Spells [.mark .reward, .mark .plus, .mark .discount, .mark a.mark]
      (Mark.reward.text ++ (' ' :: (Mark.plus.text ++ (' ' :: (Mark.discount.text ++
        (' ' :: (a.mark.text ++ []))))))) :=
    .token (.mark .reward) (.of_isWord_eq_false rfl _) <| .blank (by decide) <|
      .token (.mark .plus) (.of_isWord_eq_false rfl _) <| .blank (by decide) <|
        .token (.mark .discount) (fun _ => rfl) <| .blank (by decide) atom
  have given : Spells presentState "S_t=s".toList :=
    .token (.mark .state) (fun _ => rfl) <| .token (.mark .equals) (.of_isWord_eq_false rfl _) <|
      .token (.name (.letter 's' rfl)) (.of_isWord_eq_false rfl _) .nil
  have whole := sum.expect given .nil
  cases a <;> exact whole

/-- The reward and the discounted present return in an expectation can be split, but there
the return cannot be replaced. -/
theorem means_iff_alone_of_expectedSum :
    Reads "\\mathbb{E}[R_{t+1} + \\gamma G_t\\mid S_t=s]" (expectedSum [] .presentReturn) ∧
      Means "\\mathbb{E}[R_{t+1}\\mid S_t=s] + \\gamma\\,\\mathbb{E}[G_t\\mid S_t=s]"
        (expectedSum [] .presentReturn) ∧
      ¬ Means "\\mathbb{E}[R_{t+1} + \\gamma R_{t+1} + \\gamma G_{t+1}\\mid S_t=s]"
        (expectedSum [] .presentReturn) := by
  have read : Reads "\\mathbb{E}[R_{t+1} + \\gamma G_t\\mid S_t=s]"
      (expectedSum [] .presentReturn) := spells_expectedSum .presentReturn
  obtain ⟨recursion, splitting⟩ := means_iff_alone read
  refine ⟨read, (splitting _ rfl).2 ⟨.atom [] .presentReturn [], rfl⟩, ?_⟩
  intro means
  have alone := (recursion _ rfl).1 means
  cases (alone.2 rfl).1

/-- Neither rule keeps the meaning of a scalar multiple: the discount factor of a return is
lost on its next return, and a scalar in front of an expectation on its second part. -/
theorem not_means_of_scalar :
    (Reads "\\gamma G_t" (.single (.atom [.discount] .presentReturn [])) ∧
      recursiveReturn.transform "\\gamma G_t" = .ok "\\gamma R_{t+1} + \\gamma G_{t+1}" ∧
      ¬ Means "\\gamma R_{t+1} + \\gamma G_{t+1}"
        (.single (.atom [.discount] .presentReturn []))) ∧
    (Reads "a \\mathbb{E}[R_{t+1} + \\gamma G_{t+1}\\mid S_t=s]"
        (expectedSum [.free (.letter 'a' rfl)] .nextReturn) ∧
      linearity.transform "a \\mathbb{E}[R_{t+1} + \\gamma G_{t+1}\\mid S_t=s]" =
        .ok "a \\mathbb{E}[R_{t+1}\\mid S_t=s] + \\gamma\\,\\mathbb{E}[G_{t+1}\\mid S_t=s]" ∧
      ¬ Means "a \\mathbb{E}[R_{t+1}\\mid S_t=s] + \\gamma\\,\\mathbb{E}[G_{t+1}\\mid S_t=s]"
        (expectedSum [.free (.letter 'a' rfl)] .nextReturn)) := by
  have discounted : Reads "\\gamma G_t" (.single (.atom [.discount] .presentReturn [])) := by
    change Spells [.mark .discount, .mark .presentReturn]
      (Mark.discount.text ++ (' ' :: (Mark.presentReturn.text ++ [])))
    exact .token (.mark .discount) (fun _ => rfl)
      (.blank (by decide) (.token (.mark .presentReturn) (fun _ => rfl) .nil))
  have scaled : Reads "a \\mathbb{E}[R_{t+1} + \\gamma G_{t+1}\\mid S_t=s]"
      (expectedSum [.free (.letter 'a' rfl)] .nextReturn) :=
    .token (.name (.letter 'a' rfl)) (.of_isWord_eq_false rfl _)
      (.blank (by decide) (spells_expectedSum .nextReturn))
  refine ⟨⟨discounted, rfl, fun means => ?_⟩, scaled, rfl, fun means => ?_⟩
  · have alone := (discounted.means_iff_returnsAlone rfl).1 means
    cases (alone rfl).1
  · obtain ⟨t, first⟩ := (scaled.means_iff_splitsAlone rfl).1 means
    cases first

end Bellman.Notation
