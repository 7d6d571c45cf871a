import Bellman.Proofs.Rule.Splitting

/-!
# Expectations that rules write

In place of a value rules write nine expectations: of the return, of its series, of the sum
of reward and discounted rest, of the parts of that sum, and of the next return from the next
state. What a rule does to one of them is the same in any text, because every pattern of a
rule stands in it as a whole or not at all.
-/

namespace Bellman.Catalog

open Text Pattern

/-- The expectations that rules write for a value, by what is expected and from where. -/
inductive Written where
  | ofReturn
  | ofSeries
  | ofRecursion
  | ofUnrolled
  | ofReward
  | ofShifted
  | ofNext
  | shiftedFromNext
  | nextFromNext
deriving DecidableEq

namespace Written

def all : List Written :=
  [ofReturn, ofSeries, ofRecursion, ofUnrolled, ofReward, ofShifted, ofNext, shiftedFromNext,
    nextFromNext]

theorem mem_all (w : Written) : w ∈ all := by
  cases w <;> decide

/-- What is expected. -/
def inside : Written → List Char
  | ofReturn => Latex.presentReturn.toList
  | ofSeries => Latex.returnSeries.toList
  | ofRecursion => Latex.nextReward.toList ++ (" + \\gamma ".toList ++ Latex.nextReturn.toList)
  | ofUnrolled => Latex.nextReward.toList ++ (" + \\gamma ".toList ++ Latex.shiftedSeries.toList)
  | ofReward => Latex.nextReward.toList
  | ofShifted | shiftedFromNext => Latex.shiftedSeries.toList
  | ofNext | nextFromNext => Latex.nextReturn.toList

/-- From where it is expected. -/
def condition : Written → List Char
  | shiftedFromNext | nextFromNext => Latex.nextState.toList ++ "=s'".toList
  | _ => "S_t=s".toList

def text (w : Written) : List Char :=
  expect w.inside w.condition

theorem firm (w : Written) : Firm w.text := by
  have h : ∀ w ∈ all, Firm w.text := by decide
  exact h w w.mem_all

/-- What stands behind the inside. -/
def closing (w : Written) : List Char :=
  Latex.bar.toList ++ (" ".toList ++ (w.condition ++ "]".toList))

theorem text_eq (w : Written) :
    w.text = Latex.expectation.toList ++ (w.inside ++ w.closing) := by
  simp [text, expect, closing]

/-- What a substitution makes of the expectation: a text without expectations and behind it
an expectation, if any. -/
def after : Substitution → Written → List Char × Option Written
  | .series, ofReturn => ([], some ofSeries)
  | .recursion, ofReturn => ([], some ofRecursion)
  | .unrolled, ofSeries => ([], some ofUnrolled)
  | .reward, ofReward => ("r(s)".toList, none)
  | .nextState, ofShifted =>
      ((Latex.stateSum ++ " " ++ Latex.transition ++ Latex.thin).toList, some shiftedFromNext)
  | .nextState, ofNext =>
      ((Latex.stateSum ++ " " ++ Latex.transition ++ Latex.thin).toList, some nextFromNext)
  | .nextValue, shiftedFromNext | .nextValue, nextFromNext => ("v(s')".toList, none)
  | _, w => ([], some w)

def afterText (s : Substitution) (w : Written) : List Char :=
  (after s w).1 ++ (after s w).2.elim [] text

/-- Most substitutions find nothing in the expectation. -/
private theorem avoids_text {s : Substitution} {w : Written} (h : after s w = ([], some w)) :
    ∀ f ∈ s.pattern.forms, Avoids f (visible w.text) := by
  have hall : ∀ s ∈ Substitution.all, ∀ w ∈ all, after s w = ([], some w) →
      ∀ f ∈ s.pattern.forms, Avoids f (visible w.text) := by
    decide +kernel
  exact hall s s.mem_all w w.mem_all h

/-- What rewrites the return finds nothing beside it. -/
private theorem avoids_around {s : Substitution}
    (hs : s ∈ [Substitution.series, .recursion, .unrolled]) :
    ∀ f ∈ s.pattern.forms, Avoids f (visible Latex.expectation.toList) ∧
      Avoids f (visible ofReturn.closing) := by
  have hall : ∀ s ∈ [Substitution.series, .recursion, .unrolled], ∀ f ∈ s.pattern.forms,
      Avoids f (visible Latex.expectation.toList) ∧ Avoids f (visible ofReturn.closing) := by
    decide
  exact hall s hs

/-- A return is rewritten inside of its expectation. -/
private theorem rewrite_inside (s : Substitution) (w w' : Written)
    (hs : s ∈ [Substitution.series, .recursion, .unrolled])
    (hclosing : w.closing = ofReturn.closing ∧ w'.closing = ofReturn.closing)
    (hread : ∀ cs, s.pattern.read? (w.inside ++ (ofReturn.closing ++ cs)) =
      some (w.inside, ofReturn.closing ++ cs))
    (hinside : s.replacement w.inside = w'.inside) (cs : List Char) :
    s.rewrite (w.text ++ cs) = w'.text ++ s.rewrite cs := by
  have hopening : ∀ f ∈ s.pattern.forms, Avoids f (visible Latex.expectation.toList) :=
    fun f hf => (avoids_around hs f hf).1
  have hpassed : ∀ f ∈ s.pattern.forms, Avoids f (visible ofReturn.closing) :=
    fun f hf => (avoids_around hs f hf).2
  rw [text_eq, text_eq, hclosing.1, hclosing.2, List.append_assoc, List.append_assoc,
    Substitution.rewrite, s.solid.rewrite_around hopening (hread cs),
    s.solid.rewrite_append_of_avoids hpassed, hinside]
  simp [Substitution.rewrite]

/-- An expectation that is read is replaced as a whole. -/
private theorem rewrite_whole {s : Substitution} {w : Written} {cs : List Char}
    (hread : s.pattern.read? (w.text ++ cs) = some (w.text, cs))
    (hafter : s.replacement w.text = afterText s w) :
    s.rewrite (w.text ++ cs) = afterText s w ++ s.rewrite cs := by
  have hwhole := s.solid.rewrite_around (a := []) (by simp [Avoids]) hread s.replacement
  rwa [hafter] at hwhole

/-- A substitution finds what is expected, or all of the expectation, or nothing. -/
theorem rewrite_text_append (s : Substitution) (w : Written) (cs : List Char) :
    s.rewrite (w.text ++ cs) = afterText s w ++ s.rewrite cs := by
  have unchanged (h : after s w = ([], some w)) :
      s.rewrite (w.text ++ cs) = afterText s w ++ s.rewrite cs := by
    rw [Substitution.rewrite, s.solid.rewrite_append_of_avoids (avoids_text h), afterText, h]
    rfl
  cases s <;> cases w
  case series.ofReturn =>
    exact rewrite_inside .series ofReturn ofSeries (by decide) ⟨rfl, rfl⟩ (fun _ => rfl)
      (by decide) cs
  case recursion.ofReturn =>
    exact rewrite_inside .recursion ofReturn ofRecursion (by decide) ⟨rfl, rfl⟩
      (fun _ => rfl) (by decide) cs
  case unrolled.ofSeries =>
    exact rewrite_inside .unrolled ofSeries ofUnrolled (by decide) ⟨rfl, rfl⟩
      (fun _ => rfl) (by decide) cs
  case reward.ofReward => exact rewrite_whole (by cbv) (by decide)
  case nextState.ofShifted => exact rewrite_whole (by cbv) (by decide)
  case nextState.ofNext => exact rewrite_whole (by cbv) (by decide)
  case nextValue.shiftedFromNext => exact rewrite_whole (by cbv) (by decide)
  case nextValue.nextFromNext => exact rewrite_whole (by cbv) (by decide)
  all_goals exact unchanged rfl

/-- What is split off, if the expectation is that of a discounted sum. -/
def summand : Written → Option Written
  | ofRecursion => some ofNext
  | ofUnrolled => some ofShifted
  | _ => none

/-- What stands between the two expectations after splitting. -/
def sign : List Char :=
  (" + " ++ Latex.discount ++ Latex.thin).toList

private theorem text_append (w : Written) (cs : List Char) :
    w.text ++ cs = Latex.expectation.toList ++ (w.inside ++ (Latex.bar.toList ++
      ((" ".toList ++ w.condition) ++ ("]".toList ++ cs)))) := by
  simp [text_eq, closing]

private theorem avoids_bracket (w : Written) :
    Avoids Latex.bar.toList w.inside ∧ Avoids "]".toList (" ".toList ++ w.condition) := by
  have h : ∀ w ∈ all, Avoids Latex.bar.toList w.inside ∧
      Avoids "]".toList (" ".toList ++ w.condition) := by
    decide
  exact h w w.mem_all

private theorem discounted?_inside (w : Written) :
    discounted? (trim w.inside) = w.summand.map inside := by
  have h : ∀ w ∈ all, discounted? (trim w.inside) = w.summand.map Written.inside := by
    decide
  exact h w w.mem_all

private theorem splitText_inside {w w' : Written} (h : w.summand = some w') :
    visible (" ".toList ++ w.condition) = "S_t=s".toList ∧
      splitText (" ".toList ++ w.condition) w'.inside = ofReward.text ++ (sign ++ w'.text) := by
  have hall : ∀ w ∈ all, ∀ w' ∈ all, w.summand = some w' →
      visible (" ".toList ++ w.condition) = "S_t=s".toList ∧
        splitText (" ".toList ++ w.condition) w'.inside = ofReward.text ++ (sign ++ w'.text) := by
    decide
  exact hall w w.mem_all w' w'.mem_all h

/-- The expectation of a sum is split into that of the reward and that of the summand. -/
theorem splitAs_of_summand {w w' : Written} (h : w.summand = some w') (cs : List Char) :
    ∃ inside condition summand, SplitAs (w.text ++ cs) [] inside condition cs summand ∧
      splitText condition summand = ofReward.text ++ (sign ++ w'.text) := by
  obtain ⟨hinside, hcondition⟩ := w.avoids_bracket
  have hsum : discounted? (trim w.inside) = some w'.inside := by
    rw [w.discounted?_inside, h]
    rfl
  refine ⟨w.inside, " ".toList ++ w.condition, w'.inside, ?_, (splitText_inside h).2⟩
  rw [text_append]
  exact splitAs_opening hinside hcondition cs hsum

/-- No other expectation is split. -/
theorem of_splitAs {w : Written} {cs before inside condition after text : List Char}
    (h : SplitAs (w.text ++ cs) before inside condition after text) :
    ∃ w' : Written, visible condition = "S_t=s".toList ∧
      before ++ (splitText condition text ++ after) =
        ofReward.text ++ (sign ++ (w'.text ++ cs)) := by
  obtain ⟨hinside, hcondition⟩ := w.avoids_bracket
  rw [text_append] at h
  obtain ⟨rfl, rfl, hclosing⟩ := h.of_opening hinside
  rw [splitAt?_of_avoids (by decide) hcondition] at hclosing
  obtain ⟨rfl, rfl⟩ := Prod.mk.inj (Option.some.inj hclosing)
  have hread := h.discounted
  rw [w.discounted?_inside, Option.map_eq_some_iff] at hread
  obtain ⟨w', hw', rfl⟩ := hread
  obtain ⟨hvisible, hwritten⟩ := splitText_inside hw'
  refine ⟨w', hvisible, ?_⟩
  rw [hwritten]
  simp

end Written

end Bellman.Catalog
