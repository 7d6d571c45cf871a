import Bellman.Proofs.Rule.Splitting
import Mathlib.Tactic.Ring

/-!
# What rewriting uses up

On the visible characters of an expression a substitution is a string rewriting with finitely
many replacements, and so is splitting an expectation under the condition on the present
state. Every one of these moves makes the expression lighter, in a weight that counts the
words which rules look for, and none of them changes the number of equality signs beyond
those of conditions and series. Only two things a rule can do are no such move: splitting
under another condition, and completing the equation.
-/

namespace Bellman.Catalog

open Text Pattern

/-- The start of a discounted sum in an expectation, and what splitting makes of it under the
condition on the present state. -/
def splitMoves : List (List Char × List Char) :=
  [[], Latex.thin.toList].map fun space =>
    ((Latex.expectation ++ Latex.nextReward ++ "+" ++ Latex.discount).toList ++ space,
      visible (Latex.expectation ++ Latex.nextReward ++ Latex.givenState ++ " + " ++
        Latex.discount ++ Latex.thin ++ Latex.expectation).toList)

/-- What gives way to what, in visible characters. -/
def moves : List (List Char × List Char) :=
  (Substitution.all.flatMap fun s => s.pattern.forms ×ˢ s.outcomes) ++ splitMoves

def Move (f g : List Char) : Prop :=
  (f, g) ∈ moves

/-- Rewriting by a substitution is a row of moves, not an empty one where its pattern
occurs. -/
theorem Substitution.replaces_rewrite (s : Substitution) (cs : List Char) :
    ∃ n, Replaces Move n (visible cs) (visible (s.rewrite cs)) ∧
      (s.pattern.occursIn cs = true → 0 < n) := by
  obtain ⟨n, hn, hpos⟩ := s.solid.replaces_rewrite s.replacement cs
  refine ⟨n, hn.visible ?_, hpos⟩
  rintro m g ⟨-, ⟨rest, hm⟩, rfl⟩
  refine List.mem_append_left _ (List.mem_flatMap.mpr ⟨s, s.mem_all, ?_⟩)
  exact List.pair_mem_product.mpr ⟨visible_mem_forms hm, s.visible_replacement_mem m⟩

/-- Splitting an expectation under the condition on the present state is a move. -/
theorem SplitAs.replaces {e before inside condition after summand : List Char}
    (h : SplitAs e before inside condition after summand)
    (hcondition : visible condition = "S_t=s".toList) :
    Replaces Move 1 (visible e) (visible (before ++ (splitText condition summand ++ after))) := by
  obtain ⟨space, hspace, hinside⟩ := h.visible_inside
  have hmove : Move
      ((Latex.expectation ++ Latex.nextReward ++ "+" ++ Latex.discount).toList ++ space)
      (visible (Latex.expectation ++ Latex.nextReward ++ Latex.givenState ++ " + " ++
        Latex.discount ++ Latex.thin ++ Latex.expectation).toList) :=
    List.mem_append_right _ (List.mem_map_of_mem hspace)
  have hmoved := Replaces.single hmove (visible before)
    (visible summand ++ (visible Latex.givenState.toList ++ visible after))
  have hsource : visible e = visible before ++
      (((Latex.expectation ++ Latex.nextReward ++ "+" ++ Latex.discount).toList ++ space) ++
        (visible summand ++ (visible Latex.givenState.toList ++ visible after))) := by
    have hopening : visible Latex.expectation.toList = Latex.expectation.toList := by decide
    have hgiven : visible Latex.givenState.toList =
        visible Latex.bar.toList ++ ("S_t=s".toList ++ visible "]".toList) := by decide
    rw [h.eq]
    simp only [visible_append, hopening, hinside, hcondition, hgiven, String.toList_append,
      List.append_assoc]
  have htarget : visible (before ++ (splitText condition summand ++ after)) = visible before ++
      (visible (Latex.expectation ++ Latex.nextReward ++ Latex.givenState ++ " + " ++
        Latex.discount ++ Latex.thin ++ Latex.expectation).toList ++
        (visible summand ++ (visible Latex.givenState.toList ++ visible after))) := by
    have hgiven : visible Latex.givenState.toList =
        visible Latex.bar.toList ++ (visible " ".toList ++ ("S_t=s".toList ++
          visible "]".toList)) := by decide
    simp only [splitText, expect, visible_append, visible_trim, hcondition, hgiven,
      String.toList_append, List.append_assoc]
  rw [hsource, htarget]
  exact hmoved

/-- The words that rules look for, weighed so that what a rule writes is lighter than what it
rewrites. -/
def redexes : List (List Char × Nat) :=
  valuePattern.forms.map (·, 8) ++ returnPattern.forms.map (·, 5) ++
    seriesPattern.forms.map (·, 4) ++
    [((Latex.nextReward ++ "+" ++ Latex.discount).toList, 3)] ++
    givenStatePattern.forms.map (·, 2) ++
    [(visible Latex.givenNextState.toList, 1)]

/-- How much rewriting an expression allows. -/
def potential (e : List Char) : Nat :=
  weight redexes (visible e)

/-- The equality signs of a text beyond those of conditions, which have one for each `S`, and
of series, which have one for each zero. -/
def surplus (cs : List Char) : Int :=
  cs.count '=' - cs.count 'S' - cs.count '0'

/-- A move makes a text lighter, makes no word with its neighbours and keeps the surplus. -/
private theorem move_spends {f g : List Char} (h : Move f g) :
    weight redexes g < weight redexes f ∧ (∀ p ∈ redexes, Apart p.1 g) ∧
      surplus g = surplus f := by
  have spends : ∀ m ∈ moves, weight redexes m.2 < weight redexes m.1 ∧
      (∀ p ∈ redexes, Apart p.1 m.2) ∧ surplus m.2 = surplus m.1 := by
    decide +kernel
  exact spends (f, g) h

/-- Every move uses up some of the potential. -/
theorem potential_lt {n : Nat} {e out : List Char} (hn : 0 < n)
    (h : Replaces Move n (visible e) (visible out)) : potential out < potential e := by
  have hle := h.weight_add_le (fun _ _ hmove => (move_spends hmove).2.1)
    fun _ _ hmove => (move_spends hmove).1
  simp only [potential]
  omega

theorem surplus_append (a b : List Char) : surplus (a ++ b) = surplus a + surplus b := by
  simp only [surplus, List.count_append, Nat.cast_add]
  ring

/-- No move changes the surplus. -/
theorem surplus_eq {n : Nat} {s t : List Char} (h : Replaces Move n s t) :
    surplus t = surplus s := by
  induction h with
  | nil => rfl
  | @keep c n s t rest ih =>
      have hsplit (cs : List Char) : surplus (c :: cs) = surplus [c] + surplus cs :=
        surplus_append [c] cs
      rw [hsplit t, hsplit s, ih]
  | @piece f g n s t hmove rest ih =>
      rw [surplus_append, surplus_append, ih, (move_spends hmove).2.2]

/-- A finished right-hand side has as many equality signs as its conditions and series. -/
theorem surplus_of_assemble {e out : List Char} (h : assemble e = .ok out) :
    out = Latex.bellmanEquation.toList ∧ surplus (visible e) = 0 ∧ '[' ∉ visible e := by
  unfold assemble at h
  split at h
  next m hread =>
    have hforms := visible_mem_forms (matches_of_read? hread)
    have hm : visible m = visible e := by
      rw [← List.append_nil m, ← append_of_read? hread, visible_normalize]
    have level : ∀ f ∈ rightSidePattern.forms, surplus f = 0 ∧ '[' ∉ f := by decide
    rw [hm] at hforms
    exact ⟨(Except.ok.inj h).symm, level _ hforms⟩
  next => cases h

theorem surplus_bellmanEquation :
    surplus (visible Latex.bellmanEquation.toList) = 1 := by
  decide

end Bellman.Catalog
