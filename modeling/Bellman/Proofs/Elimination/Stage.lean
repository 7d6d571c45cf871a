import Bellman.Grid.Elimination
import Mathlib.Data.List.Perm.Basic

/-!
# What one column of an elimination does

The equation that comes to the front is one of those that are left, and the others are
a rearrangement of the rest, whatever the comparisons say. The equation for `stages`
below states a whole column in these terms; every fact about an elimination is derived
from it by induction on the number of unknowns, without looking at the search for the
pivot again.
-/

namespace Bellman.Elimination

section Choice

variable {β : Type} (better : β → β → Bool)

/-- The candidate that a comparison settles on, going through a list from the left. -/
def choice (b : β) (cs : List β) : β :=
  cs.foldl (fun best c => if better c best then c else best) b

@[simp] theorem choice_cons (b c : β) (cs : List β) :
    choice better b (c :: cs) = choice better (if better c b then c else b) cs := rfl

theorem choice_mem (b : β) (cs : List β) : choice better b cs ∈ b :: cs := by
  induction cs generalizing b with
  | nil => exact List.mem_singleton.mpr rfl
  | cons c cs ih =>
      rw [choice_cons]
      split
      · exact List.mem_cons_of_mem _ (ih c)
      · rcases List.mem_cons.mp (ih b) with heq | hmem
        · exact List.mem_cons.mpr (.inl heq)
        · exact List.mem_cons_of_mem _ (List.mem_cons_of_mem _ hmem)

/-- No candidate is better than the one settled on, provided the comparison behaves
like a strict order whose incomparable elements are interchangeable. -/
theorem not_better_choice (asymm : ∀ a b, better a b = true → better b a = false)
    (trans : ∀ a b c, better a b = false → better b c = false → better a c = false)
    (b : β) (cs : List β) : ∀ c ∈ b :: cs, better c (choice better b cs) = false := by
  have irrefl (a : β) : better a a = false := by
    cases h : better a a with
    | false => rfl
    | true => exact h.symm.trans (asymm a a h)
  induction cs generalizing b with
  | nil =>
      intro c hc
      rw [List.mem_singleton.mp hc]
      exact irrefl b
  | cons d cs ih =>
      intro c hc
      rw [choice_cons]
      cases hd : better d b with
      | true =>
          rw [if_pos rfl]
          rcases List.mem_cons.mp hc with rfl | hc
          · exact trans _ _ _ (asymm _ _ hd) (ih d d List.mem_cons_self)
          · exact ih d c hc
      | false =>
          rw [if_neg Bool.false_ne_true]
          rcases List.mem_cons.mp hc with rfl | hc
          · exact ih c c List.mem_cons_self
          · rcases List.mem_cons.mp hc with rfl | hc
            · exact trans _ _ _ hd (ih b b List.mem_cons_self)
            · exact ih b c (List.mem_cons_of_mem _ hc)

end Choice

/-- Exchanging the first equation and the one at a place puts that one in front of a
rearrangement of the rest. -/
theorem bringToFront_perm {α : Type} {place : Nat} {r p : Equation α}
    {rs : List (Equation α)} (h : (r :: rs)[place]? = some p) :
    (bringToFront place r rs).1 = p ∧
      (p :: (bringToFront place r rs).2).Perm (r :: rs) := by
  cases place with
  | zero =>
      cases h
      exact ⟨rfl, .refl _⟩
  | succ i =>
      rw [List.getElem?_cons_succ] at h
      obtain ⟨hi, hp⟩ := List.getElem?_eq_some_iff.mp h
      have hset : (rs.set i r).Perm (r :: rs.eraseIdx i) := List.set_perm_cons_eraseIdx hi r
      have hback : (p :: rs.eraseIdx i).Perm rs := hp ▸ List.getElem_cons_eraseIdx_perm hi
      refine ⟨by simp [bringToFront, h], ?_⟩
      exact (hset.cons p).trans ((List.Perm.swap ..).trans (hback.cons r))

section Column

variable {α : Type} [Zero α] [Pivoting α]

/-- The pivot of a column and the other equations, in the order in which they are
kept. -/
def chosen (r : Equation α) (rs : List (Equation α)) : Equation α × List (Equation α) :=
  bringToFront (preferredPlace (lead r) (rs.map lead)) r rs

/-- The entry that is preferred among the leading coefficients, with its place. -/
def preferredLead (r : Equation α) (rs : List (Equation α)) : α × Nat :=
  choice (fun c best => Pivoting.preferred c.1 best.1) (lead r, 0) ((rs.map lead).zipIdx 1)

/-- The leading coefficient of the pivot is the preferred one, and no equation is lost
or made when the pivot comes to the front. -/
theorem chosen_spec (r : Equation α) (rs : List (Equation α)) :
    lead (chosen r rs).1 = (preferredLead r rs).1 ∧
      ((chosen r rs).1 :: (chosen r rs).2).Perm (r :: rs) := by
  have hmem : preferredLead r rs ∈ ((r :: rs).map lead).zipIdx := choice_mem ..
  rw [List.mem_zipIdx_iff_getElem?, List.getElem?_map, Option.map_eq_some_iff] at hmem
  obtain ⟨p, hp, hlead⟩ := hmem
  obtain ⟨hfirst, hperm⟩ := bringToFront_perm hp
  have hpivot : (chosen r rs).1 = p := hfirst
  exact ⟨hpivot ▸ hlead, hpivot ▸ hperm⟩

theorem mem_chosen {r s : Equation α} {rs : List (Equation α)} :
    s ∈ r :: rs ↔ s = (chosen r rs).1 ∨ s ∈ (chosen r rs).2 := by
  rw [← (chosen_spec r rs).2.mem_iff, List.mem_cons]

variable [Sub α] [Mul α] [Div α]

/-- An equation without its first unknown, which the pivot accounts for. -/
def withoutLead (pivot s : Equation α) : Equation α :=
  reduce pivot (lead s / lead pivot) s

/-- What is recorded of a column. -/
def stageOf (r : Equation α) (rs : List (Equation α)) : Stage α where
  offset := preferredPlace (lead r) (rs.map lead)
  pivot := (chosen r rs).1
  multipliers := (chosen r rs).2.map fun s => lead s / lead (chosen r rs).1

/-- The equations that a column leaves for the next one. -/
def remaining (r : Equation α) (rs : List (Equation α)) : List (Equation α) :=
  (chosen r rs).2.map (withoutLead (chosen r rs).1)

/-- A column as a whole: the pivot is refused, or recorded, and the elimination goes on
with what remains. -/
theorem stages_succ_cons (n column : Nat) (r : Equation α) (rs : List (Equation α)) :
    stages (n + 1) column (r :: rs) =
      if Pivoting.negligible (lead (chosen r rs).1) then
        .error (.singular (lead (chosen r rs).1) column)
      else (stages n (column + 1) (remaining r rs)).map (stageOf r rs :: ·) := by
  have hchosen : bringToFront (preferredPlace (lead r) (rs.map lead)) r rs = chosen r rs := rfl
  have hremaining : List.zipWith (reduce (chosen r rs).1)
      ((chosen r rs).2.map fun s => lead s / lead (chosen r rs).1) (chosen r rs).2 =
        remaining r rs := by
    rw [List.zipWith_map_left, List.zipWith_self]
    rfl
  rw [stages]
  dsimp only
  rw [hchosen, hremaining]
  split
  · rfl
  · cases stages n (column + 1) (remaining r rs) <;> rfl

/-- A column that goes through: its pivot was accepted, and the rest went through. -/
theorem stages_succ_cons_ok {n column : Nat} {r : Equation α} {rs : List (Equation α)}
    {ss : List (Stage α)} (h : stages (n + 1) column (r :: rs) = .ok ss) :
    Pivoting.negligible (lead (chosen r rs).1) = false ∧
      ∃ rest, ss = stageOf r rs :: rest ∧
        stages n (column + 1) (remaining r rs) = .ok rest := by
  rw [stages_succ_cons] at h
  split at h
  · cases h
  next hpivot =>
    refine ⟨by simpa using hpivot, ?_⟩
    cases hrest : stages n (column + 1) (remaining r rs) with
    | ok rest =>
        rw [hrest] at h
        cases h
        exact ⟨rest, rfl, rfl⟩
    | error e =>
        rw [hrest] at h
        cases h

end Column

end Bellman.Elimination
