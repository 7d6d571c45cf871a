import Bellman.Proofs.Numeral.Answer
import Bellman.Proofs.Traversal
import Bellman.RewardProcess

/-!
# Processes that are read are proper

A process that texts were read to has at least one state, as many rows, columns and
rewards as states, and no number in it that is not finite. The cells of a table are read
one by one, so a table that is read has the shape of its text, and each of its numbers is
a number that was read.
-/

namespace Bellman

namespace Numeral

open Text

/-- The numbers of a row are those of its cells, and finite. -/
theorem of_readCells {row : List (List Char)} {xs : List Binary64} (h : readCells row = .ok xs) :
    xs.length = row.length ∧ ∀ x ∈ xs, x.isFinite = true := by
  refine ⟨length_of_mapM_eq_ok h, fun x hx => ?_⟩
  obtain ⟨c, -, hc⟩ := exists_of_mem_of_mapM_eq_ok h hx
  split at hc
  next y hread =>
    cases hc
    exact isFinite_of_readToken hread
  next => cases hc

theorem wrongRow?_eq_none_iff {n row : Nat} {rows : List (List (List Char))} :
    wrongRow? n row rows = none ↔ ∀ r ∈ rows, r.length = n := by
  induction rows generalizing row with
  | nil => simp [wrongRow?]
  | cons r rs ih =>
      rw [wrongRow?, List.forall_mem_cons]
      split
      next hlen => rw [ih, and_iff_right hlen]
      next hlen => simp [hlen]

/-- A matrix has as many columns as rows, at least one, and finite entries. -/
theorem of_readMatrix {text : String} {rows : List (List Binary64)}
    (h : readMatrix text = .ok rows) :
    rows ≠ [] ∧ ∀ row ∈ rows, row.length = rows.length ∧ ∀ x ∈ row, x.isFinite = true := by
  simp only [readMatrix] at h
  split at h
  · cases h
  next hrows =>
    split at h
    · cases h
    next hwrong =>
      have hlen := length_of_mapM_eq_ok h
      constructor
      · rintro rfl
        rw [List.isEmpty_iff_length_eq_zero, ← hlen] at hrows
        exact hrows rfl
      · intro row hrow
        obtain ⟨cs, hcs, hread⟩ := exists_of_mem_of_mapM_eq_ok h hrow
        obtain ⟨hcells, hfinite⟩ := of_readCells hread
        exact ⟨by rw [hcells, hlen, wrongRow?_eq_none_iff.mp hwrong cs hcs], hfinite⟩

/-- A vector has the length that was asked for, and finite entries. -/
theorem of_readVector {text : String} {n : Int} {xs : List Binary64}
    (h : readVector text n = .ok xs) :
    (xs.length : Int) = n ∧ ∀ x ∈ xs, x.isFinite = true := by
  simp only [readVector] at h
  split at h
  · cases h
  next hlen =>
    obtain ⟨hcells, hfinite⟩ := of_readCells h
    refine ⟨?_, hfinite⟩
    rw [hcells]
    exact not_not.mp hlen

end Numeral

namespace Grid

variable {α : Type}

theorem rows_of_ofRows {rows : List (List α)} {A : Grid α} (h : ofRows rows = .ok A) :
    A.rows = rows := by
  simp only [ofRows] at h
  split at h
  · cases h
    rfl
  · cases h

end Grid

namespace RewardProcess

/-- One state at least, as many rows, columns and rewards as states, and finite numbers. -/
structure Proper (p : RewardProcess Binary64) : Prop where
  pos : 0 < p.states
  width_eq : p.transitions.width = p.states
  rewards_length : p.rewards.length = p.states
  discount_finite : p.discount.isFinite = true
  transitions_finite : ∀ row ∈ p.transitions.rows, ∀ x ∈ row, x.isFinite = true
  rewards_finite : ∀ x ∈ p.rewards, x.isFinite = true

/-- What is read part by part. -/
theorem read_eq_ok {discount transitions rewards : String} {p : RewardProcess Binary64}
    (h : read discount transitions rewards = .ok p) :
    Numeral.readScalar discount = .ok p.discount ∧
      Numeral.readMatrix transitions = .ok p.transitions.rows ∧
        Numeral.readVector rewards p.states = .ok p.rewards := by
  simp only [read, bind_eq_ok_iff, mapError_eq_ok_iff] at h
  obtain ⟨γ, hγ, rows, hrows, r, hr, P, hP, heq⟩ := h
  cases heq
  obtain rfl := Grid.rows_of_ofRows hP
  exact ⟨hγ, hrows, hr⟩

/-- Texts are read to proper processes only. -/
theorem proper_of_read {discount transitions rewards : String} {p : RewardProcess Binary64}
    (h : read discount transitions rewards = .ok p) : p.Proper := by
  obtain ⟨hdiscount, htransitions, hrewards⟩ := read_eq_ok h
  obtain ⟨hne, hrows⟩ := Numeral.of_readMatrix htransitions
  obtain ⟨hlen, hfinite⟩ := Numeral.of_readVector hrewards
  obtain ⟨row, hrow⟩ := List.exists_mem_of_ne_nil _ hne
  exact {
    pos := List.length_pos_of_mem hrow
    width_eq := (p.transitions.regular row hrow).symm.trans (hrows row hrow).1
    rewards_length := by omega
    discount_finite := Numeral.isFinite_of_readToken hdiscount
    transitions_finite := fun row hrow => (hrows row hrow).2
    rewards_finite := hfinite }

end RewardProcess

end Bellman
