import Mathlib.Data.List.Forall2

/-!
# Computations that may be refused

What goes through has gone through in every part, and a refusal is that of the first part
that is refused. The statements about lists say the same of a traversal, item by item.
-/

namespace Bellman

variable {α β ε : Type} {f : α → Except ε β} {xs : List α} {ys : List β}

/-- What goes through has gone through in its first part, and then in the rest. -/
theorem bind_eq_ok_iff {r : Except ε α} {g : α → Except ε β} {y : β} :
    (r >>= g) = .ok y ↔ ∃ x, r = .ok x ∧ g x = .ok y := by
  cases r <;> simp [bind, Except.bind]

theorem mapError_eq_ok_iff {δ : Type} {r : Except ε α} {g : ε → δ} {x : α} :
    r.mapError g = .ok x ↔ r = .ok x := by
  cases r <;> simp [Except.mapError]

theorem mapError_eq_error_iff {δ : Type} {r : Except ε α} {g : ε → δ} {d : δ} :
    r.mapError g = .error d ↔ ∃ e, r = .error e ∧ g e = d := by
  cases r <;> simp [Except.mapError]

theorem exists_map_eq_ok_iff {g : α → β} {r : Except ε α} :
    (∃ y, r.map g = .ok y) ↔ ∃ x, r = .ok x := by
  cases r <;> simp [Except.map]

theorem mapM_cons_eq_ok_iff {x : α} :
    (x :: xs).mapM f = .ok ys ↔ ∃ y zs, f x = .ok y ∧ xs.mapM f = .ok zs ∧ ys = y :: zs := by
  rw [List.mapM_cons]
  simp only [bind_eq_ok_iff, pure, Except.pure, Except.ok.injEq]
  constructor
  · rintro ⟨y, hx, zs, hxs, rfl⟩
    exact ⟨y, zs, hx, hxs, rfl⟩
  · rintro ⟨y, zs, hx, hxs, rfl⟩
    exact ⟨y, hx, zs, hxs, rfl⟩

/-- A traversal that goes through gives for each item what is made of it. -/
theorem mapM_eq_ok_iff : xs.mapM f = .ok ys ↔ List.Forall₂ (fun x y => f x = .ok y) xs ys := by
  induction xs generalizing ys with
  | nil => simp [pure, Except.pure, eq_comm]
  | cons x xs ih => simp only [mapM_cons_eq_ok_iff, List.forall₂_cons_left_iff, ih]

theorem length_of_mapM_eq_ok (h : xs.mapM f = .ok ys) : ys.length = xs.length :=
  (mapM_eq_ok_iff.mp h).length_eq.symm

/-- Every result of a traversal is made of some item. -/
theorem exists_of_mem_of_mapM_eq_ok (h : xs.mapM f = .ok ys) {y : β} (hy : y ∈ ys) :
    ∃ x ∈ xs, f x = .ok y := by
  have hall := mapM_eq_ok_iff.mp h
  clear h
  induction hall with
  | nil => cases hy
  | @cons x z xs zs hx _ ih =>
      obtain rfl | hy := List.mem_cons.mp hy
      · exact ⟨x, List.mem_cons_self, hx⟩
      · obtain ⟨w, hw, hread⟩ := ih hy
        exact ⟨w, List.mem_cons_of_mem _ hw, hread⟩

/-- A traversal goes through exactly when something is made of each item. -/
theorem exists_mapM_eq_ok_iff : (∃ ys, xs.mapM f = .ok ys) ↔ ∀ x ∈ xs, ∃ y, f x = .ok y := by
  induction xs with
  | nil => simp [pure, Except.pure]
  | cons x xs ih =>
      simp only [List.forall_mem_cons, ← ih, mapM_cons_eq_ok_iff]
      constructor
      · rintro ⟨_, y, ys, hx, hxs, -⟩
        exact ⟨⟨y, hx⟩, ys, hxs⟩
      · rintro ⟨⟨y, hx⟩, ys, hxs⟩
        exact ⟨y :: ys, y, ys, hx, hxs, rfl⟩

/-- An item of a list is the first one, with nothing in front of it, or one of the others. -/
theorem exists_cut_cons_iff {P : List α → α → List α → Prop} {x : α} :
    (∃ front y back, x :: xs = front ++ y :: back ∧ P front y back) ↔
      P [] x xs ∨ ∃ front y back, xs = front ++ y :: back ∧ P (x :: front) y back := by
  constructor
  · rintro ⟨front, y, back, hxs, h⟩
    obtain ⟨rfl, hxs⟩ | ⟨front, rfl, rfl⟩ := List.cons_eq_append_iff.mp hxs
    · obtain ⟨rfl, rfl⟩ := List.cons.inj hxs
      exact .inl h
    · exact .inr ⟨front, y, back, rfl, h⟩
  · rintro (h | ⟨front, y, back, rfl, h⟩)
    · exact ⟨[], x, xs, rfl, h⟩
    · exact ⟨x :: front, y, back, rfl, h⟩

/-- A traversal fails as its first item does that nothing is made of. -/
theorem mapM_eq_error_iff {e : ε} : xs.mapM f = .error e ↔ ∃ front x back,
    xs = front ++ x :: back ∧ (∀ y ∈ front, ∃ z, f y = .ok z) ∧ f x = .error e := by
  induction xs with
  | nil => simp [pure, Except.pure]
  | cons x xs ih =>
      rw [List.mapM_cons, exists_cut_cons_iff]
      simp only [List.forall_mem_cons]
      cases hx : f x with
      | error e' => simp [bind, Except.bind]
      | ok y =>
          have hrest :
              (Except.ok y >>= fun y => xs.mapM f >>= fun ys => pure (y :: ys)) = .error e ↔
                xs.mapM f = .error e := by
            cases xs.mapM f <;> simp [bind, Except.bind, pure, Except.pure]
          rw [hrest, ih]
          simp

end Bellman
