import Bellman.Proofs.Elimination.Solution

/-!
# The right-hand side has no say in an elimination

Two systems with one matrix are eliminated in lockstep. It is enough to compare each of them
with the homogeneous system, whose right-hand sides are all zero: an equation has its leading
coefficient with its right-hand side or without, so the same pivot comes to the front, the same
multiples of it are taken from the others, and what remains has the same coefficients again. So
the record of an elimination, up to the right-hand sides of its pivots, is that of the
homogeneous system, and so is a refusal.
-/

namespace Bellman

variable {α : Type}

/-- An equation with nothing on its right-hand side. -/
def Equation.homogeneous [Zero α] (r : Equation α) : Equation α :=
  { r with rightSide := 0 }

/-- What is done in a column of the homogeneous system. -/
def Stage.homogeneous [Zero α] (s : Stage α) : Stage α :=
  { s with pivot := s.pivot.homogeneous }

/-- How the rows of a matrix are changed in one column: how far below the diagonal the row was
that came to the front, and how many times it was taken from each row below. -/
def Stage.move (s : Stage α) : ℕ × List α :=
  (s.offset, s.multipliers)

namespace Elimination

/-- Whatever is done to all equations may be done before two of them change places. -/
theorem bringToFront_map (f : Equation α → Equation α) (place : ℕ) (r : Equation α)
    (rs : List (Equation α)) :
    bringToFront place (f r) (rs.map f) =
      (f (bringToFront place r rs).1, (bringToFront place r rs).2.map f) := by
  cases place with
  | zero => rfl
  | succ i => simp only [bringToFront, List.getElem?_map, Option.getD_map, List.map_set]

section Column

variable [Zero α]

@[simp] theorem lead_homogeneous (r : Equation α) : lead r.homogeneous = lead r := rfl

theorem map_lead_homogeneous (rs : List (Equation α)) :
    (rs.map Equation.homogeneous).map lead = rs.map lead := by
  rw [List.map_map]
  rfl

variable [Pivoting α]

/-- The homogeneous system has the same pivot, in the same place. -/
theorem chosen_homogeneous (r : Equation α) (rs : List (Equation α)) :
    chosen r.homogeneous (rs.map Equation.homogeneous) =
      ((chosen r rs).1.homogeneous, (chosen r rs).2.map Equation.homogeneous) := by
  rw [chosen, lead_homogeneous, map_lead_homogeneous, bringToFront_map]
  rfl

/-- A column of the homogeneous system is recorded as the column itself. -/
theorem stageOf_homogeneous [Div α] (r : Equation α) (rs : List (Equation α)) :
    stageOf r.homogeneous (rs.map Equation.homogeneous) = (stageOf r rs).homogeneous := by
  rw [stageOf, chosen_homogeneous, lead_homogeneous, map_lead_homogeneous, List.map_map]
  rfl

variable [Sub α] [Mul α] [Div α]

/-- What a column leaves has the same coefficients in the homogeneous system. -/
theorem remaining_homogeneous (r : Equation α) (rs : List (Equation α)) :
    (remaining r.homogeneous (rs.map Equation.homogeneous)).map Equation.homogeneous =
      (remaining r rs).map Equation.homogeneous := by
  rw [remaining, remaining, chosen_homogeneous, List.map_map, List.map_map, List.map_map]
  rfl

/-- A run, up to right-hand sides, is that of the homogeneous system; by induction on the number
of columns, where what remains of a column is compared with its own homogeneous system twice. -/
theorem stages_homogeneous (n column : ℕ) (rs : List (Equation α)) :
    (stages n column (rs.map Equation.homogeneous)).map (List.map Stage.homogeneous) =
      (stages n column rs).map (List.map Stage.homogeneous) := by
  induction n generalizing column rs with
  | zero => rfl
  | succ n ih =>
      cases rs with
      | nil => rfl
      | cons r rs =>
          have hrest : (stages n (column + 1)
              (remaining r.homogeneous (rs.map Equation.homogeneous))).map
                (List.map Stage.homogeneous) =
              (stages n (column + 1) (remaining r rs)).map (List.map Stage.homogeneous) := by
            rw [← ih, remaining_homogeneous, ih]
          have hcons (s : Stage α) (x : Except (KernelError α) (List (Stage α))) :
              (x.map (s :: ·)).map (List.map Stage.homogeneous) =
                (x.map (List.map Stage.homogeneous)).map (s.homogeneous :: ·) := by
            cases x <;> rfl
          rw [List.map_cons, stages_succ_cons, stages_succ_cons, chosen_homogeneous,
            lead_homogeneous]
          split
          · rfl
          · rw [hcons, hcons, hrest, stageOf_homogeneous]
            rfl

/-- The moves of a run are those of the homogeneous system. -/
theorem moves_homogeneous (n column : ℕ) (rs : List (Equation α)) :
    (stages n column (rs.map Equation.homogeneous)).map (List.map Stage.move) =
      (stages n column rs).map (List.map Stage.move) := by
  have hmove (x : Except (KernelError α) (List (Stage α))) :
      x.map (List.map Stage.move) =
        (x.map (List.map Stage.homogeneous)).map (List.map Stage.move) := by
    cases x with
    | error e => rfl
    | ok ss =>
        apply congrArg Except.ok
        rw [List.map_map]
        rfl
  rw [hmove, stages_homogeneous, ← hmove]

end Column

end Elimination

namespace Grid

open Elimination

variable {n : ℕ}

section Moves

variable [Zero α] [Sub α] [Mul α] [Div α] [Pivoting α]

/-- How the rows of a system are changed, column by column, or the pivot that is refused. -/
def moves (A : Grid α) (b : List α) : Except (KernelError α) (List (ℕ × List α)) :=
  (stages A.height 0 (equations A.rows b)).map (List.map Stage.move)

/-- The rows of a matrix are changed in the same way, whatever stands beside them. -/
theorem moves_ofMatrix_eq (A : Matrix (Fin n) (Fin n) α) (b b' : Fin n → α) :
    (ofMatrix A).moves (List.ofFn b) = (ofMatrix A).moves (List.ofFn b') := by
  have hsame : (equations (ofMatrix A).rows (List.ofFn b)).map Equation.homogeneous =
      (equations (ofMatrix A).rows (List.ofFn b')).map Equation.homogeneous := by
    rw [equations_ofMatrix, equations_ofMatrix, List.map_ofFn, List.map_ofFn]
    rfl
  rw [moves, ← moves_homogeneous, hsame, moves_homogeneous, moves]

variable [Add α]

/-- A system is solved if its rows can be changed in this way, and else refused as they are. -/
theorem solve_ofMatrix_verdict (A : Matrix (Fin n) (Fin n) α) (b : Fin n → α) :
    ((ofMatrix A).solve (List.ofFn b)).map (fun _ => ()) =
      ((ofMatrix A).moves (List.ofFn b)).map fun _ => () := by
  rw [solve_ofMatrix, moves, height_ofMatrix]
  cases stages n 0 (equations (ofMatrix A).rows (List.ofFn b)) <;> rfl

end Moves

/-- Two results of which neither or both are refusals, and for one reason. -/
theorem refused_iff_of_verdict_eq {ε β : Type} {r r' : Except ε β}
    (h : r.map (fun _ => ()) = r'.map fun _ => ()) :
    (∀ e, r = .error e ↔ r' = .error e) ∧ ((∃ x, r = .ok x) ↔ ∃ x, r' = .ok x) := by
  cases r <;> cases r' <;> simp_all [Except.map]

/-- Whether a matrix is refused, for which pivot in which column and in which words, does not
depend on the right-hand side, and neither do the exchanges of rows and the multipliers. The
entries may be infinite, or no numbers. -/
theorem verdict_of_matrix (A : Matrix (Fin n) (Fin n) Binary64) (b b' : Fin n → Binary64) :
    (∀ pivot column,
      (ofMatrix A).solve (List.ofFn b) = .error (.singular pivot column) ↔
        (ofMatrix A).solve (List.ofFn b') = .error (.singular pivot column)) ∧
    (∀ words,
      (∃ e, (ofMatrix A).solve (List.ofFn b) = .error e ∧ e.message? = some words) ↔
        ∃ e, (ofMatrix A).solve (List.ofFn b') = .error e ∧ e.message? = some words) ∧
    ((∃ x, (ofMatrix A).solve (List.ofFn b) = .ok x) ↔
      ∃ x', (ofMatrix A).solve (List.ofFn b') = .ok x') ∧
    (ofMatrix A).moves (List.ofFn b) = (ofMatrix A).moves (List.ofFn b') := by
  have hmoves := moves_ofMatrix_eq A b b'
  have hverdict : ((ofMatrix A).solve (List.ofFn b)).map (fun _ => ()) =
      ((ofMatrix A).solve (List.ofFn b')).map fun _ => () := by
    rw [solve_ofMatrix_verdict, solve_ofMatrix_verdict, hmoves]
  obtain ⟨hrefused, hsolved⟩ := refused_iff_of_verdict_eq hverdict
  refine ⟨fun pivot column => hrefused _, fun words => ?_, hsolved, hmoves⟩
  apply exists_congr
  intro e
  rw [hrefused]

end Grid

end Bellman
