import Bellman.Proofs.Elimination.Magnitude
import Bellman.RewardProcess
import Mathlib.Algebra.Order.BigOperators.Group.Finset
import Mathlib.Data.Fintype.Lattice

/-!
# Discounted processes have values

The rows of a transition matrix sum to at most one, so discounting makes the next values
smaller than the present ones. Read over the rational numbers, a process with a discount
that keeps a distance of the pivot tolerance from one is always solved: the matrix I − γP
takes no vector to one smaller by more than the factor 1 − γ, and this bound reaches
every pivot of the elimination. The same bound limits the values, and at a state of the
least value the equation shows that rewards without a loss give values without one.
-/

namespace Bellman

namespace Grid

variable {α : Type} {n : Nat}

theorem identity_eq_ofMatrix [Zero α] [One α] :
    (identity n : Grid α) = ofMatrix (1 : Matrix (Fin n) (Fin n) α) := by
  refine eq_of_rows (List.ext_getElem (by simp [identity, ofMatrix]) fun i _ _ => ?_) rfl
  refine List.ext_getElem (by simp [identity, ofMatrix]) fun j _ _ => ?_
  simp [identity, ofMatrix, Matrix.one_apply]

theorem scale_ofMatrix [Mul α] (P : Matrix (Fin n) (Fin n) α) (c : α) :
    (ofMatrix P).scale c = ofMatrix (c • P) := by
  refine eq_of_rows (List.ext_getElem (by simp [scale, map, ofMatrix]) fun i _ _ => ?_) rfl
  refine List.ext_getElem (by simp [scale, map, ofMatrix]) fun j _ _ => ?_
  simp [scale, map, ofMatrix]

/-- Vectors of one length are combined entry by entry. -/
theorem combine?_of_length_eq (f : α → α → α) {xs ys : List α} (h : xs.length = ys.length) :
    combine? f xs ys = some (List.zipWith f xs ys) := by
  simp [combine?, stretch?, commonLength, h]

theorem combine?_ofFn (f : α → α → α) (a b : Fin n → α) :
    combine? f (List.ofFn a) (List.ofFn b) = some (List.ofFn fun i => f (a i) (b i)) := by
  have hzip : List.zipWith f (List.ofFn a) (List.ofFn b) =
      List.ofFn fun i => f (a i) (b i) :=
    List.ext_getElem (by simp) fun i _ _ => by simp
  rw [combine?_of_length_eq f (by simp), hzip]

theorem mapM_id_some {β : Type} (xs : List β) : (xs.map some).mapM id = some xs := by
  induction xs with
  | nil => rfl
  | cons x xs ih => simp [ih]

theorem ofRows_ofMatrix (A : Matrix (Fin n) (Fin n) α) :
    ofRows (ofMatrix A).rows = .ok (ofMatrix A) := by
  have hwidth : (((ofMatrix A).rows.head?.map List.length).getD 0) = n := by
    cases n with
    | zero => rfl
    | succ n => simp [ofMatrix, List.ofFn_succ]
  have hregular : ∀ row ∈ (ofMatrix A).rows,
      row.length = ((ofMatrix A).rows.head?.map List.length).getD 0 := by
    rw [hwidth]
    exact (ofMatrix A).regular
  rw [ofRows, dif_pos hregular]
  exact congrArg _ (eq_of_rows rfl hwidth)

theorem subtract?_ofMatrix [Sub α] (A B : Matrix (Fin n) (Fin n) α) :
    (ofMatrix A).subtract? (ofMatrix B) = .ok (ofMatrix (A - B)) := by
  have hrows : List.zipWith (combine? (· - ·)) (ofMatrix A).rows (ofMatrix B).rows =
      (ofMatrix (A - B)).rows.map some := by
    refine List.ext_getElem (by simp [ofMatrix]) fun i _ _ => ?_
    simp only [ofMatrix, List.getElem_zipWith, List.getElem_ofFn, combine?_ofFn,
      List.getElem_map]
    rfl
  rw [subtract?, hrows, mapM_id_some]
  exact ofRows_ofMatrix (A - B)

end Grid

namespace RewardProcess

open Elimination

variable {n : Nat} {P : Matrix (Fin n) (Fin n) ℚ} {γ : ℚ}

/-- The process of a discount, a transition matrix and a reward for each state. -/
def ofMatrix (γ : ℚ) (P : Matrix (Fin n) (Fin n) ℚ) (R : Fin n → ℚ) : RewardProcess ℚ :=
  ⟨γ, Grid.ofMatrix P, List.ofFn R⟩

/-- The matrix of the system, whatever the arithmetic. -/
theorem system_eq_ofMatrix {α : Type} [Zero α] [One α] [Sub α] [Mul α] (γ : α)
    (P : Matrix (Fin n) (Fin n) α) (r : List α) :
    (⟨γ, Grid.ofMatrix P, r⟩ : RewardProcess α).system = .ok (Grid.ofMatrix (1 - γ • P)) := by
  have hstates : (⟨γ, Grid.ofMatrix P, r⟩ : RewardProcess α).states = n := Grid.height_ofMatrix P
  rw [system, hstates, Grid.identity_eq_ofMatrix, Grid.scale_ofMatrix, Grid.subtract?_ofMatrix]

theorem system_ofMatrix (γ : ℚ) (P : Matrix (Fin n) (Fin n) ℚ) (R : Fin n → ℚ) :
    (ofMatrix γ P R).system = .ok (Grid.ofMatrix (1 - γ • P)) :=
  system_eq_ofMatrix γ P (List.ofFn R)

/-- Transition probabilities, of which some may be missing. -/
structure Substochastic (P : Matrix (Fin n) (Fin n) ℚ) : Prop where
  nonneg : ∀ i j, 0 ≤ P i j
  sum_le_one : ∀ i, ∑ j, P i j ≤ 1

/-- The system of a process at one state. -/
theorem system_mulVec_apply (γ : ℚ) (P : Matrix (Fin n) (Fin n) ℚ) (v : Fin n → ℚ)
    (i : Fin n) : ((1 - γ • P).mulVec v) i = v i - γ * (P.mulVec v) i := by
  rw [Matrix.sub_mulVec, Matrix.one_mulVec, Matrix.smul_mulVec]
  rfl

/-- What the system takes to the rewards satisfies the Bellman equation. -/
theorem eq_add_of_mulVec_eq {R v : Fin n → ℚ} (h : (1 - γ • P).mulVec v = R) :
    v = R + γ • P.mulVec v := by
  funext i
  have hi := congrFun h i
  rw [system_mulVec_apply] at hi
  change v i = R i + γ * (P.mulVec v) i
  rw [← hi, sub_add_cancel]

namespace Substochastic

/-- Expecting the next value does not enlarge it. -/
theorem abs_mulVec_le (hP : Substochastic P) {v : Fin n → ℚ} {m : ℚ} (hm : 0 ≤ m)
    (hv : ∀ j, |v j| ≤ m) (i : Fin n) : |(P.mulVec v) i| ≤ m := by
  calc |(P.mulVec v) i|
    _ ≤ ∑ j, |P i j * v j| := Finset.abs_sum_le_sum_abs _ _
    _ ≤ ∑ j, P i j * m := by
        refine Finset.sum_le_sum fun j _ => ?_
        rw [abs_mul, abs_of_nonneg (hP.nonneg i j)]
        exact mul_le_mul_of_nonneg_left (hv j) (hP.nonneg i j)
    _ = (∑ j, P i j) * m := (Finset.sum_mul ..).symm
    _ ≤ m := mul_le_of_le_one_left hm (hP.sum_le_one i)

/-- The system takes no vector to one that is smaller by more than the factor 1 − γ. It
is enough to look at the largest entry, which only the diagonal can take away from. -/
theorem mul_abs_le (hP : Substochastic P) (hγ : 0 ≤ γ) {v : Fin n → ℚ} {m : ℚ}
    (h : ∀ i, |((1 - γ • P).mulVec v) i| ≤ m) (j : Fin n) (hγ' : γ ≤ 1) :
    (1 - γ) * |v j| ≤ m := by
  have : Nonempty (Fin n) := ⟨j⟩
  obtain ⟨i, hi⟩ := Finite.exists_max fun k => |v k|
  have hnext := hP.abs_mulVec_le (abs_nonneg (v i)) hi i
  have hrow := h i
  rw [system_mulVec_apply] at hrow
  have hdiscounted : |γ * (P.mulVec v) i| ≤ γ * |v i| := by
    rw [abs_mul, abs_of_nonneg hγ]
    exact mul_le_mul_of_nonneg_left hnext hγ
  have htriangle := abs_sub_abs_le_abs_sub (v i) (γ * (P.mulVec v) i)
  have hlargest : (1 - γ) * |v j| ≤ (1 - γ) * |v i| :=
    mul_le_mul_of_nonneg_left (hi j) (sub_nonneg.mpr hγ')
  linarith

/-- Where rewards without a loss are expected, no value is a loss: at a state of the
least value the discounted next value is no less than the discounted least value. -/
theorem nonneg_of_fixed (hP : Substochastic P) (hγ : 0 ≤ γ) (hγ' : γ < 1)
    {R v : Fin n → ℚ} (hv : v = R + γ • P.mulVec v) (hR : ∀ i, 0 ≤ R i) (j : Fin n) :
    0 ≤ v j := by
  have : Nonempty (Fin n) := ⟨j⟩
  obtain ⟨i, hi⟩ := Finite.exists_min v
  refine le_trans ?_ (hi j)
  by_contra hneg
  have hloss : v i < 0 := not_le.mp hneg
  have hnext : v i ≤ (P.mulVec v) i := by
    calc v i
      _ ≤ (∑ j, P i j) * v i := by nlinarith [hP.sum_le_one i]
      _ = ∑ j, P i j * v i := Finset.sum_mul ..
      _ ≤ ∑ j, P i j * v j :=
          Finset.sum_le_sum fun j _ => mul_le_mul_of_nonneg_left (hi j) (hP.nonneg i j)
  have hequation : v i = R i + γ * (P.mulVec v) i := congrFun hv i
  nlinarith [hR i, mul_le_mul_of_nonneg_left hnext hγ]

/-- The bound on vectors, for the equations that are eliminated. -/
theorem magnifies (hP : Substochastic P) (hγ : 0 ≤ γ) (hγ' : γ ≤ 1) (R : Fin n → ℚ) :
    Magnifies (1 - γ) n
      (equations (Grid.ofMatrix (1 - γ • P)).rows (List.ofFn R)) := by
  intro x hx m _ hbound y hy
  obtain ⟨v, rfl⟩ := exists_eq_ofFn hx
  obtain ⟨j, rfl⟩ := List.mem_ofFn.mp hy
  refine hP.mul_abs_le hγ (fun i => ?_) j hγ'
  rw [Grid.equations_ofMatrix, List.forall_mem_ofFn_iff] at hbound
  have hi := hbound i
  rw [dot_ofFn] at hi
  exact hi

end Substochastic

/-- Every discounted process has values. The elimination of its system finds a pivot of
magnitude at least 1 − γ in every column, so none is refused, and the values satisfy the
Bellman equation, are at most the largest reward divided by 1 − γ, and are without a loss
if the rewards are. -/
theorem exists_values_of_discounted [NeZero n] (hP : Substochastic P) (hγ : 0 ≤ γ)
    (hγ' : γ ≤ 1 - pivotTolerance.toRat) (R : Fin n → ℚ) :
    (ofMatrix γ P R).system = .ok (Grid.ofMatrix (1 - γ • P)) ∧
    (∃ ss, stages n 0 (equations (Grid.ofMatrix (1 - γ • P)).rows (List.ofFn R)) = .ok ss ∧
      ss.length = n ∧ ∀ s ∈ ss, 1 - γ ≤ |lead s.pivot|) ∧
    ∃ V : Fin n → ℚ, (ofMatrix γ P R).values = .ok (List.ofFn V) ∧
      V = R + γ • P.mulVec V ∧
      (∀ i, |V i| ≤ Finset.univ.sup' Finset.univ_nonempty (fun j => |R j|) / (1 - γ)) ∧
      ((∀ i, 0 ≤ R i) → ∀ i, 0 ≤ V i) := by
  have htolerance : (0 : ℚ) < pivotTolerance.toRat := by decide +kernel
  have hlt : γ < 1 := by linarith
  have hsystem := system_ofMatrix γ P R
  have hsquare := Grid.square_equations (1 - γ • P) R
  obtain ⟨ss, hss, hlen, hpivots⟩ :=
    (hP.magnifies hγ hlt.le R).exists_stages hsquare (by linarith) 0
  have hsolve : (Grid.ofMatrix (1 - γ • P)).solve (List.ofFn R) = .ok (backSubstitute ss) := by
    rw [Grid.solve_ofMatrix, hss]
    rfl
  obtain ⟨V, hV, hequation⟩ := Grid.exists_mulVec_eq_of_solve hsolve
  refine ⟨hsystem, ⟨ss, hss, hlen, hpivots⟩, V, ?_, eq_add_of_mulVec_eq hequation, ?_, ?_⟩
  · rw [values, hsystem, ← hV]
    exact hsolve
  · intro i
    rw [le_div_iff₀ (by linarith), mul_comm]
    refine hP.mul_abs_le hγ (fun j => ?_) i hlt.le
    rw [hequation]
    exact Finset.le_sup' (fun j => |R j|) (Finset.mem_univ j)
  · exact hP.nonneg_of_fixed hγ hlt (eq_add_of_mulVec_eq hequation)

/-- Two states and a discount of nine tenths; the first state is left half of the time
and the second one time in five. -/
theorem exists_values_of_two_states :
    Substochastic !![1/2, 1/2; 1/5, 4/5] ∧ (9/10 : ℚ) ≤ 1 - pivotTolerance.toRat ∧
      ∃ V : Fin 2 → ℚ,
        (ofMatrix (9/10) !![1/2, 1/2; 1/5, 4/5] ![1, 0]).values = .ok (List.ofFn V) ∧
          ∀ i, 0 ≤ V i := by
  have hP : Substochastic !![(1/2 : ℚ), 1/2; 1/5, 4/5] :=
    ⟨by norm_num [Fin.forall_fin_two], by norm_num [Fin.forall_fin_two, Fin.sum_univ_two]⟩
  have hγ : (9/10 : ℚ) ≤ 1 - pivotTolerance.toRat := by decide +kernel
  obtain ⟨-, -, V, hV, -, -, hnonneg⟩ :=
    exists_values_of_discounted hP (by norm_num) hγ ![1, 0]
  exact ⟨hP, hγ, V, hV, hnonneg (by norm_num [Fin.forall_fin_two])⟩

end RewardProcess

end Bellman
