import Bellman.Proofs.Elimination.Magnitude

/-!
# Elimination in place

The equations that are left after some columns are rows of one matrix, which is changed in
place: the pivot row of a column is exchanged with the row of that number, and multiples of
it are taken from the rows below. A row that has had its column is not looked at again
before the last step, which finds it unchanged: so what it divides by is the pivot that was
accepted. The entries grow by a factor of two in a column at most, since the multipliers are
quotients by the largest entry.
-/

namespace Bellman

open Elimination

/-- The matrix and the right-hand side that an elimination works on. -/
structure Working (n : ℕ) (α : Type) where
  entry : Fin n → Fin n → α
  rightSide : Fin n → α

namespace Working

variable {n k : ℕ} {α : Type}

/-- A system as it is given. -/
def start (A : Matrix (Fin n) (Fin n) α) (b : Fin n → α) : Working n α where
  entry i j := A i j
  rightSide := b

/-- The numbers of the rows from a place on. -/
def rowsFrom (n k : ℕ) : List (Fin n) :=
  (List.finRange n).drop k

/-- Exchanges two rows. -/
def exchange (w : Working n α) (r s : Fin n) : Working n α where
  entry i := w.entry (Equiv.swap r s i)
  rightSide i := w.rightSide (Equiv.swap r s i)

section Column

variable [Zero α] [Add α] [Sub α] [Mul α] [Div α] [Pivoting α]
variable (w : Working n α) (c : Fin n)

/-- The row with the preferred entry of a column, on the diagonal or below. -/
def pivotRow : Fin n :=
  ((rowsFrom n c)[preferredPlace (w.entry c c)
    ((rowsFrom n (c + 1)).map (w.entry · c))]?).getD c

/-- The preferred entry of a column. -/
def pivot : α :=
  w.entry (w.pivotRow c) c

/-- The pivot row is brought to the diagonal. -/
def pivoted : Working n α :=
  w.exchange c (w.pivotRow c)

/-- How many times a row is taken from another one. -/
def multiplier (i : Fin n) : α :=
  w.entry i c / w.entry c c

/-- Takes multiples of a row from the rows below it, from the column of its number on. -/
def sweep : Working n α where
  entry i j :=
    if c < i ∧ c ≤ j then w.entry i j - w.multiplier c i * w.entry c j else w.entry i j
  rightSide i :=
    if c < i then w.rightSide i - w.multiplier c i * w.rightSide c else w.rightSide i

/-- One column of an elimination, unless its pivot is refused. -/
def column : Except (KernelError α) (Working n α) :=
  if Pivoting.negligible (w.pivot c) then .error (.singular (w.pivot c) c)
  else .ok ((w.pivoted c).sweep c)

/-- Some columns of an elimination, one after the other. -/
def columns (cs : List (Fin n)) (w : Working n α) : Except (KernelError α) (Working n α) :=
  cs.foldlM column w

/-- The first columns of an elimination. -/
def firstColumns (k : ℕ) : Except (KernelError α) (Working n α) :=
  columns ((List.finRange n).take k) w

/-- What some rows give from the last to the first, if those below have given the rest. -/
def backSubstitute (rs : List (Fin n)) (w : Working n α) : List α :=
  rs.foldr
    (fun r xs =>
      (w.rightSide r - dot ((List.ofFn (w.entry r)).drop (r + 1)) xs) / w.entry r r :: xs)
    []

/-- All columns, and then all rows. -/
def solve : Except (KernelError α) (List α) :=
  (w.firstColumns n).map (backSubstitute (List.finRange n))

end Column

section Entries

variable {w : Working n α} {c i j : Fin n}

@[simp] theorem exchange_entry (w : Working n α) (r s i : Fin n) :
    (w.exchange r s).entry i = w.entry (Equiv.swap r s i) := rfl

@[simp] theorem exchange_rightSide (w : Working n α) (r s i : Fin n) :
    (w.exchange r s).rightSide i = w.rightSide (Equiv.swap r s i) := rfl

variable [Sub α] [Mul α] [Div α]

theorem sweep_entry_of_lt (hi : c < i) (hj : c ≤ j) :
    (w.sweep c).entry i j = w.entry i j - w.multiplier c i * w.entry c j :=
  if_pos ⟨hi, hj⟩

theorem sweep_rightSide_of_lt (hi : c < i) :
    (w.sweep c).rightSide i = w.rightSide i - w.multiplier c i * w.rightSide c :=
  if_pos hi

theorem sweep_entry_of_le (hi : i ≤ c) : (w.sweep c).entry i = w.entry i :=
  funext fun _ => if_neg fun h => absurd h.1 (not_lt.mpr hi)

theorem sweep_rightSide_of_le (hi : i ≤ c) : (w.sweep c).rightSide i = w.rightSide i :=
  if_neg (not_lt.mpr hi)

end Entries

/-! ## Rows -/

theorem rowsFrom_eq_cons (c : Fin n) : rowsFrom n c = c :: rowsFrom n (c + 1) := by
  rw [rowsFrom, List.drop_eq_getElem_cons (by simp), List.getElem_finRange]
  rfl

theorem mem_rowsFrom {i : Fin n} : i ∈ rowsFrom n k ↔ k ≤ i := by
  rw [rowsFrom, List.mem_drop_iff_getElem]
  constructor
  · rintro ⟨j, hj, rfl⟩
    simp
  · intro h
    refine ⟨i - k, by simp only [List.length_finRange]; omega, Fin.ext ?_⟩
    simp only [List.getElem_finRange, Fin.val_cast]
    omega

theorem nodup_rowsFrom (n k : ℕ) : (rowsFrom n k).Nodup :=
  (List.nodup_finRange n).sublist (List.drop_sublist k _)

/-- Bringing the equation of a row to the front exchanges two rows. -/
theorem bringToFront_rows {place : ℕ} {c p : Fin n} (h : (rowsFrom n c)[place]? = some p)
    (f : Fin n → Equation α) :
    bringToFront place (f c) ((rowsFrom n (c + 1)).map f) =
      (f p, (rowsFrom n (c + 1)).map fun i => f (Equiv.swap c p i)) := by
  have hc (i : Fin n) (hi : i ∈ rowsFrom n (c + 1)) : i ≠ c := by
    rintro rfl
    exact absurd (mem_rowsFrom.mp hi) (by omega)
  rw [rowsFrom_eq_cons] at h
  cases place with
  | zero =>
      obtain rfl : c = p := by simpa using h
      simp [bringToFront]
  | succ i =>
      rw [List.getElem?_cons_succ] at h
      obtain ⟨hi, hp⟩ := List.getElem?_eq_some_iff.mp h
      rw [bringToFront, List.getElem?_map, h, Prod.mk.injEq]
      refine ⟨rfl, List.ext_getElem (by simp) fun j _ hj => ?_⟩
      have hj : j < (rowsFrom n (c + 1)).length := by simpa using hj
      rw [List.getElem_set, List.getElem_map, List.getElem_map]
      split
      next hij =>
        subst hij
        rw [hp, Equiv.swap_apply_right]
      next hij =>
        have hne : (rowsFrom n (c + 1))[j] ≠ p := by
          rw [← hp, Ne, (nodup_rowsFrom n (c + 1)).getElem_inj_iff]
          exact Ne.symm hij
        rw [Equiv.swap_apply_of_ne_of_ne (hc _ (List.getElem_mem hj)) hne]

section Pivot

variable [Pivoting α] (w : Working n α)

/-- The pivot is searched for among the rows from the diagonal on. -/
theorem getElem?_pivotRow (c : Fin n) :
    (rowsFrom n c)[preferredPlace (w.entry c c)
      ((rowsFrom n (c + 1)).map (w.entry · c))]? = some (w.pivotRow c) := by
  have hmem := choice_mem (fun c best : α × ℕ => Pivoting.preferred c.1 best.1)
    (w.entry c c, 0) (((rowsFrom n (c + 1)).map (w.entry · c)).zipIdx 1)
  change _ ∈ ((c :: rowsFrom n (c + 1)).map (w.entry · c)).zipIdx at hmem
  rw [List.mem_zipIdx_iff_getElem?, ← rowsFrom_eq_cons, List.getElem?_map,
    Option.map_eq_some_iff] at hmem
  obtain ⟨p, hp, -⟩ := hmem
  have hplace : (rowsFrom n c)[preferredPlace (w.entry c c)
      ((rowsFrom n (c + 1)).map (w.entry · c))]? = some p := hp
  rw [pivotRow, hplace]
  rfl

theorem le_pivotRow (c : Fin n) : c ≤ w.pivotRow c :=
  mem_rowsFrom.mp (List.mem_of_getElem? (w.getElem?_pivotRow c))

/-- The pivot stands on the diagonal before it is divided by. -/
theorem pivoted_diagonal (c : Fin n) : (w.pivoted c).entry c c = w.pivot c := by
  rw [pivoted, exchange_entry, Equiv.swap_apply_left]
  rfl

end Pivot

/-! ## Equations -/

section Equations

variable (w : Working n α)

/-- The equation of a row from a column on. -/
def equation (k : ℕ) (i : Fin n) : Equation α where
  coefficients := (List.ofFn (w.entry i)).drop k
  rightSide := w.rightSide i

/-- The equations that are left for a column. -/
def left (k : ℕ) : List (Equation α) :=
  (rowsFrom n k).map (w.equation k)

theorem left_eq_cons (c : Fin n) :
    w.left c = w.equation c c :: (rowsFrom n (c + 1)).map (w.equation c) := by
  rw [left, rowsFrom_eq_cons, List.map_cons]

variable [Zero α]

theorem lead_equation (c i : Fin n) : lead (w.equation c i) = w.entry i c := by
  rw [lead, equation, List.drop_eq_getElem_cons (by simp), List.headD_cons, List.getElem_ofFn]

theorem map_lead_equation (c : Fin n) :
    ((rowsFrom n (c + 1)).map (w.equation c)).map lead =
      (rowsFrom n (c + 1)).map (w.entry · c) := by
  rw [List.map_map]
  exact List.map_congr_left fun i _ => w.lead_equation c i

/-- The choice of a pivot among the equations exchanges two rows. -/
theorem chosen_left [Pivoting α] (c : Fin n) :
    chosen (w.equation c c) ((rowsFrom n (c + 1)).map (w.equation c)) =
      ((w.pivoted c).equation c c, (rowsFrom n (c + 1)).map ((w.pivoted c).equation c)) := by
  rw [chosen, lead_equation, map_lead_equation, bringToFront_rows (w.getElem?_pivotRow c)]
  have hfirst : w.equation c (w.pivotRow c) = (w.pivoted c).equation c c := by
    simp only [equation, pivoted, exchange_entry, exchange_rightSide, Equiv.swap_apply_left]
  rw [hfirst]
  rfl

variable [Sub α] [Mul α] [Div α]

/-- What a column leaves of an equation is its row from the next column on. -/
theorem withoutLead_equation {c i : Fin n} (h : c < i) :
    withoutLead (w.equation c c) (w.equation c i) = (w.sweep c).equation (c + 1) i := by
  have hcoefficients : List.zipWith (fun a p => a - w.multiplier c i * p)
      (w.equation c i).coefficients.tail (w.equation c c).coefficients.tail =
        ((w.sweep c).equation (c + 1) i).coefficients := by
    simp only [equation, List.tail_drop]
    refine List.ext_getElem (by simp) fun j _ hj => ?_
    have hn : (c : ℕ) + 1 + j < n := by
      simp only [List.length_drop, List.length_ofFn] at hj
      omega
    have hcolumn : c ≤ ⟨c + 1 + j, hn⟩ := Fin.le_def.mpr (by dsimp only; omega)
    simp only [List.getElem_zipWith, List.getElem_drop, List.getElem_ofFn]
    exact (sweep_entry_of_lt h hcolumn).symm
  rw [withoutLead, reduce, lead_equation, lead_equation, ← multiplier, hcoefficients]
  exact congrArg _ (sweep_rightSide_of_lt h).symm

theorem remaining_left [Pivoting α] (c : Fin n) :
    remaining (w.equation c c) ((rowsFrom n (c + 1)).map (w.equation c)) =
      ((w.pivoted c).sweep c).left (c + 1) := by
  rw [remaining, chosen_left, left, List.map_map]
  refine List.map_congr_left fun i hi => ?_
  exact (w.pivoted c).withoutLead_equation (mem_rowsFrom.mp hi)

end Equations

/-! ## Columns -/

section Columns

variable [Sub α] [Mul α] [Div α] [Pivoting α]
variable {w u : Working n α} {r : Fin n} {cs ds : List (Fin n)}

/-- A column refuses its pivot, or the others go on with what it makes. -/
theorem columns_cons (c : Fin n) (cs : List (Fin n)) (w : Working n α) :
    columns (c :: cs) w =
      if Pivoting.negligible (w.pivot c) then .error (.singular (w.pivot c) c)
      else columns cs ((w.pivoted c).sweep c) := by
  rw [columns, List.foldlM_cons, column]
  split <;> rfl

theorem columns_append_eq_ok_iff : columns (cs ++ ds) w = .ok u ↔
    ∃ v, columns cs w = .ok v ∧ columns ds v = .ok u := by
  rw [columns, List.foldlM_append]
  change (columns cs w >>= columns ds) = _ ↔ _
  cases columns cs w <;> simp [bind, Except.bind]

/-- A column keeps the rows above the diagonal: the pivot comes from below, and only what is
below the pivot is swept. -/
theorem sweep_pivoted_of_lt (w : Working n α) {c : Fin n} (h : r < c) :
    ((w.pivoted c).sweep c).entry r = w.entry r ∧
      ((w.pivoted c).sweep c).rightSide r = w.rightSide r := by
  have hswap : Equiv.swap c (w.pivotRow c) r = r :=
    Equiv.swap_apply_of_ne_of_ne h.ne (h.trans_le (w.le_pivotRow c)).ne
  rw [sweep_entry_of_le h.le, sweep_rightSide_of_le h.le, pivoted, exchange_entry,
    exchange_rightSide, hswap]
  exact ⟨rfl, rfl⟩

/-- A row above all columns is as it was. -/
theorem columns_of_lt (hcs : ∀ c ∈ cs, r < c) (h : columns cs w = .ok u) :
    u.entry r = w.entry r ∧ u.rightSide r = w.rightSide r := by
  induction cs generalizing w with
  | nil =>
      cases h
      exact ⟨rfl, rfl⟩
  | cons c cs ih =>
      obtain ⟨hc, hcs⟩ := List.forall_mem_cons.mp hcs
      rw [columns_cons] at h
      split at h
      · cases h
      · obtain ⟨hentry, hright⟩ := ih hcs h
        obtain ⟨hentry', hright'⟩ := w.sweep_pivoted_of_lt hc
        exact ⟨hentry.trans hentry', hright.trans hright'⟩

/-- The pivot row of a column is as it was when the pivot was accepted. -/
theorem columns_of_pivoted {c : Fin n}
    (h : columns (rowsFrom n (c + 1)) ((w.pivoted c).sweep c) = .ok u) :
    u.entry c = (w.pivoted c).entry c ∧ u.rightSide c = (w.pivoted c).rightSide c := by
  obtain ⟨hentry, hright⟩ := columns_of_lt (fun i hi => mem_rowsFrom.mp hi) h
  rw [hentry, hright, sweep_entry_of_le le_rfl, sweep_rightSide_of_le le_rfl]
  exact ⟨rfl, rfl⟩

/-- What stands on the diagonal in the end is the pivot that was accepted in its column. -/
theorem diagonal_eq_pivot (h : w.firstColumns n = .ok u) (r : Fin n) :
    ∃ v, w.firstColumns r = .ok v ∧ Pivoting.negligible (v.pivot r) = false ∧
      u.entry r r = v.pivot r := by
  have hcut : (List.finRange n).take n =
      (List.finRange n).take r ++ r :: rowsFrom n (r + 1) := by
    rw [← rowsFrom_eq_cons, rowsFrom, List.take_append_drop, List.take_of_length_le (by simp)]
  rw [firstColumns, hcut, columns_append_eq_ok_iff] at h
  obtain ⟨v, hv, hu⟩ := h
  rw [columns_cons] at hu
  split at hu
  · cases hu
  next haccepted =>
    refine ⟨v, hv, by simpa using haccepted, ?_⟩
    rw [(columns_of_pivoted hu).1, pivoted_diagonal]

variable [Zero α] [Add α]

/-- A row that is as it was when its pivot was accepted gives what the recorded pivot gives. -/
theorem backSubstitute_stage {c : Fin n} {ss : List (Stage α)}
    (h : Elimination.backSubstitute ss = backSubstitute cs u)
    (hentry : u.entry c = (w.pivoted c).entry c)
    (hright : u.rightSide c = (w.pivoted c).rightSide c) :
    Elimination.backSubstitute
        (stageOf (w.equation c c) ((rowsFrom n (c + 1)).map (w.equation c)) :: ss) =
      backSubstitute (c :: cs) u := by
  have hpivot : (stageOf (w.equation c c) ((rowsFrom n (c + 1)).map (w.equation c))).pivot =
      (w.pivoted c).equation c c := by
    rw [stageOf, chosen_left]
  rw [backSubstitute_cons, h, hpivot, lead_equation, equation, List.tail_drop, ← hentry, ← hright]
  rfl

/-- The equations that are left are solved by the rows that hold them; by induction on the
number of columns to come. -/
theorem map_backSubstitute_stages {m : ℕ} (h : k + m = n) (w : Working n α) :
    (stages m k (w.left k)).map Elimination.backSubstitute =
      (columns (rowsFrom n k) w).map (backSubstitute (rowsFrom n k)) := by
  induction m generalizing k w with
  | zero =>
      have hrows : rowsFrom n k = [] := List.drop_eq_nil_of_le (by simp [← h])
      rw [hrows]
      rfl
  | succ m ih =>
      let c : Fin n := ⟨k, by omega⟩
      have hfirst : rowsFrom n k = c :: rowsFrom n (k + 1) := rowsFrom_eq_cons c
      have hrest := ih (k := k + 1) (by omega) ((w.pivoted c).sweep c)
      rw [hfirst, columns_cons]
      have hleft : w.left k = w.equation c c :: (rowsFrom n (c + 1)).map (w.equation c) :=
        w.left_eq_cons c
      rw [hleft, stages_succ_cons, chosen_left, lead_equation, pivoted_diagonal, remaining_left]
      split
      · rfl
      · cases hcolumns : columns (rowsFrom n (k + 1)) ((w.pivoted c).sweep c) with
        | error e =>
            cases hstages : stages m (k + 1) (((w.pivoted c).sweep c).left (k + 1)) with
            | error e' =>
                rw [hcolumns, hstages] at hrest
                cases hrest
                rfl
            | ok ss =>
                rw [hcolumns, hstages] at hrest
                cases hrest
        | ok u =>
            cases hstages : stages m (k + 1) (((w.pivoted c).sweep c).left (k + 1)) with
            | error e =>
                rw [hcolumns, hstages] at hrest
                cases hrest
            | ok ss =>
                rw [hcolumns, hstages] at hrest
                have hsolved := Except.ok.inj hrest
                -- The pivot was recorded before the later columns, which leave its row alone.
                obtain ⟨hentry, hright⟩ := columns_of_pivoted hcolumns
                exact congrArg Except.ok (backSubstitute_stage hsolved hentry hright)

/-- The system of a matrix is solved in place. -/
theorem solve_ofMatrix (A : Matrix (Fin n) (Fin n) α) (b : Fin n → α) :
    (Grid.ofMatrix A).solve (List.ofFn b) = (start A b).solve := by
  rw [Grid.solve_ofMatrix, Grid.equations_ofMatrix, List.ofFn_eq_map, solve, firstColumns,
    List.take_of_length_le (by simp)]
  exact map_backSubstitute_stages (Nat.zero_add n) (start A b)

theorem exists_firstColumns_of_solve {x : List α} (h : w.solve = .ok x) :
    ∃ u, w.firstColumns n = .ok u := by
  rw [solve] at h
  cases hu : w.firstColumns n with
  | error e =>
      rw [hu] at h
      cases h
  | ok u => exact ⟨u, rfl⟩

end Columns

/-! ## Divisors -/

section Divisors

variable [Zero α] [Sub α] [Mul α] [Pivoting α] {q q' : α → α → α}

/-- Two divisions that agree where the divisor is accepted. -/
def AgreeOnAccepted (q q' : α → α → α) : Prop :=
  ∀ x y, Pivoting.negligible y = false → q x y = q' x y

theorem stages_congr_div (h : AgreeOnAccepted q q') (m k : ℕ) (rs : List (Equation α)) :
    @stages α _ _ _ ⟨q⟩ _ m k rs = @stages α _ _ _ ⟨q'⟩ _ m k rs := by
  induction m generalizing k rs with
  | zero => rfl
  | succ m ih =>
      cases rs with
      | nil => rfl
      | cons r rs =>
          rw [@stages_succ_cons α _ _ _ _ ⟨q⟩, @stages_succ_cons α _ _ _ _ ⟨q'⟩]
          split
          · rfl
          next haccepted =>
            have hdiv (x : α) : q x (lead (chosen r rs).1) = q' x (lead (chosen r rs).1) :=
              h x _ (by simpa using haccepted)
            have hstage : @stageOf α _ _ ⟨q⟩ r rs = @stageOf α _ _ ⟨q'⟩ r rs :=
              congrArg (Stage.mk _ _) (List.map_congr_left fun s _ => hdiv (lead s))
            have hremaining : @remaining α _ _ _ _ ⟨q⟩ r rs = @remaining α _ _ _ _ ⟨q'⟩ r rs :=
              List.map_congr_left fun s _ => congrArg (fun m => reduce _ m s) (hdiv (lead s))
            rw [hstage, hremaining, ih]

variable [Add α]

theorem backSubstitute_congr_div (h : AgreeOnAccepted q q') {ss : List (Stage α)}
    (hss : ∀ s ∈ ss, Pivoting.negligible (lead s.pivot) = false) :
    @Elimination.backSubstitute α _ _ _ _ ⟨q⟩ ss =
      @Elimination.backSubstitute α _ _ _ _ ⟨q'⟩ ss := by
  induction ss with
  | nil => rfl
  | cons s ss ih =>
      obtain ⟨hs, hss⟩ := List.forall_mem_cons.mp hss
      rw [@backSubstitute_cons α _ _ _ ⟨q⟩, @backSubstitute_cons α _ _ _ ⟨q'⟩, ih hss]
      exact congrArg (· :: _) (h _ _ hs)

/-- What a division gives for a divisor that is refused has no influence on a solution. -/
theorem solve_congr_div (h : AgreeOnAccepted q q') (A : Grid α) (b : List α) :
    @Grid.solve α _ _ _ _ ⟨q⟩ _ A b = @Grid.solve α _ _ _ _ ⟨q'⟩ _ A b := by
  unfold Grid.solve
  rw [stages_congr_div h]
  split
  · rfl
  · split
    · rfl
    · cases hstages : @stages α _ _ _ ⟨q'⟩ _ A.height 0 (equations A.rows b) with
      | error _ => rfl
      | ok ss =>
          have hpivots := @negligible_of_mem_stages α _ _ _ ⟨q'⟩ _ _ _ _ _ hstages
          exact congrArg Except.ok (backSubstitute_congr_div h hpivots)

end Divisors

/-! ## Growth -/

section Growth

variable {w u : Working n ℚ} {c i : Fin n} {B : ℚ}

/-- No entry of a column, on the diagonal or below, is larger than the pivot. -/
theorem abs_entry_le_pivot (w : Working n ℚ) (h : c ≤ i) : |w.entry i c| ≤ |w.pivot c| := by
  have hmem : w.equation c i ∈ w.equation c c :: (rowsFrom n (c + 1)).map (w.equation c) := by
    rw [← left_eq_cons]
    exact List.mem_map_of_mem (mem_rowsFrom.mpr h)
  have hlead := abs_lead_le_chosen hmem
  rwa [chosen_left, lead_equation, lead_equation, pivoted_diagonal] at hlead

/-- No multiplier is larger than one. -/
theorem abs_multiplier_le_one (w : Working n ℚ) (h : c < i) :
    |(w.pivoted c).multiplier c i| ≤ 1 := by
  have hrow : c ≤ Equiv.swap c (w.pivotRow c) i := by
    rw [Equiv.swap_apply_def]
    split
    · exact w.le_pivotRow c
    · split
      · exact le_rfl
      · exact h.le
  rw [multiplier, pivoted_diagonal, pivoted, exchange_entry, abs_div]
  exact div_le_one_of_le₀ (w.abs_entry_le_pivot hrow) (abs_nonneg _)

/-- A column at most doubles the largest entry. -/
theorem abs_sweep_pivoted_le (hB : ∀ i j, |w.entry i j| ≤ B) (i j : Fin n) :
    |((w.pivoted c).sweep c).entry i j| ≤ 2 * B := by
  have hpivoted (i j : Fin n) : |(w.pivoted c).entry i j| ≤ B := hB _ j
  have hpos : 0 ≤ B := (abs_nonneg _).trans (hB i j)
  by_cases hij : c < i ∧ c ≤ j
  · rw [sweep_entry_of_lt hij.1 hij.2]
    calc |(w.pivoted c).entry i j - (w.pivoted c).multiplier c i * (w.pivoted c).entry c j|
        ≤ |(w.pivoted c).entry i j| + |(w.pivoted c).multiplier c i * (w.pivoted c).entry c j| :=
          abs_sub _ _
      _ ≤ B + 1 * B := by
          rw [abs_mul]
          gcongr
          · exact hpivoted i j
          · exact w.abs_multiplier_le_one hij.1
          · exact hpivoted c j
      _ = 2 * B := by ring
  · have hkept : ((w.pivoted c).sweep c).entry i j = (w.pivoted c).entry i j := if_neg hij
    rw [hkept]
    linarith [hpivoted i j]

/-- Each column at most doubles the largest entry. -/
theorem abs_columns_le {cs : List (Fin n)} (h : columns cs w = .ok u)
    (hB : ∀ i j, |w.entry i j| ≤ B) (i j : Fin n) : |u.entry i j| ≤ 2 ^ cs.length * B := by
  induction cs generalizing w B with
  | nil =>
      cases h
      simpa using hB i j
  | cons c cs ih =>
      rw [columns_cons] at h
      split at h
      · cases h
      · calc |u.entry i j| ≤ 2 ^ cs.length * (2 * B) := ih h (abs_sweep_pivoted_le hB)
          _ = 2 ^ (c :: cs).length * B := by rw [List.length_cons]; ring

end Growth

/-- An elimination divides by accepted pivots only, whatever the entries are, in its columns
and in the end; and over the rational numbers its multipliers are at most one, so that its
entries grow by a factor of two in a column at most. -/
theorem pivots_accepted_and_entries_bounded :
    (∀ q : Binary64 → Binary64 → Binary64,
      (∀ x y, y.abs.lt pivotTolerance = false → q x y = x / y) →
      ∀ (A : Grid Binary64) (b : List Binary64),
        @Grid.solve Binary64 _ _ _ _ ⟨q⟩ _ A b = A.solve b) ∧
    (∀ (n : ℕ) (A : Matrix (Fin n) (Fin n) Binary64) (b : Fin n → Binary64),
      (Grid.ofMatrix A).solve (List.ofFn b) = (start A b).solve ∧
      (∀ (c : Fin n) (w u : Working n Binary64),
        (start A b).firstColumns c = .ok w → w.column c = .ok u →
          ((w.pivoted c).entry c c).abs.lt pivotTolerance = false) ∧
      ∀ u : Working n Binary64, (start A b).firstColumns n = .ok u → ∀ r : Fin n,
        (u.entry r r).abs.lt pivotTolerance = false ∧
          ∃ w, (start A b).firstColumns r = .ok w ∧ u.entry r r = w.pivot r) ∧
    ∀ (n : ℕ) (A : Matrix (Fin n) (Fin n) ℚ) (b : Fin n → ℚ),
      (Grid.ofMatrix A).solve (List.ofFn b) = (start A b).solve ∧
      ∀ k ≤ n, ∀ w : Working n ℚ, (start A b).firstColumns k = .ok w →
        (∀ B, (∀ i j, |A i j| ≤ B) → ∀ i j, |w.entry i j| ≤ 2 ^ k * B) ∧
        ∀ c i : Fin n, (c : ℕ) = k → c < i → |(w.pivoted c).multiplier c i| ≤ 1 := by
  refine ⟨fun _ hagree A b => solve_congr_div hagree A b, fun n A b => ⟨solve_ofMatrix A b, ?_, ?_⟩,
    fun n A b => ⟨solve_ofMatrix A b, fun k hk w hw => ⟨fun B hB i j => ?_, ?_⟩⟩⟩
  · intro c w u _ hu
    rw [column] at hu
    split at hu
    · cases hu
    next haccepted =>
      rw [pivoted_diagonal]
      exact eq_false_of_ne_true haccepted
  · intro u hu r
    obtain ⟨w, hw, haccepted, hdiagonal⟩ := diagonal_eq_pivot hu r
    exact ⟨hdiagonal ▸ haccepted, w, hw, hdiagonal⟩
  · have hbound := abs_columns_le hw hB i j
    rwa [List.length_take_of_le (by simpa using hk)] at hbound
  · intro c i _ hci
    exact w.abs_multiplier_le_one hci

/-- A system whose first column begins with a zero. It is solved all the same if a quotient by
a refused pivot is not a number; its multiplier is at most one; and its first column leaves no
entry above two. -/
theorem pivots_of_exchanged_rows :
    (∀ x y : Binary64, y.abs.lt pivotTolerance = false →
      (if y.abs.lt pivotTolerance then Binary64.nan else x / y) = x / y) ∧
    @Grid.solve Binary64 _ _ _ _ ⟨fun x y => if y.abs.lt pivotTolerance then .nan else x / y⟩ _
      (Grid.ofMatrix !![0, 1; 1, 1]) (List.ofFn ![1, 1]) = .ok [0, 1] ∧
    (((start !![0, 1; 1, 1] ![1, 1] : Working 2 Binary64).pivoted 0).entry 0 0).abs.lt
      pivotTolerance = false ∧
    (∃ u : Working 2 Binary64, (start !![0, 1; 1, 1] ![1, 1]).firstColumns 2 = .ok u ∧
      ∀ r, (u.entry r r).abs.lt pivotTolerance = false) ∧
    |((start !![0, 1; 1, 1] ![1, 1] : Working 2 ℚ).pivoted 0).multiplier 0 1| ≤ 1 ∧
    ∃ w : Working 2 ℚ, (start !![0, 1; 1, 1] ![1, 1]).firstColumns 1 = .ok w ∧
      ∀ i j, |w.entry i j| ≤ 2 ^ 1 * 1 := by
  obtain ⟨hdivision, hdoubles, hrationals⟩ := pivots_accepted_and_entries_bounded
  obtain ⟨hsolve, hdivisor, hdiagonal⟩ := hdoubles 2 !![0, 1; 1, 1] ![1, 1]
  obtain ⟨hsolve', hcolumns⟩ := hrationals 2 !![0, 1; 1, 1] ![1, 1]
  have hagree (x y : Binary64) (hy : y.abs.lt pivotTolerance = false) :
      (if y.abs.lt pivotTolerance then Binary64.nan else x / y) = x / y := by
    rw [hy, if_neg Bool.false_ne_true]
  have hsolved : (Grid.ofMatrix !![0, 1; 1, 1]).solve (List.ofFn ![1, 1]) =
      .ok [(0 : Binary64), 1] := by decide +kernel
  have hexact : (Grid.ofMatrix !![0, 1; 1, 1]).solve (List.ofFn ![1, 1]) =
      .ok [(0 : ℚ), 1] := by decide +kernel
  have haccepted : Pivoting.negligible
      ((start !![0, 1; 1, 1] ![1, 1] : Working 2 Binary64).pivot 0) = false := by
    decide +kernel
  have hcolumn : (start !![0, 1; 1, 1] ![1, 1] : Working 2 Binary64).column 0 = .ok _ :=
    if_neg (Bool.eq_false_iff.mp haccepted)
  have hentries : ∀ i j, |(!![0, 1; 1, 1] : Matrix (Fin 2) (Fin 2) ℚ) i j| ≤ 1 := by
    simp [Fin.forall_fin_two]
  refine ⟨hagree, (hdivision _ hagree _ _).trans hsolved, hdivisor 0 _ _ rfl hcolumn, ?_,
    (hcolumns 0 (Nat.zero_le 2) _ rfl).2 0 1 rfl (by decide), ?_⟩
  · obtain ⟨u, hu⟩ := exists_firstColumns_of_solve (hsolve.symm.trans hsolved)
    exact ⟨u, hu, fun r => (hdiagonal u hu r).1⟩
  · obtain ⟨u, hu⟩ := exists_firstColumns_of_solve (hsolve'.symm.trans hexact)
    obtain ⟨w, hw, -⟩ := diagonal_eq_pivot hu 1
    exact ⟨w, hw, (hcolumns 1 (by decide) w hw).1 1 hentries⟩

end Working

end Bellman
