import Bellman.Proofs.RewardProcess.Discounted
import Bellman.Proofs.RewardProcess.Proper
import Bellman.Service

/-!
# What is told about a process

A process that was read is either solved or refused, and a refusal is put into words. All
that a solution holds is finite and so can be shown: the process, its system and its
values. But the check multiplies the system by the values, and these products are looked
at by nobody before they are shown. So there is one thing that keeps a reader from being
told anything, a row of the system whose product with the values is not finite, and it
is exactly what makes the service fail.
-/

namespace Bellman

namespace Display

variable {x : Binary64} {xs : List Binary64} {rows : List (List Binary64)}

/-- Exactly the finite numbers are shown. -/
theorem exists_number_iff : (∃ s, number x = .ok s) ↔ x.isFinite = true := by
  cases x with
  | nan => simp [number, Binary64.isFinite]
  | infinity s => simp [number, Binary64.isFinite]
  | finite s m e h =>
      refine iff_of_true ?_ rfl
      simp only [number]
      split
      · exact ⟨_, rfl⟩
      · rw [if_neg (by decide)]
        exact ⟨_, rfl⟩

theorem exists_vector_iff : (∃ s, vector xs = .ok s) ↔ ∀ x ∈ xs, x.isFinite = true := by
  rw [vector, exists_map_eq_ok_iff, exists_mapM_eq_ok_iff]
  simp only [exists_number_iff]

theorem exists_matrix_iff :
    (∃ s, matrix rows = .ok s) ↔ ∀ row ∈ rows, ∀ x ∈ row, x.isFinite = true := by
  rw [matrix, exists_map_eq_ok_iff, exists_mapM_eq_ok_iff]
  simp only [exists_vector_iff]

end Display

namespace RewardProcess

open Display

/-- A paragraph is written about a row exactly when both sides of it can be shown. -/
theorem RowCheck.exists_report_iff {c : RowCheck} {row : Nat} :
    (∃ q, c.report row = .ok q) ↔ c.found.isFinite = true ∧ c.wanted.isFinite = true := by
  rw [← exists_number_iff, ← exists_number_iff]
  cases hfound : number c.found <;> cases hwanted : number c.wanted <;>
    simp [report, bind, Except.bind, pure, Except.pure, hfound, hwanted]

theorem exists_reportRows_iff {cs : List RowCheck} {row : Nat} :
    (∃ ps, reportRows row cs = .ok ps) ↔
      ∀ c ∈ cs, c.found.isFinite = true ∧ c.wanted.isFinite = true := by
  induction cs generalizing row with
  | nil => simp
  | cons c cs ih =>
      rw [List.forall_mem_cons, ← RowCheck.exists_report_iff, ← @ih (row + 1)]
      cases hc : c.report row <;> cases hcs : reportRows (row + 1) cs <;>
        simp [reportRows, bind, Except.bind, pure, Except.pure, hc, hcs]

/-- A check of finite rewards is reported exactly when all that was found is finite. -/
theorem exists_reportCheck_iff {found rewards : List Binary64}
    (hrewards : ∀ x ∈ rewards, x.isFinite = true) :
    (∃ ps, reportCheck found rewards = .ok ps) ↔ ∀ x ∈ found, x.isFinite = true := by
  have hrows (hfound : ∀ x ∈ found, x.isFinite = true) :
      ∃ ps, reportRows 1 (List.zipWith RowCheck.mk found rewards) = .ok ps := by
    refine exists_reportRows_iff.mpr fun c hc => ?_
    obtain ⟨i, hi, rfl⟩ := List.getElem_of_mem hc
    rw [List.getElem_zipWith]
    exact ⟨hfound _ (List.getElem_mem _), hrewards _ (List.getElem_mem _)⟩
  constructor
  · rintro ⟨ps, h⟩
    rw [reportCheck, bind_eq_ok_iff] at h
    obtain ⟨s, hs, -⟩ := h
    exact exists_vector_iff.mp ⟨s, hs⟩
  · intro hfound
    obtain ⟨s, hs⟩ := exists_vector_iff.mpr hfound
    obtain ⟨ps, hps⟩ := hrows hfound
    simp [reportCheck, bind, Except.bind, pure, Except.pure, hs, hps]

/-- The failures that a process can be refused with: its system or its solution is too
large, or a pivot is negligible. -/
inductive Failure.Told : Failure → Prop
  | systemOverflow : Told .systemOverflow
  | singular (pivot : Binary64) (column : Nat) : Told (.unsolvable (.singular pivot column))
  | solutionOverflow (states : Nat) : Told (.solutionOverflow states)

/-- A refusal is put into words. -/
theorem Failure.Told.exists_message {f : Failure} (h : f.Told) : ∃ m, f.message? = some m := by
  cases h <;> exact ⟨_, rfl⟩

/-- What a solution of a proper process holds: finite numbers, and lengths that fit. -/
structure Solution.Complete (s : Solution) : Prop where
  proper : s.process.Proper
  height_eq : s.system.height = s.process.states
  width_eq : s.system.width = s.values.length
  system_finite : ∀ row ∈ s.system.rows, ∀ x ∈ row, x.isFinite = true
  values_finite : ∀ x ∈ s.values, x.isFinite = true

/-- A proper process is one of a square matrix and as many rewards. -/
theorem Proper.exists_eq {p : RewardProcess Binary64} (hp : p.Proper) :
    ∃ (n : Nat) (γ : Binary64) (P : Matrix (Fin n) (Fin n) Binary64) (R : Fin n → Binary64),
      p = ⟨γ, Grid.ofMatrix P, List.ofFn R⟩ := by
  obtain ⟨M, hM⟩ := Grid.exists_eq_ofMatrix p.transitions
  obtain ⟨R, hR⟩ := exists_eq_ofFn hp.rewards_length
  have hwidth := hp.width_eq
  revert M
  rw [hwidth]
  intro M hM
  refine ⟨p.states, p.discount, M, R, ?_⟩
  rw [← hR]
  exact congrArg (RewardProcess.mk p.discount · p.rewards) hM

/-- A proper process is refused in words or has a complete solution. -/
theorem Proper.solve_cases {p : RewardProcess Binary64} (hp : p.Proper) :
    (∃ f, p.solve = .error f ∧ f.Told) ∨ ∃ s, p.solve = .ok s ∧ s.Complete := by
  obtain ⟨n, γ, P, R, rfl⟩ := hp.exists_eq
  rw [solve, system_eq_ofMatrix]
  dsimp only
  split
  next hfinite =>
    cases hsolve : (Grid.ofMatrix (1 - γ • P)).solve (List.ofFn R) with
    | error e =>
        obtain ⟨pivot, column, rfl⟩ := Grid.exists_singular_of_solve hsolve
        exact .inl ⟨_, rfl, .singular pivot column⟩
    | ok v =>
        dsimp only
        split
        next hvalues =>
          refine .inr ⟨_, rfl, ?_⟩
          exact {
            proper := hp
            height_eq := (Grid.height_ofMatrix _).trans (Grid.height_ofMatrix P).symm
            width_eq := (Grid.length_of_solve hsolve).symm
            system_finite := by simpa [List.all_eq_true] using hfinite
            values_finite := by simpa [List.all_eq_true] using hvalues }
        next => exact .inl ⟨_, rfl, .solutionOverflow _⟩
  next => exact .inl ⟨_, rfl, .systemOverflow⟩

/-- The rows of the system give finite numbers when they are multiplied by the values. -/
def Solution.Checkable (s : Solution) : Prop :=
  ∀ row ∈ s.system.rows, (dot row s.values).isFinite = true

/-- A complete solution is told about unless it cannot be checked, and then the check is
what cannot be shown. -/
theorem Solution.Complete.trail_cases {s : Solution} (h : s.Complete) :
    (s.Checkable ∧ ∃ t, s.trail = .ok t) ∨
      ¬ s.Checkable ∧ ∃ e, s.trail = .error (.unshowable e) := by
  obtain ⟨P, hP⟩ := exists_matrix_iff.mpr h.proper.transitions_finite
  obtain ⟨γ, hγ⟩ := exists_number_iff.mpr h.proper.discount_finite
  obtain ⟨R, hR⟩ := exists_vector_iff.mpr h.proper.rewards_finite
  obtain ⟨A, hA⟩ := exists_matrix_iff.mpr h.system_finite
  obtain ⟨V, hV⟩ := exists_vector_iff.mpr h.values_finite
  have hfound : s.system.mulVec s.values = .ok (s.system.rows.map (dot · s.values)) :=
    if_pos h.width_eq
  have hlen : (s.system.rows.map (dot · s.values)).length = s.process.rewards.length := by
    rw [List.length_map, h.proper.rewards_length]
    exact h.height_eq
  have hresidual : s.system.residual s.values s.process.rewards =
      .ok (List.zipWith (· - ·) (s.system.rows.map (dot · s.values)) s.process.rewards) := by
    simp only [Grid.residual, hfound, Grid.combine?_of_length_eq _ hlen]
  have hcheckable : s.Checkable ↔ ∃ ps,
      reportCheck (s.system.rows.map (dot · s.values)) s.process.rewards = .ok ps := by
    rw [exists_reportCheck_iff h.proper.rewards_finite, List.forall_mem_map]
    rfl
  rw [hcheckable]
  cases hchecks : reportCheck (s.system.rows.map (dot · s.values)) s.process.rewards with
  | ok ps =>
      refine .inl ⟨⟨ps, rfl⟩, ?_⟩
      simp [trail, bind, Except.bind, pure, Except.pure, Except.mapError, hP, hγ, hR, hA, hV,
        hfound, hchecks, hresidual]
  | error e =>
      refine .inr ⟨by simp, e, ?_⟩
      simp [trail, bind, Except.bind, Except.mapError, hP, hγ, hR, hA, hV, hfound, hchecks]

/-- Whatever solution the process has can be checked. -/
def Checkable (p : RewardProcess Binary64) : Prop :=
  ∀ s, p.solve = .ok s → s.Checkable

/-- A proper process is refused in words, told about, or fails in its check, and the last
exactly when it is not checkable. -/
theorem Proper.trail_cases {p : RewardProcess Binary64} (hp : p.Proper) :
    (p.Checkable ∧ ((∃ t, p.solve.bind Solution.trail = .ok t) ∨
        ∃ f, p.solve.bind Solution.trail = .error f ∧ f.Told)) ∨
      ¬ p.Checkable ∧ ∃ e, p.solve.bind Solution.trail = .error (.unshowable e) := by
  obtain ⟨f, hf, htold⟩ | ⟨s, hs, hcomplete⟩ := hp.solve_cases
  · refine .inl ⟨?_, .inr ⟨f, by rw [hf]; rfl, htold⟩⟩
    intro s hs
    cases hf.symm.trans hs
  · have hcheckable : p.Checkable ↔ s.Checkable := by
      constructor
      · intro h
        exact h s hs
      · intro h t ht
        cases hs.symm.trans ht
        exact h
    rw [hcheckable, hs]
    obtain ⟨hs, t, ht⟩ | ⟨hs, e, he⟩ := hcomplete.trail_cases
    · exact .inl ⟨hs, .inl ⟨t, ht⟩⟩
    · exact .inr ⟨hs, e, he⟩

end RewardProcess

namespace Service

open RewardProcess

variable {discount transitions rewards : String}

theorem solveAnswer_of_trail {t : Trail} (h : trailOf discount transitions rewards = .ok t) :
    (solveAnswer discount transitions rewards).status = 200 := by
  rw [solveAnswer, h]

theorem solveAnswer_of_told {f : Failure} (h : trailOf discount transitions rewards = .error f)
    (hf : f.Told) : (solveAnswer discount transitions rewards).status = 400 := by
  obtain ⟨m, hm⟩ := hf.exists_message
  simp only [solveAnswer, h, hm]
  rfl

theorem solveAnswer_of_unshowable {e : Display.Unshowable}
    (h : trailOf discount transitions rewards = .error (.unshowable e)) :
    (solveAnswer discount transitions rewards).status = 500 := by
  rw [solveAnswer, h]
  rfl

/-- Texts that are read to a process are answered with its trail or with words about its
system or its solution exactly when the process is checkable. A process that is not makes
the check impossible to show, which the service has no words for. -/
theorem solveAnswer_iff_checkable {p : RewardProcess Binary64}
    (h : read discount transitions rewards = .ok p) :
    ((∃ t, trailOf discount transitions rewards = .ok t) ∨
        (∃ f, trailOf discount transitions rewards = .error f ∧ f.Told) ↔ p.Checkable) ∧
      ((solveAnswer discount transitions rewards).status = 200 ∨
        (solveAnswer discount transitions rewards).status = 400 ↔ p.Checkable) ∧
      (¬ p.Checkable →
        (∃ e, trailOf discount transitions rewards = .error (.unshowable e)) ∧
          (solveAnswer discount transitions rewards).status = 500) := by
  have htrail : trailOf discount transitions rewards = p.solve.bind Solution.trail := by
    rw [trailOf, h]
    rfl
  obtain ⟨hp, htold⟩ | ⟨hp, e, he⟩ := (proper_of_read h).trail_cases
  · rw [← htrail] at htold
    refine ⟨iff_of_true htold hp, iff_of_true ?_ hp, fun hnot => absurd hp hnot⟩
    obtain ⟨t, ht⟩ | ⟨f, hf, hwords⟩ := htold
    · exact .inl (solveAnswer_of_trail ht)
    · exact .inr (solveAnswer_of_told hf hwords)
  · rw [← htrail] at he
    have hstatus := solveAnswer_of_unshowable he
    refine ⟨iff_of_false ?_ hp, iff_of_false ?_ hp, fun _ => ⟨⟨e, he⟩, hstatus⟩⟩
    · rintro (⟨t, ht⟩ | ⟨f, hf, hwords⟩)
      · cases he.symm.trans ht
      · cases he.symm.trans hf
        cases hwords
    · omega

/-- A discount of nine tenths and two states: the check of the values can be shown. -/
theorem checkable_of_two_states :
    ∃ p, read "0.9" "0.5, 0.5\n0.2, 0.8" "1, 0" = .ok p ∧ p.Checkable := by
  have hread : (read "0.9" "0.5, 0.5\n0.2, 0.8" "1, 0").isOk = true := by decide +kernel
  cases h : read "0.9" "0.5, 0.5\n0.2, 0.8" "1, 0" with
  | error f =>
      rw [h] at hread
      cases hread
  | ok p =>
      exact ⟨p, rfl, (solveAnswer_iff_checkable h).2.1.mp (.inl (by decide +kernel))⟩

/-- One state, which the system gives three times its value: a third of the largest double
is rounded up, and three times that is too large. The texts are read, but nobody is told
anything about them. -/
theorem not_told_of_largest_reward :
    (read "1" "-2" "1.7976931348623157e308").isOk = true ∧
      ¬ ((∃ t, trailOf "1" "-2" "1.7976931348623157e308" = .ok t) ∨
        ∃ f, trailOf "1" "-2" "1.7976931348623157e308" = .error f ∧ f.Told) ∧
      (solveAnswer "1" "-2" "1.7976931348623157e308").status = 500 := by
  have hstatus : (solveAnswer "1" "-2" "1.7976931348623157e308").status = 500 := by
    decide +kernel
  refine ⟨by decide +kernel, ?_, hstatus⟩
  rintro (⟨t, ht⟩ | ⟨f, hf, htold⟩)
  · have := solveAnswer_of_trail ht
    omega
  · have := solveAnswer_of_told hf htold
    omega

end Service

end Bellman
