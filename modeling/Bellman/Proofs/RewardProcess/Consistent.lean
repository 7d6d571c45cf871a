import Bellman.Proofs.RewardProcess.Deviation
import Bellman.Proofs.RewardProcess.Told
import Bellman.RewardProcess.Trail

/-!
# The trail agrees with itself

A trail says three times how well a solution fits: with a mark on each row, with the largest
deviation, and with the verdict of the summary. The marks compare row by row, the verdict looks
at the largest deviation only, and the numbers on both sides of a row are rounded for the
reader. They agree: the verdict passes exactly when every row has its tick, and a row with a
cross shows two different texts.
-/

namespace Bellman

open Display (number)
open Decimal (Unsigned)

theorem Decimal.Unsigned.mem_cases {cs : List Char} {q : ℚ} (h : Unsigned cs q) :
    ∀ c ∈ cs, c.isDigit = true ∨ c = '.' := by
  intro c hc
  cases h with
  | whole hne hds => exact .inl (hds c hc)
  | pointed hne hds hfne hfs =>
      rcases List.mem_append.mp hc with hc | hc
      · exact .inl (hds c hc)
      · rcases List.mem_cons.mp hc with hc | hc
        · exact .inr hc
        · exact .inl (hfs c hc)

/-- Nothing but digits, a point and a minus sign stands in a shown number. -/
theorem Display.not_mem_of_number {x : Binary64} {text : String} (h : number x = .ok text)
    {c : Char} (hdigit : c.isDigit = false) (hpoint : c ≠ '.') (hminus : c ≠ '-') :
    c ∉ text.toList := by
  have hunsigned {cs : List Char} {q : ℚ} (hcs : Unsigned cs q) : c ∉ cs := by
    intro hc
    rcases hcs.mem_cases c hc with hc | hc
    · rw [hdigit] at hc
      cases hc
    · exact hpoint hc
  obtain ⟨other, hother, q, hq, -⟩ := exists_accurate (isFinite_of_number h)
    (show 0 < 10 by decide)
  rw [Except.ok.inj (h.symm.trans hother)]
  generalize other.toList = cs at hq
  cases hq with
  | positive hcs => exact hunsigned hcs
  | negative hcs =>
      intro hc
      rcases List.mem_cons.mp hc with hc | hc
      · exact hminus hc
      · exact hunsigned hcs hc

namespace RewardProcess

/-- What the text of a row tells about its deviation. -/
structure RowText (text : String) (deviation : Binary64) : Prop where
  ticked_iff : '✓' ∈ text.toList ↔ deviation.lt residualTolerance = true
  crossed_iff : '✗' ∈ text.toList ↔ deviation.lt residualTolerance = false
  /-- A text with a cross has two sides. -/
  exists_sides : '✗' ∈ text.toList → ∃ l r, text = l ++ " ≠ " ++ r ++ "  ✗"
  /-- And they differ. -/
  sides_ne : ∀ l r, text = l ++ " ≠ " ++ r ++ "  ✗" → l ≠ r

theorem RowCheck.report_eq_ok {c : RowCheck} {row : ℕ} {p : Paragraph}
    (h : c.report row = .ok p) :
    ∃ found wanted, number c.found = .ok found ∧ number c.wanted = .ok wanted ∧
      p.expression = found ++ (if c.holds then " = " else " ≠ ") ++ wanted ++
        (if c.holds then "  ✓" else "  ✗") := by
  simp only [report, bind_eq_ok_iff] at h
  obtain ⟨found, hfound, wanted, hwanted, heq⟩ := h
  cases heq
  exact ⟨found, wanted, hfound, hwanted, rfl⟩

/-- The sign between the two sides of a row is the only one of its kind, so it tells the sides
apart. -/
theorem sides_inj {l r found wanted : String} (hfound : '≠' ∉ found.toList)
    (hwanted : '≠' ∉ wanted.toList)
    (h : found ++ " ≠ " ++ wanted ++ "  ✗" = l ++ " ≠ " ++ r ++ "  ✗") :
    found = l ∧ wanted = r := by
  have hlists := congrArg String.toList h
  have hsplit (l r : String) : (l ++ " ≠ " ++ r ++ "  ✗").toList =
      (l.toList ++ [' ']) ++ '≠' :: (' ' :: r.toList ++ [' ', ' ', '✗']) := by
    simp [String.toList_append]
  rw [hsplit, hsplit, eq_comm] at hlists
  obtain ⟨hleft, -, hright⟩ := (List.append_cons_inj_of_notMem (by simpa using hfound)
    (by simpa using hwanted)).mp hlists.symm
  exact ⟨String.toList_inj.mp (by simpa using hleft), String.toList_inj.mp (by simpa using hright)⟩

/-- The signs of a row stand in neither of its numbers. -/
def Unmarked (text : String) : Prop :=
  '✓' ∉ text.toList ∧ '✗' ∉ text.toList ∧ '≠' ∉ text.toList

theorem unmarked_of_number {x : Binary64} {text : String} (h : number x = .ok text) :
    Unmarked text := by
  have hmark (c : Char) (hdigit : c.isDigit = false) (hpoint : c ≠ '.') (hminus : c ≠ '-') :
      c ∉ text.toList :=
    Display.not_mem_of_number h hdigit hpoint hminus
  refine ⟨hmark _ ?_ ?_ ?_, hmark _ ?_ ?_ ?_, hmark _ ?_ ?_ ?_⟩ <;> decide

variable {found wanted : String} {deviation : Binary64}

/-- A row whose deviation is below the tolerance has a tick, and no sides that differ. -/
theorem RowText.of_lt (hfound : Unmarked found) (hwanted : Unmarked wanted)
    (h : deviation.lt residualTolerance = true) :
    RowText (found ++ " = " ++ wanted ++ "  ✓") deviation := by
  obtain ⟨-, hcross, hsign⟩ := hfound
  obtain ⟨-, hcross', hsign'⟩ := hwanted
  have hnone : '≠' ∉ (found ++ " = " ++ wanted ++ "  ✓").toList := by
    simp [String.toList_append, hsign, hsign']
  have hnone' : '✗' ∉ (found ++ " = " ++ wanted ++ "  ✓").toList := by
    simp [String.toList_append, hcross, hcross']
  exact {
    ticked_iff := iff_of_true (by simp [String.toList_append]) h
    crossed_iff := iff_of_false hnone' (by simp [h])
    exists_sides := fun hmem => absurd hmem hnone'
    sides_ne := by
      intro l r heq
      rw [heq] at hnone
      exact absurd (by simp [String.toList_append]) hnone }

/-- Any other row has a cross, and its sides are those that were written. -/
theorem RowText.of_not_lt (hfound : Unmarked found) (hwanted : Unmarked wanted)
    (h : deviation.lt residualTolerance = false) (hne : found ≠ wanted) :
    RowText (found ++ " ≠ " ++ wanted ++ "  ✗") deviation := by
  obtain ⟨htick, -, hsign⟩ := hfound
  obtain ⟨htick', -, hsign'⟩ := hwanted
  exact {
    ticked_iff := iff_of_false (by simp [String.toList_append, htick, htick']) (by simp [h])
    crossed_iff := iff_of_true (by simp [String.toList_append]) h
    exists_sides := fun _ => ⟨found, wanted, rfl⟩
    sides_ne := by
      intro l r heq
      obtain ⟨rfl, rfl⟩ := sides_inj hsign hsign' heq
      exact hne }

/-- The paragraph of a row tells its deviation. If the two sides were one text, the deviation
would be below the tolerance, and there would be no cross. -/
theorem RowCheck.rowText {c : RowCheck} {row : ℕ} {p : Paragraph} (h : c.report row = .ok p) :
    RowText p.expression c.deviation := by
  obtain ⟨found, wanted, hfound, hwanted, hexpression⟩ := report_eq_ok h
  have hunmarked := unmarked_of_number hfound
  have hunmarked' := unmarked_of_number hwanted
  rw [hexpression]
  cases hholds : c.holds with
  | true => exact .of_lt hunmarked hunmarked' hholds
  | false =>
      apply RowText.of_not_lt hunmarked hunmarked' hholds
      intro hsame
      rw [← hsame] at hwanted
      have hclose : c.holds = true := lt_residualTolerance_of_same_text hfound hwanted
      rw [hholds] at hclose
      cases hclose

/-- Each row has its paragraph in its place. -/
theorem getElem?_reportRows {row : ℕ} {cs : List RowCheck} {ps : List Paragraph}
    (h : reportRows row cs = .ok ps) {i : ℕ} {c : RowCheck} (hc : cs[i]? = some c) :
    ∃ p, ps[i]? = some p ∧ c.report (row + i) = .ok p := by
  induction cs generalizing row ps i with
  | nil => cases hc
  | cons d cs ih =>
      simp only [reportRows, bind_eq_ok_iff] at h
      obtain ⟨p, hp, qs, hqs, heq⟩ := h
      cases heq
      cases i with
      | zero =>
          cases hc
          exact ⟨p, rfl, hp⟩
      | succ i =>
          obtain ⟨q, hq, hreport⟩ := ih hqs (by simpa using hc)
          exact ⟨q, by simpa using hq, by rwa [Nat.add_assoc, Nat.add_comm 1] at hreport⟩

theorem reportCheck_eq_ok {found rewards : List Binary64} {ps : List Paragraph}
    (h : reportCheck found rewards = .ok ps) :
    ∃ heading rows, reportRows 1 (List.zipWith RowCheck.mk found rewards) = .ok rows ∧
      ps = heading :: rows := by
  simp only [reportCheck, bind_eq_ok_iff] at h
  obtain ⟨s, hs, rows, hrows, heq⟩ := h
  cases heq
  exact ⟨_, rows, hrows, rfl⟩

namespace Trail

/-- The entries of a list. -/
def items : Json → List Json
  | .list es => es
  | _ => []

/-- The entries of a list of the answer. -/
def entries (t : Trail) (name : String) : List Json :=
  ((t.toJson.field? name).map items).getD []

/-- A field of the summary. -/
def summary? (t : Trail) (name : String) : Option Json :=
  (t.toJson.field? "summary").bind (Json.field? name)

/-- The text of an entry. -/
def expression? (e : Json) : Option String :=
  (e.field? "expression").bind Json.text?

/-- The text of a row of the check; the heading stands before the rows. -/
def rowText? (t : Trail) (i : ℕ) : Option String :=
  (t.entries "verification_steps")[i + 1]?.bind expression?

/-- The numbers from one on. -/
def counted (n : ℕ) : List (Option Json) :=
  (List.range' 1 n).map fun i : ℕ => some (.int i)

theorem stepNumbers_numbered (ps : List Paragraph) :
    (items (numbered ps)).map (Json.field? "step_number") = counted ps.length := by
  rw [counted, ← List.zipIdx_map_snd 1 ps, List.map_map, numbered, items, List.map_map]
  rfl

theorem expressions_numbered (ps : List Paragraph) :
    (items (numbered ps)).map expression? = ps.map fun p => some p.expression := by
  conv_rhs => rw [← List.zipIdx_map_fst 1 ps, List.map_map]
  rw [numbered, items, List.map_map]
  rfl

theorem rowText?_eq (t : Trail) (i : ℕ) :
    t.rowText? i = t.checks[i + 1]?.map Paragraph.expression := by
  have hchecks : t.entries "verification_steps" = items (numbered t.checks) := rfl
  have hjoin (o : Option Json) : o.bind expression? = (o.map expression?).join := by
    cases o <;> rfl
  rw [rowText?, hchecks, hjoin, ← List.getElem?_map, expressions_numbered, List.getElem?_map]
  cases t.checks[i + 1]? <;> rfl

/-- The answer agrees with the deviations of the rows, one for each state. -/
structure Consistent (t : Trail) (states : ℕ) (deviations : List Binary64) : Prop where
  values_length : (t.entries "values").length = states
  deviations_length : deviations.length = states
  checks_numbered : (t.entries "verification_steps").map (Json.field? "step_number") =
    counted (states + 1)
  steps_numbered : ∃ total : ℕ, t.summary? "total_steps" = some (.int total) ∧
    (t.entries "steps").map (Json.field? "step_number") = counted total
  rows : ∀ i d, deviations[i]? = some d → ∃ text, t.rowText? i = some text ∧ RowText text d
  passes_iff : t.summary? "validation_status" = some (.text "pass") ↔
    ∀ i < states, ∃ text, t.rowText? i = some text ∧ '✓' ∈ text.toList
  largest : ∃ m, t.summary? "max_residual" = some (.number m) ∧ m ∈ deviations ∧
    ∀ d ∈ deviations, d.isNaN = false ∧ m.lt d = false

end Trail

/-- What a trail is made of. -/
theorem Solution.trail_eq_ok {s : Solution} {t : Trail} (h : s.trail = .ok t) :
    ∃ found residual, s.system.mulVec s.values = .ok found ∧
      reportCheck found s.process.rewards = .ok t.checks ∧
      s.system.residual s.values s.process.rewards = .ok residual ∧
      t.maxResidual = largest residual ∧ t.values = s.values := by
  simp only [trail, bind_eq_ok_iff, mapError_eq_ok_iff] at h
  obtain ⟨P, -, γ, -, R, -, A, -, V, -, found, hfound, checks, hchecks, residual, hresidual,
    heq⟩ := h
  cases heq
  exact ⟨found, residual, hfound, hchecks, hresidual, rfl, rfl⟩

/-- There is a value for each state. -/
theorem Proper.length_values {p : RewardProcess Binary64} (hp : p.Proper) {A : Grid Binary64}
    {v : List Binary64} (hA : p.system = .ok A) (hv : A.solve p.rewards = .ok v) :
    v.length = p.states := by
  obtain ⟨n, γ, P, R, rfl⟩ := hp.exists_eq
  rw [system_eq_ofMatrix] at hA
  cases hA
  exact (Grid.length_of_solve hv).trans (Grid.height_ofMatrix P).symm

theorem Trail.status_eq_pass_iff (t : Trail) :
    t.summary? "validation_status" = some (.text "pass") ↔ passes t.maxResidual = true := by
  have hstatus : t.summary? "validation_status" =
      some (.text (if passes t.maxResidual then "pass" else "fail")) := rfl
  rw [hstatus]
  cases passes t.maxResidual <;> simp

/-- The deviations are the magnitudes of the differences. -/
theorem map_deviation (found rewards : List Binary64) :
    (List.zipWith RowCheck.mk found rewards).map RowCheck.deviation =
      (List.zipWith (· - ·) found rewards).map Binary64.abs := by
  rw [List.map_zipWith, List.map_zipWith]
  rfl

/-- Where a check is reported, every difference has a place in the order. -/
theorem isNaN_of_reportCheck {found rewards : List Binary64} {ps : List Paragraph}
    (hfinite : ∀ x ∈ rewards, x.isFinite = true) (h : reportCheck found rewards = .ok ps) :
    ∀ x ∈ List.zipWith (· - ·) found rewards, x.isNaN = false := by
  have hshown := (exists_reportCheck_iff hfinite).mp ⟨_, h⟩
  intro x hx
  obtain ⟨i, hi, rfl⟩ := List.getElem_of_mem hx
  rw [List.getElem_zipWith]
  exact Binary64.isNaN_sub (hshown _ (List.getElem_mem _)) (hfinite _ (List.getElem_mem _))

/-- Each row of the check tells its deviation. -/
theorem Trail.exists_rowText {t : Trail} {found rewards : List Binary64}
    (h : reportCheck found rewards = .ok t.checks) {i : ℕ} {d : Binary64}
    (hd : ((List.zipWith RowCheck.mk found rewards).map RowCheck.deviation)[i]? = some d) :
    ∃ text, t.rowText? i = some text ∧ RowText text d := by
  obtain ⟨heading, rows, hrows, hlist⟩ := reportCheck_eq_ok h
  rw [List.getElem?_map] at hd
  obtain ⟨c, hc, rfl⟩ := Option.map_eq_some_iff.mp hd
  obtain ⟨p, hp, hreport⟩ := getElem?_reportRows hrows hc
  refine ⟨p.expression, ?_, RowCheck.rowText hreport⟩
  rw [rowText?_eq, hlist, List.getElem?_cons_succ, hp]
  rfl

/-- Every row has its tick exactly when all deviations are below the tolerance. -/
theorem Trail.forall_ticked_iff {t : Trail} {ds : List Binary64}
    (hrows : ∀ i d, ds[i]? = some d → ∃ text, t.rowText? i = some text ∧ RowText text d) :
    (∀ i < ds.length, ∃ text, t.rowText? i = some text ∧ '✓' ∈ text.toList) ↔
      ∀ d ∈ ds, d.lt residualTolerance = true := by
  constructor
  · intro h d hd
    obtain ⟨i, hi, rfl⟩ := List.getElem_of_mem hd
    obtain ⟨text, hrow, htold⟩ := hrows i _ (List.getElem?_eq_getElem hi)
    obtain ⟨text', hrow', htick⟩ := h i hi
    obtain rfl := Option.some.inj (hrow.symm.trans hrow')
    exact htold.ticked_iff.mp htick
  · intro h i hi
    obtain ⟨text, hrow, htold⟩ := hrows i _ (List.getElem?_eq_getElem hi)
    exact ⟨text, hrow, htold.ticked_iff.mpr (h _ (List.getElem_mem hi))⟩

/-- A trail agrees with itself if its check and its largest deviation are those of the rows. -/
theorem consistent_of_check {t : Trail} {n : ℕ} {found rewards : List Binary64} (hn : 0 < n)
    (hvalues : t.values.length = n) (hfound : found.length = n) (hrewards : rewards.length = n)
    (hfinite : ∀ x ∈ rewards, x.isFinite = true)
    (hchecks : reportCheck found rewards = .ok t.checks)
    (hmax : t.maxResidual = largest (List.zipWith (· - ·) found rewards)) :
    t.Consistent n ((List.zipWith RowCheck.mk found rewards).map RowCheck.deviation) := by
  have hlength : (List.zipWith RowCheck.mk found rewards).length = n := by
    rw [List.length_zipWith, hfound, hrewards, Nat.min_self]
  have hcount : t.checks.length = n + 1 := by
    obtain ⟨heading, rows, hrows, hlist⟩ := reportCheck_eq_ok hchecks
    rw [hlist, List.length_cons, length_of_reportRows hrows, hlength]
  have hne : List.zipWith (· - ·) found rewards ≠ [] := by
    rw [← List.length_pos_iff, List.length_zipWith, hfound, hrewards, Nat.min_self]
    exact hn
  have hnan := isNaN_of_reportCheck hfinite hchecks
  have hdeviations : ((List.zipWith RowCheck.mk found rewards).map RowCheck.deviation).length = n :=
    (List.length_map _).trans hlength
  have htolerance : residualTolerance.isNaN = false := by decide +kernel
  have hticked := Trail.forall_ticked_iff fun _ _ => t.exists_rowText hchecks
  rw [hdeviations] at hticked
  obtain ⟨hmember, hall⟩ := largest_spec hne hnan
  exact {
    values_length := (List.length_map _).trans hvalues
    deviations_length := hdeviations
    checks_numbered := by
      rw [← hcount]
      exact Trail.stepNumbers_numbered t.checks
    steps_numbered := ⟨t.steps.length, rfl, Trail.stepNumbers_numbered t.steps⟩
    rows := fun _ _ => t.exists_rowText hchecks
    passes_iff := by
      rw [t.status_eq_pass_iff, passes, hmax, largest_lt_iff hne hnan htolerance, hticked,
        map_deviation, List.forall_mem_map]
    largest := by
      refine ⟨t.maxResidual, rfl, ?_⟩
      rw [hmax, map_deviation, List.forall_mem_map]
      exact ⟨hmember, fun x hx => ⟨(Binary64.isNaN_abs x).trans (hnan x hx), hall x hx⟩⟩ }

/-- Whenever texts are answered with a trail, they were read to a process whose system was
solved by the values of the trail, and the trail agrees with what the system gives for them. -/
theorem trail_consistent {discount transitions rewards : String} {t : Trail}
    (h : trailOf discount transitions rewards = .ok t) :
    ∃ p A found, read discount transitions rewards = .ok p ∧ p.system = .ok A ∧
      A.solve p.rewards = .ok t.values ∧ A.mulVec t.values = .ok found ∧
      t.Consistent p.states
        ((List.zipWith RowCheck.mk found p.rewards).map RowCheck.deviation) := by
  simp only [trailOf, bind_eq_ok_iff] at h
  obtain ⟨p, hread, s, hsolve, htrail⟩ := h
  have hp := proper_of_read hread
  obtain ⟨f, hf, -⟩ | ⟨s', hs', hcomplete⟩ := hp.solve_cases
  · cases hf.symm.trans hsolve
  · cases hs'.symm.trans hsolve
    obtain ⟨rfl, hsystem, hvalues⟩ := values_of_solve hsolve
    obtain ⟨found, residual, hfound, hchecks, hresidual, hmax, hsame⟩ := s.trail_eq_ok htrail
    have hsolved : s.system.solve s.process.rewards = .ok t.values := by
      rw [values, hsystem] at hvalues
      rw [hsame]
      exact hvalues
    have hlength : found.length = s.process.states :=
      (Grid.length_of_mulVec hfound).trans hcomplete.height_eq
    have hdifference : residual = List.zipWith (· - ·) found s.process.rewards := by
      have hcombine := Grid.combine?_of_length_eq (· - ·)
        (hlength.trans hp.rewards_length.symm)
      simp only [Grid.residual, hfound, hcombine] at hresidual
      exact (Except.ok.inj hresidual).symm
    refine ⟨s.process, s.system, found, hread, hsystem, hsolved, hsame ▸ hfound, ?_⟩
    exact consistent_of_check hp.pos (hp.length_values hsystem hsolved) hlength hp.rewards_length
      hp.rewards_finite hchecks (hdifference ▸ hmax)

/-- A large reward beside a small one: the second row of the check is off. -/
theorem trail_of_unequal_rewards :
    ∃ t p, trailOf "0.9" "0.5, 0.5\n0.2, 0.8" "1e9, 1" = .ok t ∧
      read "0.9" "0.5, 0.5\n0.2, 0.8" "1e9, 1" = .ok p ∧
      t.rowText? 1 = some "1.0000001192 ≠ 1  ✗" ∧
      ∃ deviations, t.Consistent p.states deviations := by
  have hanswer : (trailOf "0.9" "0.5, 0.5\n0.2, 0.8" "1e9, 1").toOption.bind
      (fun t => t.rowText? 1) = some "1.0000001192 ≠ 1  ✗" := by decide +kernel
  cases h : trailOf "0.9" "0.5, 0.5\n0.2, 0.8" "1e9, 1" with
  | error f =>
      rw [h] at hanswer
      cases hanswer
  | ok t =>
      rw [h] at hanswer
      obtain ⟨p, A, found, hread, -, -, -, hconsistent⟩ := trail_consistent h
      exact ⟨t, p, rfl, hread, hanswer, _, hconsistent⟩

end RewardProcess

end Bellman
