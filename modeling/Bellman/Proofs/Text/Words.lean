import Bellman.Proofs.Text.Trimming

/-!
# Normal spacing and words

The words of a text are its maximal runs of visible characters, in order, and normal spacing
joins them by single spaces. So normal spacing forgets of a text exactly what its words do
not say: texts with the same words have the same normal spacing and no others have.

`Runs` says what the maximal runs are without the function that finds them. Facts about
words and spacing are inductions over it, one run at a time.
-/

namespace Bellman.Text

/-- The maximal runs of visible characters of a text. In front of each there are only blanks,
and it goes on to a blank or to the end of the text. -/
inductive Runs : List Char → List (List Char) → Prop
  | blank {gap : List Char} (hgap : ∀ c ∈ gap, isBlank c = true) : Runs gap []
  | run {gap w rest : List Char} {ws : List (List Char)} (hgap : ∀ c ∈ gap, isBlank c = true)
      (hne : w ≠ []) (hw : ∀ c ∈ w, isBlank c = false) (hend : rest.head?.all isBlank = true)
      (hrest : Runs rest ws) : Runs (gap ++ (w ++ rest)) (w :: ws)

variable {a b gap w cs rest : List Char} {ws : List (List Char)}

/-- Every text is cut into runs: what stands before the first blank behind the blanks at its
start is a run, and the rest is shorter. -/
theorem exists_runs (cs : List Char) : ∃ ws, Runs cs ws := by
  induction hn : cs.length using Nat.strongRecOn generalizing cs with
  | ind n ih =>
      obtain ⟨gap, hcs, hgap⟩ := exists_eq_append_trimLeft cs
      cases htrim : trimLeft cs with
      | nil =>
          rw [htrim, List.append_nil] at hcs
          exact ⟨[], hcs ▸ .blank hgap⟩
      | cons c ds =>
          have hc : isBlank c = false := by simpa [htrim] using head?_trimLeft cs
          have hsplit : trimLeft cs =
              c :: ds.takeWhile (!isBlank ·) ++ ds.dropWhile (!isBlank ·) := by
            rw [htrim, List.cons_append, List.takeWhile_append_dropWhile]
          have hlength : (ds.dropWhile (!isBlank ·)).length < n := by
            have hle := (List.dropWhile_suffix (l := ds) (!isBlank ·)).length_le
            have hcs' := congrArg List.length hcs
            simp only [htrim, List.length_append, List.length_cons] at hcs'
            omega
          obtain ⟨ws, hws⟩ := ih _ hlength (ds.dropWhile (!isBlank ·)) rfl
          refine ⟨(c :: ds.takeWhile (!isBlank ·)) :: ws, ?_⟩
          rw [hcs, hsplit]
          refine .run hgap (List.cons_ne_nil _ _) ?_ ?_ hws
          · rintro d (_ | ⟨_, hd⟩)
            · exact hc
            · simpa using List.mem_takeWhile_imp hd
          · have hhead := List.head?_dropWhile_not (!isBlank ·) ds
            cases h : (ds.dropWhile (!isBlank ·)).head? with
            | none => rfl
            | some d => simpa [h] using hhead

theorem words_append_of_blank (hgap : ∀ c ∈ gap, isBlank c = true) (cs : List Char) :
    words (gap ++ cs) = words cs := by
  induction gap with
  | nil => rfl
  | cons c gap ih =>
      rw [List.cons_append, words, if_pos (hgap c List.mem_cons_self)]
      exact ih fun d hd => hgap d (List.mem_cons_of_mem c hd)

/-- Visible characters up to a blank or the end are one word. -/
theorem words_append_of_visible (hne : w ≠ []) (hw : ∀ c ∈ w, isBlank c = false)
    (hend : rest.head?.all isBlank = true) : words (w ++ rest) = w :: words rest := by
  induction w with
  | nil => exact absurd rfl hne
  | cons c w ih =>
      have hc : isBlank c = false := hw c List.mem_cons_self
      rw [List.cons_append, words, if_neg (by simp [hc])]
      cases w with
      | nil => rw [List.nil_append, if_pos hend]
      | cons d w =>
          have hd : isBlank d = false := hw d (by simp)
          rw [if_neg (by simp [hd]),
            ih (List.cons_ne_nil d w) fun e he => hw e (List.mem_cons_of_mem c he)]
          rfl

theorem Runs.words_eq (h : Runs cs ws) : words cs = ws := by
  induction h with
  | blank hgap => simpa using words_append_of_blank hgap []
  | run hgap hne hw hend _ ih =>
      rw [words_append_of_blank hgap, words_append_of_visible hne hw hend, ih]

/-- The words of a text are its maximal runs of visible characters. -/
theorem runs_iff : Runs cs ws ↔ words cs = ws := by
  refine ⟨Runs.words_eq, ?_⟩
  rintro rfl
  obtain ⟨ws, hws⟩ := exists_runs cs
  rwa [hws.words_eq]

/-- A run of blanks becomes one space. -/
theorem collapse_of_blank (hne : gap ≠ []) (hgap : ∀ c ∈ gap, isBlank c = true) :
    collapse gap = [' '] := by
  induction gap with
  | nil => exact absurd rfl hne
  | cons c gap ih =>
      rw [collapse, if_pos (hgap c List.mem_cons_self)]
      cases gap with
      | nil => rfl
      | cons d gap =>
          have hd : isBlank d = true := hgap d (by simp)
          rw [if_pos (by simp [hd])]
          exact ih (List.cons_ne_nil d gap) fun e he => hgap e (List.mem_cons_of_mem c he)

theorem firm_of_visible (hne : w ≠ []) (hw : ∀ c ∈ w, isBlank c = false) : Firm w where
  first := by
    obtain ⟨c, w, rfl⟩ := List.exists_cons_of_ne_nil hne
    simp [hw c List.mem_cons_self]
  last := by
    obtain ⟨w, c, rfl⟩ := (List.eq_nil_or_concat' w).resolve_left hne
    simp [hw c (by simp)]
  collapsed := by simpa using collapse_append_of_visible hw []

/-- A run behind blanks keeps one space in front of it. -/
theorem normalizeAfter_run (hgap : ∀ c ∈ gap, isBlank c = true) (hgap' : gap ≠ [])
    (firm : Firm w) (rest : List Char) :
    normalizeAfter (gap ++ (w ++ rest)) = ' ' :: (w ++ normalizeAfter rest) := by
  rw [normalizeAfter, collapse_around firm, collapse_of_blank hgap' hgap, trimRight_around firm]
  rfl

/-- The run at the start of a text, and what follows it. -/
theorem normalize_run (hgap : ∀ c ∈ gap, isBlank c = true) (firm : Firm w) (rest : List Char) :
    normalize (gap ++ (w ++ rest)) = w ++ normalizeAfter rest := by
  rw [normalize_around firm, normalizeBefore_eq_nil.mpr hgap, List.nil_append]

/-- Normal spacing joins the runs of a text by single spaces. -/
theorem Runs.normalize_eq (h : Runs cs ws) : normalize cs = [' '].intercalate ws := by
  induction h with
  | blank hgap => simpa using normalize_append_of_blank (b := []) hgap [] (by simp)
  | @run gap w rest ws hgap hne hw hend hrest ih =>
      rw [normalize_run hgap (firm_of_visible hne hw)]
      cases hrest with
      | blank hblank => rw [normalizeAfter_eq_nil.mpr hblank, List.append_nil,
          List.intercalate_singleton]
      | @run gap' w' rest' ws' hgap' hne' hw' _ _ =>
          have firm' := firm_of_visible hne' hw'
          -- The run before has ended, so blanks stand in front of this one.
          have hbetween : gap' ≠ [] := by
            rintro rfl
            obtain ⟨c, w', rfl⟩ := List.exists_cons_of_ne_nil hne'
            have hc : isBlank c = true := by simpa using hend
            rw [hw' c List.mem_cons_self] at hc
            cases hc
          rw [normalizeAfter_run hgap' hbetween firm', List.intercalate_cons_cons, ← ih,
            normalize_run hgap' firm', List.append_assoc]
          rfl

theorem normalize_eq_intercalate (cs : List Char) : normalize cs = [' '].intercalate (words cs) :=
  (runs_iff.mpr rfl).normalize_eq

/-- A text may begin with a run. -/
theorem Runs.first (hne : w ≠ []) (hw : ∀ c ∈ w, isBlank c = false)
    (hend : rest.head?.all isBlank = true) (hrest : Runs rest ws) : Runs (w ++ rest) (w :: ws) := by
  have hnone : ∀ c ∈ ([] : List Char), isBlank c = true := by simp
  exact .run hnone hne hw hend hrest

theorem Runs.append_left (hgap : ∀ c ∈ gap, isBlank c = true) (h : Runs cs ws) :
    Runs (gap ++ cs) ws :=
  runs_iff.mpr ((words_append_of_blank hgap cs).trans h.words_eq)

/-- Runs joined by single spaces are the runs of the text they make. -/
theorem Runs.intercalate (h : Runs cs ws) : Runs ([' '].intercalate ws) ws := by
  induction h with
  | blank => exact .blank (by simp)
  | @run gap w rest ws _ hne hw _ hrest ih =>
      cases ws with
      | nil =>
          have hnone : Runs [] [] := .blank (by simp)
          simpa using Runs.first hne hw rfl hnone
      | cons w' ws =>
          have hspace : ∀ c ∈ [' '], isBlank c = true := by simp
          rw [List.intercalate_cons_cons, List.append_assoc]
          exact .first hne hw (by simp) (ih.append_left hspace)

/-- Spacing does not change the words. -/
@[simp] theorem words_normalize (cs : List Char) : words (normalize cs) = words cs := by
  rw [normalize_eq_intercalate]
  exact (Runs.intercalate (runs_iff.mpr rfl)).words_eq

theorem normalize_eq_normalize_iff : normalize a = normalize b ↔ words a = words b := by
  refine ⟨fun h => ?_, fun h => ?_⟩
  · rw [← words_normalize a, h, words_normalize]
  · rw [normalize_eq_intercalate, h, normalize_eq_intercalate]

/-- It makes no difference which blanks, and how many, stand between two texts. -/
theorem normalize_between (hne : gap ≠ []) (hgap : ∀ c ∈ gap, isBlank c = true)
    (a b : List Char) : normalize (a ++ (gap ++ b)) = normalize (a ++ (' ' :: b)) := by
  have hspace : collapse gap = collapse [' '] := collapse_of_blank hne hgap
  exact normalize_congr (collapse_append_congr rfl (collapse_append_congr hspace rfl))

/-- The words of a string. -/
def wordsOf (s : String) : List String :=
  (words s.toList).map String.ofList

theorem map_ofList_inj {vs ws : List (List Char)} :
    vs.map String.ofList = ws.map String.ofList ↔ vs = ws :=
  (List.map_injective_iff.mpr fun _ _ => String.ofList_injective).eq_iff

/-- The words of a string are its maximal runs of visible characters. -/
theorem runs_iff_wordsOf {s : String} : Runs s.toList ws ↔ ws.map String.ofList = wordsOf s := by
  rw [runs_iff, wordsOf, map_ofList_inj, eq_comm]

/-- A text with blanks of several kinds. -/
example : wordsOf "\u2003v(s)\n =\t\tr(s) " = ["v(s)", "=", "r(s)"] := by decide

theorem normalSpacing_eq_intercalate (s : String) :
    normalSpacing s = " ".intercalate (wordsOf s) := by
  rw [← String.toList_inj, normalSpacing, String.toList_ofList, String.toList_intercalate,
    normalize_eq_intercalate, wordsOf, List.map_map]
  congr 1
  exact (List.map_id'' (fun w => String.toList_ofList) _).symm

theorem normalSpacing_eq_iff {s t : String} :
    normalSpacing s = normalSpacing t ↔ wordsOf s = wordsOf t := by
  rw [normalSpacing, normalSpacing, String.ofList_inj, normalize_eq_normalize_iff, wordsOf,
    wordsOf, map_ofList_inj]

@[simp] theorem normalSpacing_normalSpacing (s : String) :
    normalSpacing (normalSpacing s) = normalSpacing s := by
  simp [normalSpacing]

theorem normalSpacing_between {gap : String} (hne : gap ≠ "")
    (hgap : ∀ c ∈ gap.toList, isBlank c = true) (a b : String) :
    normalSpacing (a ++ gap ++ b) = normalSpacing (a ++ " " ++ b) := by
  have hne' : gap.toList ≠ [] := by simpa using hne
  have h := normalize_between hne' hgap a.toList b.toList
  simp [normalSpacing, h]

end Bellman.Text
