import Bellman.Proofs.RewardProcess.Proper
import Bellman.Proofs.Text.Lines

/-!
# What is read from the text of a matrix or a vector

The text of a matrix is read place by place: the number in row i and column j is that of
cell j of the i-th line that is not blank. The shape is looked at first, line by line, and
then the cells in reading order, and what is told is the first thing that is wrong. Only
the table of a text is looked at, so blanks that separate nothing make no difference.
-/

namespace Bellman.Numeral

open Text

variable {cs : List (List Char)} {rows : List (List (List Char))} {n : ℤ}

/-- The number of a cell. -/
def readCell (c : List Char) : Except ScalarError Binary64 :=
  readScalar (.ofList c)

theorem readCell_eq (c : List Char) : readCell c = readToken (trim c) := by
  rw [readCell, readScalar, String.toList_ofList]

/-- Cells whose first one, in order, that is no number is refused for the reason `e`. -/
def FirstRefused (cs : List (List Char)) (e : ScalarError) : Prop :=
  ∃ front c back, cs = front ++ c :: back ∧ (∀ d ∈ front, ∃ x, readCell d = .ok x) ∧
    readCell c = .error e

theorem readCells_eq (cs : List (List Char)) :
    readCells cs = cs.mapM fun c => (readCell c).mapError .scalar := by
  refine congrArg (cs.mapM ·) (funext fun c => ?_)
  rw [readCell_eq]
  cases readToken (trim c) <;> rfl

theorem readCells_eq_ok_iff {xs : List Binary64} :
    readCells cs = .ok xs ↔ List.Forall₂ (fun c x => readCell c = .ok x) cs xs := by
  simp only [readCells_eq, mapM_eq_ok_iff, mapError_eq_ok_iff]

theorem readCells_eq_error_iff {e : TableError} :
    readCells cs = .error e ↔ ∃ s, FirstRefused cs s ∧ e = .scalar s := by
  simp only [readCells_eq, mapM_eq_error_iff, mapError_eq_ok_iff, mapError_eq_error_iff]
  constructor
  · rintro ⟨front, c, back, hcs, hfront, s, hc, rfl⟩
    exact ⟨s, ⟨front, c, back, hcs, hfront, hc⟩, rfl⟩
  · rintro ⟨s, ⟨front, c, back, hcs, hfront, hc⟩, rfl⟩
    exact ⟨front, c, back, hcs, hfront, s, hc, rfl⟩

theorem readCells_map_trim (cs : List (List Char)) : readCells (cs.map trim) = readCells cs := by
  have htrim : (fun c => (readCell c).mapError TableError.scalar) ∘ trim =
      fun c => (readCell c).mapError .scalar := by
    funext c
    simp only [Function.comp_apply, readCell_eq, trim_trim]
  rw [readCells_eq, readCells_eq, List.mapM_map, htrim]

/-- Rows are read one after the other, each in order. -/
theorem readCells_flatten (rows : List (List (List Char))) :
    readCells rows.flatten = (rows.mapM readCells).map List.flatten := by
  induction rows with
  | nil => rfl
  | cons row rows ih =>
      rw [List.flatten_cons, readCells, List.mapM_append, ← readCells, ← readCells, ih,
        List.mapM_cons]
      cases readCells row with
      | error e => rfl
      | ok xs => cases rows.mapM readCells <;> rfl

theorem mapM_readCells_eq_error_iff {e : TableError} :
    rows.mapM readCells = .error e ↔ ∃ s, FirstRefused rows.flatten s ∧ e = .scalar s := by
  rw [← readCells_eq_error_iff, readCells_flatten]
  cases rows.mapM readCells <;> simp [Except.map]

/-- The matrix whose rows have these cells. -/
def readRows (rows : List (List (List Char))) : Except TableError (List (List Binary64)) :=
  if rows.isEmpty then .error .noRows
  else
    match wrongRow? rows.length 1 rows with
    | some (row, n) => .error (.rowLength row n rows.length)
    | none => rows.mapM readCells

theorem wrongRow?_eq_some_iff {m first i k : ℕ} : wrongRow? m first rows = some (i, k) ↔
    ∃ front row back, rows = front ++ row :: back ∧ (∀ r ∈ front, r.length = m) ∧
      row.length ≠ m ∧ i = first + front.length ∧ k = row.length := by
  induction rows generalizing first with
  | nil => simp [wrongRow?]
  | cons r rows ih =>
      rw [wrongRow?, exists_cut_cons_iff]
      simp only [List.forall_mem_cons, List.length_cons, List.length_nil]
      split
      next hr =>
        have hplace (m : ℕ) : first + 1 + m = first + (m + 1) := by omega
        simp only [ih, hr, hplace, ne_eq, not_true_eq_false, false_and, and_false, true_and,
          false_or]
      next hr => simp [hr, eq_comm]

/-- What may come of reading a matrix whose rows have the cells `rows`. -/
inductive ReadsMatrix (rows : List (List (List Char))) :
    Except TableError (List (List Binary64)) → Prop where
  /-- There is no row. -/
  | noRows : rows = [] → ReadsMatrix rows (.error .noRows)
  /-- The first row with another number of cells than there are rows, whatever the cells are. -/
  | wrongLength {front row back} : rows = front ++ row :: back →
      (∀ r ∈ front, r.length = rows.length) → row.length ≠ rows.length →
      ReadsMatrix rows (.error (.rowLength (front.length + 1) row.length rows.length))
  /-- The first cell in reading order that is no number, if the shape is right. -/
  | badCell {e} : (∀ r ∈ rows, r.length = rows.length) → FirstRefused rows.flatten e →
      ReadsMatrix rows (.error (.scalar e))
  /-- The numbers of all cells, each in its place. -/
  | matrix {xss} : rows ≠ [] → (∀ r ∈ rows, r.length = rows.length) →
      List.Forall₂ (List.Forall₂ fun c x => readCell c = .ok x) rows xss →
      ReadsMatrix rows (.ok xss)

/-- What may come of reading a vector of length `n` with the cells `cs`. -/
inductive ReadsVector (cs : List (List Char)) (n : ℤ) :
    Except TableError (List Binary64) → Prop where
  /-- There are more or fewer cells, whatever they are. -/
  | wrongLength : (cs.length : ℤ) ≠ n → ReadsVector cs n (.error (.vectorLength cs.length n))
  /-- The first cell that is no number, if their number is right. -/
  | badCell {e} : (cs.length : ℤ) = n → FirstRefused cs e → ReadsVector cs n (.error (.scalar e))
  /-- The numbers of all cells in order. -/
  | vector {xs} : (cs.length : ℤ) = n → List.Forall₂ (fun c x => readCell c = .ok x) cs xs →
      ReadsVector cs n (.ok xs)

theorem mapM_readCells_eq_ok_iff {xss : List (List Binary64)} :
    rows.mapM readCells = .ok xss ↔
      List.Forall₂ (List.Forall₂ fun c x => readCell c = .ok x) rows xss := by
  simp only [mapM_eq_ok_iff, readCells_eq_ok_iff]

theorem readsMatrix_readRows (rows : List (List (List Char))) :
    ReadsMatrix rows (readRows rows) := by
  by_cases hrows : rows = []
  · subst hrows
    exact .noRows rfl
  rw [readRows, if_neg (by simpa using hrows)]
  cases hwrong : wrongRow? rows.length 1 rows with
  | some ik =>
      obtain ⟨front, row, back, heq, hfront, hrow, hi, hk⟩ := wrongRow?_eq_some_iff.mp hwrong
      obtain ⟨i, k⟩ := ik
      obtain rfl : i = front.length + 1 := by omega
      obtain rfl : k = row.length := hk
      exact .wrongLength heq hfront hrow
  | none =>
      have hshape := wrongRow?_eq_none_iff.mp hwrong
      cases hread : rows.mapM readCells with
      | error e =>
          obtain ⟨s, hs, rfl⟩ := mapM_readCells_eq_error_iff.mp hread
          exact .badCell hshape hs
      | ok xss => exact .matrix hrows hshape (mapM_readCells_eq_ok_iff.mp hread)

theorem ReadsMatrix.eq_readRows {o : Except TableError (List (List Binary64))}
    (h : ReadsMatrix rows o) : readRows rows = o := by
  have shape (hne : rows ≠ []) (hrows : ∀ r ∈ rows, r.length = rows.length) :
      readRows rows = rows.mapM readCells := by
    rw [readRows, if_neg (by simpa using hne), wrongRow?_eq_none_iff.mpr hrows]
  cases h with
  | noRows h => rw [h]; rfl
  | wrongLength heq hfront hrow =>
      have hwrong := wrongRow?_eq_some_iff.mpr
        ⟨_, _, _, heq, hfront, hrow, Nat.add_comm _ 1, rfl⟩
      rw [readRows, if_neg (by simp [heq]), hwrong]
  | badCell hrows he =>
      have hne : rows ≠ [] := by
        rintro rfl
        obtain ⟨front, c, back, heq, -⟩ := he
        simp at heq
      rw [shape hne hrows, mapM_readCells_eq_error_iff]
      exact ⟨_, he, rfl⟩
  | matrix hne hrows hread => rw [shape hne hrows, mapM_readCells_eq_ok_iff.mpr hread]

theorem readRows_eq_iff {o : Except TableError (List (List Binary64))} :
    readRows rows = o ↔ ReadsMatrix rows o :=
  ⟨fun h => h ▸ readsMatrix_readRows rows, ReadsMatrix.eq_readRows⟩

theorem exists_readCells_eq_ok_iff :
    (∃ xs, readCells cs = .ok xs) ↔ ∀ c ∈ cs, ∃ x, readCell c = .ok x := by
  simp only [readCells_eq, exists_mapM_eq_ok_iff, mapError_eq_ok_iff]

/-- A matrix is read if the shape is right and each cell is a number. -/
theorem exists_readRows_eq_ok_iff : (∃ xss, readRows rows = .ok xss) ↔
    rows ≠ [] ∧ (∀ r ∈ rows, r.length = rows.length) ∧
      ∀ r ∈ rows, ∀ c ∈ r, ∃ x, readCell c = .ok x := by
  have hread : (∃ xss, rows.mapM readCells = .ok xss) ↔
      ∀ r ∈ rows, ∀ c ∈ r, ∃ x, readCell c = .ok x := by
    simp only [exists_mapM_eq_ok_iff, exists_readCells_eq_ok_iff]
  constructor
  · rintro ⟨xss, h⟩
    cases readRows_eq_iff.mp h with
    | matrix hne hshape hcells =>
        exact ⟨hne, hshape, hread.mp ⟨xss, mapM_readCells_eq_ok_iff.mpr hcells⟩⟩
  · rintro ⟨hne, hshape, hcells⟩
    obtain ⟨xss, hxss⟩ := hread.mpr hcells
    exact ⟨xss, readRows_eq_iff.mpr (.matrix hne hshape (mapM_readCells_eq_ok_iff.mp hxss))⟩

theorem readRows_map_trim (rows : List (List (List Char))) :
    readRows (rows.map fun row => row.map trim) = readRows rows := by
  have hwrong (m first : ℕ) (rows : List (List (List Char))) :
      wrongRow? m first (rows.map fun row => row.map trim) = wrongRow? m first rows := by
    induction rows generalizing first with
    | nil => rfl
    | cons row rows ih => simp only [List.map_cons, wrongRow?, List.length_map, ih]
  have hread : (rows.map fun row => row.map trim).mapM readCells = rows.mapM readCells := by
    rw [List.mapM_map]
    exact congrArg (rows.mapM ·) (funext readCells_map_trim)
  rw [readRows, readRows, hread, hwrong, List.length_map, List.isEmpty_map]

theorem rowTexts_eq (cs : List Char) : rowTexts cs = fullLines (trim cs) := by
  simp only [rowTexts, fullLines, isEmpty_trim]

/-- Of the text of a matrix, only its table is looked at. -/
theorem readMatrix_eq_readRows_table (text : String) :
    readMatrix text = readRows (table text.toList) := by
  have hrows : readMatrix text = readRows ((rowTexts text.toList).map cells) := rfl
  rw [hrows, rowTexts_eq, ← readRows_map_trim, List.map_map, ← table_trim]
  rfl

theorem readMatrix_eq_readRows (text : String) :
    readMatrix text = readRows ((fullLines text.toList).map cells) := by
  rw [readMatrix_eq_readRows_table, ← readRows_map_trim ((fullLines text.toList).map cells),
    List.map_map]
  rfl

/-- A vector has the cells of its text, and blanks at the ends are blanks of its cells. -/
theorem readVector_eq (text : String) (n : ℤ) : readVector text n =
    if ((cells text.toList).length : ℤ) = n then readCells (cells text.toList)
    else .error (.vectorLength (cells text.toList).length n) := by
  have hlength : (cells (trim text.toList)).length = (cells text.toList).length := by
    simpa using congrArg List.length (map_trim_cells_trim text.toList)
  have hread : readCells (cells (trim text.toList)) = readCells (cells text.toList) := by
    rw [← readCells_map_trim, map_trim_cells_trim, readCells_map_trim]
  simp only [readVector, hlength, hread, ne_eq, ite_not]

theorem readVector_eq_iff {text : String} {o : Except TableError (List Binary64)} :
    readVector text n = o ↔ ReadsVector (cells text.toList) n o := by
  rw [readVector_eq]
  constructor
  · rintro rfl
    split
    next hn =>
      cases hread : readCells (cells text.toList) with
      | error e =>
          obtain ⟨s, hs, rfl⟩ := readCells_eq_error_iff.mp hread
          exact .badCell hn hs
      | ok xs => exact .vector hn (readCells_eq_ok_iff.mp hread)
    next hn => exact .wrongLength hn
  · intro h
    cases h with
    | wrongLength hn => rw [if_neg hn]
    | badCell hn he => rw [if_pos hn, readCells_eq_error_iff.mpr ⟨_, he, rfl⟩]
    | vector hn hread => rw [if_pos hn, readCells_eq_ok_iff.mpr hread]

/-- A matrix or a vector is what its cells are, place by place, if there are as many as there
should be and each is a number; otherwise the shape is told before any cell, and the first
cell otherwise. Blanks that separate nothing make no difference. -/
theorem tables_read_by_place :
    (∀ (text : String) (o : Except TableError (List (List Binary64))),
      readMatrix text = o ↔ ReadsMatrix ((fullLines text.toList).map cells) o) ∧
    (∀ text : String, (∃ xss, readMatrix text = .ok xss) ↔
      fullLines text.toList ≠ [] ∧ ∀ l ∈ fullLines text.toList,
        (cells l).length = (fullLines text.toList).length ∧
          ∀ c ∈ cells l, ∃ x, readCell c = .ok x) ∧
    (∀ text text' : String, Respaced text.toList text'.toList →
      readMatrix text = readMatrix text') ∧
    (∀ (text : String) (n : ℤ) (o : Except TableError (List Binary64)),
      readVector text n = o ↔ ReadsVector (cells text.toList) n o) ∧
    ∀ (text : String) (n : ℤ), (∃ xs, readVector text n = .ok xs) ↔
      ((cells text.toList).length : ℤ) = n ∧ ∀ c ∈ cells text.toList, ∃ x, readCell c = .ok x := by
  refine ⟨fun text o => ?_, fun text => ?_, fun text text' h => ?_, fun text n o =>
    readVector_eq_iff, fun text n => ?_⟩
  · rw [readMatrix_eq_readRows, readRows_eq_iff]
  · rw [readMatrix_eq_readRows, exists_readRows_eq_ok_iff]
    simp [forall_and]
  · rw [readMatrix_eq_readRows_table, h.table_eq, ← readMatrix_eq_readRows_table]
  · rw [readVector_eq]
    split
    next hn => rw [exists_readCells_eq_ok_iff, and_iff_right hn]
    next hn => simp [hn]

/-- Another line break and a blank line make no difference, and a row that is too short is
told although there is no number in the row before. -/
theorem tables_of_two_rows :
    Respaced "1,0\r\n \n0,1".toList "1,0\n0,1".toList ∧
    readMatrix "1,0\r\n \n0,1" = .ok [[1, 0], [0, 1]] ∧
    readMatrix "x,0\n1" = .error (.rowLength 2 1 2) := by
  obtain ⟨hmatrix, -, hrespaced, -⟩ := tables_read_by_place
  have hbreaks : Respaced "1,0\r\n \n0,1".toList "1,0\n0,1".toList :=
    Respaced.breaks (s := "\r\n \n".toList) (t := ['\n']) "1,0".toList "0,1".toList
      (List.all_eq_true.mp (by decide)) ⟨'\n', by decide, by decide⟩
      (List.all_eq_true.mp (by decide)) ⟨'\n', by decide, by decide⟩
  have hread : readMatrix "1,0\n0,1" = .ok [[1, 0], [0, 1]] := by decide +kernel
  have hrows : (fullLines "x,0\n1".toList).map cells = [[['x'], ['0']], [['1']]] := by
    decide +kernel
  have hsame := hrespaced "1,0\r\n \n0,1" "1,0\n0,1" hbreaks
  refine ⟨hbreaks, hsame.trans hread, (hmatrix "x,0\n1" _).mpr ?_⟩
  have hcut : [[['x'], ['0']], [['1']]] = [[['x'], ['0']]] ++ [['1']] :: [] := rfl
  rw [hrows]
  exact .wrongLength hcut (by simp) (by simp)

end Bellman.Numeral
