import Bellman.Proofs.Text.Trimming
import Bellman.Text.Lines
import Mathlib.Data.List.Induction

/-!
# Lines, cells and the blanks around them

The table of a text holds the cells of its lines, each without the blanks around it, and
leaves blank lines out. It is put together from the tables of parts wherever a line break
stands, so it does not show which breaks there are, how many blank lines stand between them,
or which blanks stand around a cell: `Respaced.table_eq`.
-/

namespace Bellman.Text

variable {c : Char} {a b cs bs s t : List Char}

theorem cells_cons {l : List Char} {ls : List (List Char)} (hc : c ≠ ',') (h : cells cs = l :: ls) :
    cells (c :: cs) = (c :: l) :: ls := by
  simp [cells, hc, h]

/-- What comes after a text and holds no comma stands in its last cell. -/
theorem cells_append {front : List (List Char)} {last : List Char}
    (h : cells cs = front ++ [last]) (hbs : ',' ∉ bs) :
    cells (cs ++ bs) = front ++ [last ++ bs] := by
  induction cs generalizing front last with
  | nil =>
      obtain ⟨rfl, rfl⟩ : front = [] ∧ last = [] := by
        cases front <;> simp_all [cells]
      induction bs with
      | nil => rfl
      | cons b bs ih =>
          simp only [List.mem_cons, not_or] at hbs
          exact cells_cons (Ne.symm hbs.1) (ih hbs.2)
  | cons c cs ih =>
      obtain ⟨l, ls, hcs⟩ := List.exists_cons_of_ne_nil (cells_ne_nil cs)
      by_cases hc : c = ','
      · subst hc
        cases front with
        | nil => simp [cells, hcs] at h
        | cons first front =>
            simp only [cells, if_pos, List.cons_append, List.cons.injEq] at h ⊢
            exact ⟨h.1, ih h.2⟩
      · rw [cells_cons hc hcs] at h
        cases front with
        | nil =>
            simp only [List.nil_append, List.cons.injEq] at h
            obtain ⟨rfl, rfl⟩ := h
            have hrest : cells (cs ++ bs) = [] ++ [l ++ bs] := ih hcs
            exact cells_cons hc hrest
        | cons first front =>
            simp only [List.cons_append, List.cons.injEq] at h
            obtain ⟨rfl, rfl⟩ := h
            have hrest : cells (cs ++ bs) = l :: front ++ [last ++ bs] := ih hcs
            exact cells_cons hc hrest

/-- Blanks at the ends of a text are blanks at the ends of its cells. -/
theorem map_trim_cells_trim (cs : List Char) :
    (cells (trim cs)).map trim = (cells cs).map trim := by
  have hcomma {c : Char} (hc : isBlank c = true) : c ≠ ',' := by rintro rfl; cases hc
  have hleft (cs : List Char) : (cells (trimLeft cs)).map trim = (cells cs).map trim := by
    induction cs with
    | nil => rfl
    | cons c cs ih =>
        by_cases hc : isBlank c = true
        · obtain ⟨l, ls, hcs⟩ := List.exists_cons_of_ne_nil (cells_ne_nil cs)
          rw [trimLeft, List.dropWhile_cons_of_pos hc, cells_cons (hcomma hc) hcs, List.map_cons,
            trim_blank_cons hc, ← List.map_cons, ← hcs]
          exact ih
        · rw [trimLeft, List.dropWhile_cons_of_neg hc]
  have hright (cs : List Char) : (cells (trimRight cs)).map trim = (cells cs).map trim := by
    induction cs using List.reverseRecOn with
    | nil => rfl
    | append_singleton cs c ih =>
        by_cases hc : isBlank c = true
        · have hfront := List.dropLast_append_getLast (cells_ne_nil cs)
          have hne : ',' ∉ [c] := by simpa using (hcomma hc).symm
          have hcs := cells_append hfront.symm hne
          have htrim : trimRight (cs ++ [c]) = trimRight cs := by simp [trimRight, trimLeft, hc]
          rw [htrim, hcs, ih, List.map_append, List.map_singleton, trim_concat_blank hc]
          nth_rewrite 1 [← hfront]
          simp
        · simp [trimRight, trimLeft, hc]
  rw [trim, hright, hleft]

/-- A comma separates the cells of what stands before it from those of what stands behind. -/
theorem cells_append_comma (a b : List Char) : cells (a ++ ',' :: b) = cells a ++ cells b := by
  induction a with
  | nil => simp [cells]
  | cons c a ih =>
      by_cases hc : c = ','
      · simp [cells, hc, ih]
      · obtain ⟨l, ls, ha⟩ := List.exists_cons_of_ne_nil (cells_ne_nil a)
        rw [ha] at ih
        rw [cells_cons hc ha]
        exact cells_cons hc ih

/-- The cells of a line, without the blanks around them. -/
def row (l : List Char) : List (List Char) :=
  (cells l).map trim

theorem row_congr (h : trim a = trim b) : row a = row b := by
  rw [row, row, ← map_trim_cells_trim, h, map_trim_cells_trim]

theorem row_append_comma (a b : List Char) : row (a ++ ',' :: b) = row a ++ row b := by
  rw [row, cells_append_comma, List.map_append]
  rfl

/-- A text without line breaks. -/
def OneLine (l : List Char) : Prop :=
  ∀ c ∈ l, isLineBreak c = false

theorem OneLine.nil : OneLine [] := by
  intro c hc
  cases hc

theorem OneLine.append (ha : OneLine a) (hb : OneLine b) : OneLine (a ++ b) := by
  intro c hc
  obtain hc | hc := List.mem_append.mp hc
  · exact ha c hc
  · exact hb c hc

/-- A text is one line or has a first one. -/
theorem oneLine_or_first (cs : List Char) : OneLine cs ∨
    ∃ l k rest, cs = l ++ k :: rest ∧ OneLine l ∧ isLineBreak k = true := by
  induction cs with
  | nil => exact .inl .nil
  | cons c cs ih =>
      by_cases hc : isLineBreak c = true
      · exact .inr ⟨[], c, cs, rfl, .nil, hc⟩
      · have one (l : List Char) (hl : OneLine l) : OneLine (c :: l) :=
          List.forall_mem_cons.mpr ⟨by simpa using hc, hl⟩
        obtain hcs | ⟨l, k, rest, rfl, hl, hk⟩ := ih
        · exact .inl (one cs hcs)
        · exact .inr ⟨c :: l, k, rest, rfl, one l hl, hk⟩

/-- A text is one line or has a last one. -/
theorem oneLine_or_last (cs : List Char) : OneLine cs ∨
    ∃ rest k l, cs = rest ++ k :: l ∧ isLineBreak k = true ∧ OneLine l := by
  obtain h | ⟨l, k, rest, hcs, hl, hk⟩ := oneLine_or_first cs.reverse
  · exact .inl fun c hc => h c (List.mem_reverse.mpr hc)
  · refine .inr ⟨rest.reverse, k, l.reverse, ?_, hk, fun c hc => hl c (List.mem_reverse.mp hc)⟩
    rw [← cs.reverse_reverse, hcs]
    simp

theorem lines_cons (hc : isLineBreak c = false) (cs : List Char) :
    lines (c :: cs) = (lines cs).head?.elim [[c]] fun l => (c :: l) :: (lines cs).tail := by
  have hne : c ≠ '\r' := by
    rintro rfl
    cases hc
  rw [lines, if_neg (by simp [hc])]
  · cases lines cs <;> rfl
  · rintro cs' rfl -
    exact hne rfl

theorem lines_break {k : Char} (hk : isLineBreak k = true)
    (h : ¬ (k = '\r' ∧ cs.head? = some '\n')) : lines (k :: cs) = [] :: lines cs := by
  rw [lines, if_pos hk]
  rintro rest rfl rfl
  exact h ⟨rfl, rfl⟩

/-- A text without breaks is its only line, unless there is nothing in it. -/
theorem lines_of_oneLine (h : OneLine (c :: cs)) : lines (c :: cs) = [c :: cs] := by
  obtain ⟨hc, hcs⟩ := List.forall_mem_cons.mp h
  induction cs generalizing c with
  | nil => rw [lines_cons hc]; rfl
  | cons d cs ih =>
      obtain ⟨hd, hcs'⟩ := List.forall_mem_cons.mp hcs
      rw [lines_cons hc, ih hcs hd hcs']
      rfl

/-- The lines of a text that are not blank. -/
def fullLines (cs : List Char) : List (List Char) :=
  (lines cs).filter fun l => !l.all isBlank

theorem fullLines_of_oneLine (h : OneLine cs) :
    fullLines cs = [cs].filter fun l => !l.all isBlank := by
  cases cs with
  | nil => rfl
  | cons c cs => rw [fullLines, lines_of_oneLine h]

/-- A break makes no line that is not blank. A line feed behind a carriage return belongs to
the same break, and would not make one either. -/
theorem fullLines_break {k : Char} (hk : isLineBreak k = true) (cs : List Char) :
    fullLines (k :: cs) = fullLines cs := by
  by_cases h : k = '\r' ∧ cs.head? = some '\n'
  · obtain ⟨rfl, hcs⟩ := h
    obtain ⟨rest, rfl⟩ := List.head?_eq_some_iff.mp hcs
    have hfeed : lines ('\n' :: rest) = [] :: lines rest := lines_break (by decide) (by simp)
    rw [fullLines, fullLines, hfeed]
    rfl
  · rw [fullLines, lines_break hk h]
    rfl

/-- The first line is kept as it is, and the others are those of the rest. -/
theorem fullLines_oneLine_append {k : Char} (ha : OneLine a) (hk : isLineBreak k = true)
    (b : List Char) : fullLines (a ++ k :: b) = fullLines a ++ fullLines b := by
  have hlines : ∃ ls, lines (a ++ k :: b) = a :: ls ∧
      (ls.filter fun l => !l.all isBlank) = fullLines b := by
    induction a with
    | nil =>
        by_cases h : k = '\r' ∧ b.head? = some '\n'
        · obtain ⟨rfl, hb⟩ := h
          obtain ⟨rest, rfl⟩ := List.head?_eq_some_iff.mp hb
          exact ⟨lines rest, rfl, (fullLines_break (by decide) rest).symm⟩
        · exact ⟨lines b, lines_break hk h, rfl⟩
    | cons c a ih =>
        obtain ⟨hc, ha⟩ := List.forall_mem_cons.mp ha
        obtain ⟨ls, hls, hb⟩ := ih ha
        exact ⟨ls, by rw [List.cons_append, lines_cons hc, hls]; rfl, hb⟩
  obtain ⟨ls, hls, hb⟩ := hlines
  rw [fullLines, hls, fullLines_of_oneLine ha, ← hb, ← List.filter_append]
  rfl

/-- A break separates the lines of what stands before it from those of what stands behind. -/
theorem fullLines_append_break {k : Char} (hk : isLineBreak k = true) (a b : List Char) :
    fullLines (a ++ k :: b) = fullLines a ++ fullLines b := by
  induction h : a.length using Nat.strong_induction_on generalizing a with
  | h n ih =>
      obtain ha | ⟨l, k', rest, rfl, hl, hk'⟩ := oneLine_or_first a
      · exact fullLines_oneLine_append ha hk b
      · have hrest := ih rest.length (by simp [← h]; omega) rest rfl
        rw [List.append_assoc, List.cons_append, fullLines_oneLine_append hl hk',
          fullLines_oneLine_append hl hk', hrest, List.append_assoc]

/-- The cells of a text: line by line, without blank lines and without the blanks around a
cell. -/
def table (cs : List Char) : List (List (List Char)) :=
  (fullLines cs).map row

theorem table_append_break {k : Char} (hk : isLineBreak k = true) (a b : List Char) :
    table (a ++ k :: b) = table a ++ table b := by
  rw [table, fullLines_append_break hk, List.map_append]
  rfl

/-- A line that is the same up to the blanks at its ends has the same place in a table. -/
theorem table_congr_oneLine (ha : OneLine a) (hb : OneLine b) (h : trim a = trim b) :
    table a = table b := by
  have hblank : a.all isBlank = b.all isBlank := by rw [← all_isBlank_trim, h, all_isBlank_trim]
  rw [table, table, fullLines_of_oneLine ha, fullLines_of_oneLine hb, List.filter_cons,
    List.filter_cons, hblank]
  split
  · simp [row_congr h]
  · rfl

/-- The start of a text may be changed within its first line. -/
theorem table_append_congr (h : ∀ l, OneLine l → table (a ++ l) = table (b ++ l))
    (cs : List Char) : table (a ++ cs) = table (b ++ cs) := by
  obtain hcs | ⟨l, k, rest, rfl, hl, hk⟩ := oneLine_or_first cs
  · exact h cs hcs
  · rw [← List.append_assoc, ← List.append_assoc, table_append_break hk, table_append_break hk,
      h l hl]

theorem table_blank_append (hs : ∀ c ∈ s, isBlank c = true) (cs : List Char) :
    table (s ++ cs) = table cs := by
  induction s with
  | nil => rfl
  | cons c s ih =>
      obtain ⟨hc, hs⟩ := List.forall_mem_cons.mp hs
      rw [List.cons_append, ← ih hs]
      by_cases hk : isLineBreak c = true
      · exact table_append_break hk [] (s ++ cs)
      · have one : OneLine [c] := by simpa [OneLine] using hk
        exact table_append_congr (a := [c]) (b := []) (fun l hl =>
          table_congr_oneLine (one.append hl) hl (trim_blank_cons hc l)) (s ++ cs)

theorem table_append_blank (cs : List Char) (hs : ∀ c ∈ s, isBlank c = true) :
    table (cs ++ s) = table cs := by
  induction s generalizing cs with
  | nil => rw [List.append_nil]
  | cons c s ih =>
      obtain ⟨hc, hs⟩ := List.forall_mem_cons.mp hs
      have hfirst : table (cs ++ [c]) = table cs := by
        by_cases hk : isLineBreak c = true
        · rw [table_append_break hk]
          exact List.append_nil _
        · have last (l : List Char) (hl : OneLine l) : table (l ++ [c]) = table l :=
            table_congr_oneLine (hl.append (by simpa [OneLine] using hk)) hl
              (trim_concat_blank hc l)
          obtain hcs | ⟨rest, k, l, rfl, hk', hl⟩ := oneLine_or_last cs
          · exact last cs hcs
          · rw [List.append_assoc, List.cons_append, table_append_break hk', table_append_break hk',
              last l hl]
      rw [← List.singleton_append, ← List.append_assoc, ih (cs ++ [c]) hs, hfirst]

theorem table_trim (cs : List Char) : table (trim cs) = table cs := by
  obtain ⟨s, t, hcs, hs, ht⟩ := exists_eq_trim cs
  nth_rewrite 2 [hcs]
  rw [table_blank_append hs, table_append_blank (trim cs) ht]

/-- Blanks with a line break among them separate what stands before them from what stands
behind, however many breaks there are and of whatever kind. -/
theorem table_append_breaks (hs : ∀ c ∈ s, isBlank c = true) (hk : ∃ k ∈ s, isLineBreak k = true)
    (a b : List Char) : table (a ++ (s ++ b)) = table a ++ table b := by
  obtain ⟨k, hmem, hk⟩ := hk
  obtain ⟨s₁, s₂, rfl⟩ := List.append_of_mem hmem
  simp only [List.forall_mem_append, List.forall_mem_cons] at hs
  have hjoined : a ++ (s₁ ++ k :: s₂ ++ b) = (a ++ s₁) ++ k :: (s₂ ++ b) := by simp
  rw [hjoined, table_append_break hk, table_append_blank a hs.1, table_blank_append hs.2.2]

/-- A line with a comma in it is not blank. -/
theorem table_of_comma (h : OneLine cs) (hcomma : ',' ∈ cs) : table cs = [row cs] := by
  have hvisible : cs.all isBlank = false := List.all_eq_false.mpr ⟨',', hcomma, by decide⟩
  simp [table, fullLines_of_oneLine h, hvisible]

/-- Blanks around a comma that are no line breaks belong to no cell. -/
theorem table_around_comma (hs : ∀ c ∈ s, isBlank c = true) (ht : ∀ c ∈ t, isBlank c = true)
    (hs' : OneLine s) (ht' : OneLine t) (a b : List Char) :
    table (a ++ (s ++ ',' :: (t ++ b))) = table (a ++ ',' :: b) := by
  have comma : OneLine [','] := by simp [OneLine, isLineBreak]
  have first (l : List Char) (hl : OneLine l) :
      table (l ++ (s ++ ',' :: (t ++ b))) = table (l ++ ',' :: b) := by
    have hline (r : List Char) (hr : OneLine r) :
        table ((l ++ (s ++ ',' :: t)) ++ r) = table ((l ++ [',']) ++ r) := by
      have hleft : trim (l ++ s) = trim l := trim_append_of_blank (a := []) (by simp) l hs
      have hright : trim (t ++ r) = trim r := by
        simpa using trim_append_of_blank ht r (b := []) (by simp)
      have one : OneLine ((l ++ (s ++ ',' :: t)) ++ r) :=
        (hl.append (hs'.append (comma.append ht'))).append hr
      rw [table_of_comma one (by simp), table_of_comma ((hl.append comma).append hr) (by simp)]
      have hlong : (l ++ (s ++ ',' :: t)) ++ r = (l ++ s) ++ ',' :: (t ++ r) := by simp
      rw [hlong, row_append_comma, row_congr hleft, row_congr hright, ← row_append_comma]
      simp
    simpa using table_append_congr hline b
  obtain ha | ⟨rest, k, l, rfl, hk, hl⟩ := oneLine_or_last a
  · exact first a ha
  · rw [List.append_assoc, List.append_assoc, List.cons_append, List.cons_append,
      table_append_break hk, table_append_break hk, first l hl]

/-- Two texts that differ only in blanks which separate nothing. -/
inductive Respaced : List Char → List Char → Prop where
  /-- Blanks and blank lines at the two ends. -/
  | ends {s t cs : List Char} : (∀ c ∈ s, isBlank c = true) →
      (∀ c ∈ t, isBlank c = true) → Respaced (s ++ (cs ++ t)) cs
  /-- Other line breaks between two lines, and other blank lines. -/
  | breaks {s t : List Char} (a b : List Char) : (∀ c ∈ s, isBlank c = true) →
      (∃ k ∈ s, isLineBreak k = true) → (∀ c ∈ t, isBlank c = true) →
      (∃ k ∈ t, isLineBreak k = true) → Respaced (a ++ (s ++ b)) (a ++ (t ++ b))
  /-- Blanks around a comma. -/
  | comma {s t : List Char} (a b : List Char) : (∀ c ∈ s, isBlank c = true) → OneLine s →
      (∀ c ∈ t, isBlank c = true) → OneLine t →
      Respaced (a ++ (s ++ ',' :: (t ++ b))) (a ++ ',' :: b)

/-- A table does not show blanks that separate nothing. -/
theorem Respaced.table_eq (h : Respaced a b) : table a = table b := by
  cases h with
  | ends hs ht => rw [table_blank_append hs, table_append_blank b ht]
  | breaks a b hs hk ht hk' => rw [table_append_breaks hs hk, table_append_breaks ht hk']
  | comma a b hs hs' ht ht' => exact table_around_comma hs ht hs' ht' a b

end Bellman.Text
