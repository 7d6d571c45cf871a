import Bellman.Proofs.Text.Spacing
import Bellman.Text.WordChar

/-!
# Trimming and collapsing

Trimming takes blanks away at the ends and collapsing changes blanks only, so it makes no
difference which of the two comes first: `collapse_trim`. Blanks around a text do not show in
its normal spacing, and what begins with a word character does so whatever the spacing.
-/

namespace Bellman.Text

variable {a b cs : List Char}

theorem exists_eq_append_trimLeft (cs : List Char) :
    ∃ a, cs = a ++ trimLeft cs ∧ ∀ c ∈ a, isBlank c = true :=
  ⟨cs.takeWhile isBlank, List.takeWhile_append_dropWhile.symm, fun _ hc =>
    List.mem_takeWhile_imp hc⟩

theorem exists_eq_trimRight_append (cs : List Char) :
    ∃ b, cs = trimRight cs ++ b ∧ ∀ c ∈ b, isBlank c = true := by
  obtain ⟨a, ha, hblank⟩ := exists_eq_append_trimLeft cs.reverse
  refine ⟨a.reverse, ?_, by simpa using hblank⟩
  rw [trimRight, ← List.reverse_append, ← ha, List.reverse_reverse]

/-- A text is what trimming leaves of it, between blanks. -/
theorem exists_eq_trim (cs : List Char) : ∃ a b, cs = a ++ (trim cs ++ b) ∧
    (∀ c ∈ a, isBlank c = true) ∧ ∀ c ∈ b, isBlank c = true := by
  obtain ⟨a, ha, hleft⟩ := exists_eq_append_trimLeft cs
  obtain ⟨b, hb, hright⟩ := exists_eq_trimRight_append (trimLeft cs)
  refine ⟨a, b, ?_, hleft, hright⟩
  rw [trim, ← hb]
  exact ha

theorem head?_trimLeft (cs : List Char) : (trimLeft cs).head?.any isBlank = false := by
  induction cs with
  | nil => rfl
  | cons c cs ih =>
      by_cases hc : isBlank c = true
      · simpa [trimLeft, hc] using ih
      · simp [trimLeft, hc]

theorem getLast?_trimRight (cs : List Char) : (trimRight cs).getLast?.any isBlank = false := by
  rw [trimRight, List.getLast?_reverse, head?_trimLeft]

theorem trimLeft_of_head (h : cs.head?.any isBlank = false) : trimLeft cs = cs := by
  cases cs with
  | nil => rfl
  | cons c cs =>
      have hc : isBlank c = false := by simpa using h
      simp [trimLeft, hc]

theorem trimRight_of_last (h : cs.getLast?.any isBlank = false) : trimRight cs = cs := by
  rw [trimRight, trimLeft_of_head (by rwa [List.head?_reverse]), List.reverse_reverse]

theorem trimLeft_append_of_blank (ha : ∀ c ∈ a, isBlank c = true) (b : List Char) :
    trimLeft (a ++ b) = trimLeft b :=
  List.dropWhile_append_of_pos ha

theorem trimRight_append_of_blank (a : List Char) (hb : ∀ c ∈ b, isBlank c = true) :
    trimRight (a ++ b) = trimRight a := by
  rw [trimRight, List.reverse_append, trimLeft_append_of_blank (by simpa using hb), trimRight]

/-- Trimming takes away blanks around a text. -/
theorem trim_append_of_blank (ha : ∀ c ∈ a, isBlank c = true) (cs : List Char)
    (hb : ∀ c ∈ b, isBlank c = true) : trim (a ++ (cs ++ b)) = trim cs := by
  rw [trim, trim, trimLeft_append_of_blank ha, trimLeft, List.dropWhile_append]
  split
  · next hnil =>
      have hcs : trimLeft cs = [] := List.isEmpty_iff.mp hnil
      rw [List.dropWhile_eq_nil_iff.mpr hb, hcs]
  · exact trimRight_append_of_blank (trimLeft cs) hb

theorem trim_blank_cons {c : Char} (hc : isBlank c = true) (cs : List Char) :
    trim (c :: cs) = trim cs := by
  simpa using trim_append_of_blank (a := [c]) (b := []) (by simpa using hc) cs (by simp)

theorem trim_concat_blank {c : Char} (hc : isBlank c = true) (cs : List Char) :
    trim (cs ++ [c]) = trim cs :=
  trim_append_of_blank (a := []) (by simp) cs (by simpa using hc)

@[simp] theorem trim_trim (cs : List Char) : trim (trim cs) = trim cs := by
  obtain ⟨a, b, hcs, ha, hb⟩ := exists_eq_trim cs
  conv_rhs => rw [hcs, trim_append_of_blank ha _ hb]

theorem all_isBlank_trim (cs : List Char) : (trim cs).all isBlank = cs.all isBlank := by
  rw [Bool.eq_iff_iff, List.all_eq_true, List.all_eq_true, ← visible_eq_nil, ← visible_eq_nil,
    visible_trim]

/-- Trimming leaves nothing exactly of what is blank, as it does not end with a blank. -/
theorem isEmpty_trim (cs : List Char) : (trim cs).isEmpty = cs.all isBlank := by
  rw [← all_isBlank_trim]
  obtain h | ⟨front, c, h⟩ := List.eq_nil_or_concat (trim cs)
  · rw [h]
    rfl
  · have hc : isBlank c = false := by
      have hlast := getLast?_trimRight (trimLeft cs)
      rwa [← trim, h, List.concat_eq_append, List.getLast?_concat, Option.any_some] at hlast
    simp [h, hc]

/-- What ends with a visible character does not reach into blanks at the end. -/
theorem exists_append_of_append_blank {m rest : List Char} (hb : ∀ c ∈ b, isBlank c = true)
    (hm : m.getLast?.any (!isBlank ·) = true) (h : cs ++ b = m ++ rest) :
    ∃ tail, cs = m ++ tail ∧ rest = tail ++ b := by
  obtain ⟨extra, rfl, rfl⟩ | h := List.append_eq_append_iff.mp h
  · obtain rfl | ⟨ds, d, rfl⟩ := List.eq_nil_or_concat' extra
    · exact ⟨[], by simp, by simp⟩
    · have hd : isBlank d = true := hb d (by simp)
      simp [hd] at hm
  · exact h

theorem isBlank_of_mem_collapse (hb : ∀ c ∈ b, isBlank c = true) :
    ∀ c ∈ collapse b, isBlank c = true := by
  intro c hc
  obtain rfl | ⟨hmem, -⟩ := of_mem_collapse hc
  · exact isBlank_space
  · exact hb c hmem

theorem head?_collapse_isBlank (cs : List Char) :
    (collapse cs).head?.any isBlank = cs.head?.any isBlank := by
  cases cs with
  | nil => rfl
  | cons c cs =>
      rw [head?_collapse_cons]
      by_cases hc : isBlank c = true
      · simp [hc]
      · simp [hc]

theorem getLast?_collapse_of_last (h : cs.getLast?.any isBlank = false) :
    (collapse cs).getLast?.any isBlank = false := by
  obtain rfl | ⟨ds, d, rfl⟩ := List.eq_nil_or_concat' cs
  · rfl
  · have hd : isBlank d = false := by simpa using h
    rw [collapse_append_of_head (by simp [hd])]
    simp [collapse, hd]

theorem collapse_trimLeft (cs : List Char) : collapse (trimLeft cs) = trimLeft (collapse cs) := by
  obtain ⟨a, ha, hblank⟩ := exists_eq_append_trimLeft cs
  have hhead := head?_trimLeft cs
  have hkept : trimLeft (collapse (trimLeft cs)) = collapse (trimLeft cs) :=
    trimLeft_of_head (by rw [head?_collapse_isBlank, hhead])
  conv_rhs => rw [ha]
  rw [collapse_append_of_head hhead, trimLeft_append_of_blank (isBlank_of_mem_collapse hblank),
    hkept]

theorem collapse_trimRight (cs : List Char) :
    collapse (trimRight cs) = trimRight (collapse cs) := by
  obtain ⟨b, hb, hblank⟩ := exists_eq_trimRight_append cs
  have hlast := getLast?_trimRight cs
  conv_rhs => rw [hb]
  rw [collapse_append_of_last hlast,
    trimRight_append_of_blank _ (isBlank_of_mem_collapse hblank),
    trimRight_of_last (getLast?_collapse_of_last hlast)]

/-- Normal spacing can be given by trimming first. -/
theorem collapse_trim (cs : List Char) : collapse (trim cs) = normalize cs := by
  rw [trim, collapse_trimRight, collapse_trimLeft, normalize, trim]

/-- Blanks around a text do not show in its normal spacing. -/
theorem normalize_append_of_blank (ha : ∀ c ∈ a, isBlank c = true) (cs : List Char)
    (hb : ∀ c ∈ b, isBlank c = true) : normalize (a ++ (cs ++ b)) = normalize cs := by
  rw [← collapse_trim, trim_append_of_blank ha cs hb, collapse_trim]

theorem normalize_congr (h : collapse a = collapse b) : normalize a = normalize b := by
  rw [normalize, h, normalize]

/-- Collapsing goes through a text character by character. -/
theorem collapse_cons_congr (c : Char) (h : collapse a = collapse b) :
    collapse (c :: a) = collapse (c :: b) := by
  have hhead : a.head?.any isBlank = b.head?.any isBlank := by
    rw [← head?_collapse_isBlank, h, head?_collapse_isBlank]
  rw [collapse, collapse, hhead, h]

/-- It makes no difference which blank stands in a text. -/
theorem collapse_blank_cons {c : Char} (hc : isBlank c = true) (cs : List Char) :
    collapse (' ' :: cs) = collapse (c :: cs) := by
  rw [collapse, collapse, if_pos hc, if_pos isBlank_space]

theorem collapse_collapse_append (a b : List Char) :
    collapse (collapse a ++ b) = collapse (a ++ b) := by
  induction a with
  | nil => rfl
  | cons c a ih =>
      by_cases hc : isBlank c = true
      · by_cases hnext : a.head?.any isBlank = true
        · have hnext' : (a ++ b).head?.any isBlank = true := by
            cases a with
            | nil => cases hnext
            | cons d a => exact hnext
          rw [collapse, if_pos hc, if_pos hnext, ih, List.cons_append, collapse, if_pos hc,
            if_pos hnext']
        · rw [collapse, if_pos hc, if_neg hnext, List.cons_append, collapse_blank_cons hc]
          exact collapse_cons_congr c ih
      · rw [collapse, if_neg hc]
        exact collapse_cons_congr c ih

/-- Two texts can be collapsed on their own before they are joined. -/
theorem collapse_append_congr {a' b' : List Char} (ha : collapse a = collapse a')
    (hb : collapse b = collapse b') : collapse (a ++ b) = collapse (a' ++ b') := by
  have hright : collapse (a' ++ b) = collapse (a' ++ b') := by
    clear ha
    induction a' with
    | nil => exact hb
    | cons c a' ih => exact collapse_cons_congr c ih
  rw [← collapse_collapse_append a b, ha, collapse_collapse_append, hright]

/-- Blanks at the two ends of a text do not show in its normal spacing. -/
theorem normalize_trim_ends (a m b : List Char) :
    normalize (trimLeft a ++ (m ++ trimRight b)) = normalize (a ++ (m ++ b)) := by
  obtain ⟨x, hx, hleft⟩ := exists_eq_append_trimLeft a
  obtain ⟨y, hy, hright⟩ := exists_eq_trimRight_append b
  have hends : a ++ (m ++ b) = x ++ ((trimLeft a ++ (m ++ trimRight b)) ++ y) := by
    conv_lhs => rw [hx, hy]
    simp
  rw [hends, normalize_append_of_blank hleft _ hright]

/-- A text in normal spacing stays as it is. -/
@[simp] theorem normalize_normalize (cs : List Char) : normalize (normalize cs) = normalize cs := by
  obtain ⟨a, b, hcs, ha, hb⟩ := exists_eq_trim (collapse cs)
  calc normalize (normalize cs)
      = normalize (a ++ (normalize cs ++ b)) := (normalize_append_of_blank ha _ hb).symm
    _ = normalize (collapse cs) := congrArg normalize hcs.symm
    _ = normalize cs := normalize_congr (collapse_collapse cs)

theorem isWordChar_of_isBlank {c : Char} (h : isBlank c = true) : isWordChar c = false := by
  have hcodes : ∀ n ∈ blankCodes, isWordChar (Char.ofNat n) = false := by decide +kernel
  have hc := hcodes c.toNat (List.contains_iff_mem.mp h)
  rwa [Char.ofNat_toNat] at hc

theorem head?_isWordChar_of_blank (hb : ∀ c ∈ b, isBlank c = true) :
    b.head?.any isWordChar = false := by
  cases b with
  | nil => rfl
  | cons c b => simp [isWordChar_of_isBlank (hb c List.mem_cons_self)]

theorem head?_collapse_isWordChar (cs : List Char) :
    (collapse cs).head?.any isWordChar = cs.head?.any isWordChar := by
  cases cs with
  | nil => rfl
  | cons c cs =>
      rw [head?_collapse_cons]
      by_cases hc : isBlank c = true
      · simp [hc, isWordChar_of_isBlank hc, isWordChar_of_isBlank isBlank_space]
      · simp [hc]

end Bellman.Text
