import Bellman.Text.Blank
import Mathlib.Data.List.DropRight
import Mathlib.Data.List.Infix

/-!
# What normal spacing keeps

Normal spacing changes blanks only: the visible characters of a text stay as they are. And
it works from the outside: around a firm text, which begins and ends with a visible
character and has normal spacing inside, the text before and the text after are spaced on
their own.
-/

namespace Bellman.Text

variable {a b t cs : List Char}

/-- The characters of a text that are not blank. -/
def visible (cs : List Char) : List Char :=
  cs.filter (!isBlank ·)

@[simp] theorem visible_nil : visible [] = [] := rfl

theorem visible_cons (c : Char) (cs : List Char) :
    visible (c :: cs) = if isBlank c then visible cs else c :: visible cs := by
  by_cases hc : isBlank c = true
  · simp [visible, hc]
  · simp [visible, hc]

@[simp] theorem visible_append (a b : List Char) : visible (a ++ b) = visible a ++ visible b :=
  List.filter_append ..

@[simp] theorem mem_visible {c : Char} : c ∈ visible cs ↔ c ∈ cs ∧ isBlank c = false := by
  simp [visible]

theorem visible_eq_self (h : ∀ c ∈ cs, isBlank c = false) : visible cs = cs :=
  List.filter_eq_self.mpr (by simpa using h)

theorem visible_eq_nil : visible cs = [] ↔ ∀ c ∈ cs, isBlank c = true := by
  simp [visible]

@[simp] theorem visible_trimLeft (cs : List Char) : visible (trimLeft cs) = visible cs := by
  induction cs with
  | nil => rfl
  | cons c cs ih =>
      rw [trimLeft, List.dropWhile_cons]
      split
      · next hc =>
          rw [visible_cons, if_pos hc]
          exact ih
      · rfl

@[simp] theorem visible_trimRight (cs : List Char) : visible (trimRight cs) = visible cs := by
  have h : (visible (trimLeft cs.reverse)).reverse = (visible cs.reverse).reverse := by
    rw [visible_trimLeft]
  simpa [trimRight, visible, List.filter_reverse] using h

@[simp] theorem visible_trim (cs : List Char) : visible (trim cs) = visible cs := by
  simp [trim]

@[simp] theorem visible_collapse (cs : List Char) : visible (collapse cs) = visible cs := by
  induction cs with
  | nil => rfl
  | cons c cs ih =>
      rw [collapse, visible_cons]
      by_cases hc : isBlank c = true
      · rw [if_pos hc, if_pos hc]
        split
        · exact ih
        · rw [visible_cons, if_pos isBlank_space, ih]
      · rw [if_neg hc, if_neg hc, visible_cons, if_neg hc, ih]

@[simp] theorem visible_normalize (cs : List Char) : visible (normalize cs) = visible cs := by
  simp [normalize]

/-- Runs of blanks end where a visible character comes next. -/
theorem collapse_append_of_head (h : b.head?.any isBlank = false) :
    collapse (a ++ b) = collapse a ++ collapse b := by
  induction a with
  | nil => rfl
  | cons c a ih =>
      have hnext : (a ++ b).head?.any isBlank = a.head?.any isBlank := by
        cases a with
        | nil => exact h
        | cons d a => rfl
      rw [List.cons_append, collapse, collapse, hnext, ih]
      split
      · split <;> rfl
      · rfl

/-- Runs of blanks begin where a visible character stood before. -/
theorem collapse_append_of_last (h : a.getLast?.any isBlank = false) :
    collapse (a ++ b) = collapse a ++ collapse b := by
  induction a with
  | nil => rfl
  | cons c a ih =>
      cases a with
      | nil =>
          have hc : isBlank c = false := by simpa using h
          simp [collapse, hc]
      | cons d a =>
          rw [List.cons_append, collapse, collapse, ih (by simpa using h)]
          by_cases hc : isBlank c = true
          · by_cases hd : isBlank d = true
            · simp [hc, hd]
            · simp [hc, hd]
          · simp [hc]

/-- A character is dropped or leaves one character behind. -/
theorem collapse_cons_cases (c : Char) (cs : List Char) :
    collapse (c :: cs) = collapse cs ∨ ∃ d, collapse (c :: cs) = d :: collapse cs := by
  rw [collapse]
  split
  · split
    · exact .inl rfl
    · exact .inr ⟨' ', rfl⟩
  · exact .inr ⟨c, rfl⟩

/-- Collapsing keeps a text without blanks. -/
theorem collapse_append_of_visible (h : ∀ c ∈ a, isBlank c = false) (b : List Char) :
    collapse (a ++ b) = a ++ collapse b := by
  induction a with
  | nil => rfl
  | cons c a ih =>
      have hc : isBlank c = false := h c List.mem_cons_self
      rw [List.cons_append, collapse, if_neg (by simp [hc]),
        ih fun d hd => h d (List.mem_cons_of_mem c hd)]
      rfl

/-- The blanks of a collapsed text are spaces, and its other characters are old. -/
theorem of_mem_collapse {c : Char} (h : c ∈ collapse cs) :
    c = ' ' ∨ c ∈ cs ∧ isBlank c = false := by
  induction cs with
  | nil => cases h
  | cons d cs ih =>
      have later (hc : c ∈ collapse cs) : c = ' ' ∨ c ∈ d :: cs ∧ isBlank c = false :=
        (ih hc).imp_right fun ⟨hmem, hb⟩ => ⟨List.mem_cons_of_mem d hmem, hb⟩
      rw [collapse] at h
      split at h
      · split at h
        · exact later h
        · obtain rfl | hc := List.mem_cons.mp h
          · exact .inl rfl
          · exact later hc
      · next hd =>
          obtain rfl | hc := List.mem_cons.mp h
          · exact .inr ⟨List.mem_cons_self, by simpa using hd⟩
          · exact later hc

theorem length_collapse_le (cs : List Char) : (collapse cs).length ≤ cs.length := by
  induction cs with
  | nil => exact Nat.le_refl 0
  | cons c cs ih =>
      rw [collapse]
      split
      · split
        · exact Nat.le_succ_of_le ih
        · exact Nat.succ_le_succ ih
      · exact Nat.succ_le_succ ih

/-- A collapsed text begins like the text, or with a space for a blank. -/
theorem head?_collapse_cons (c : Char) (cs : List Char) :
    (collapse (c :: cs)).head? = some (if isBlank c then ' ' else c) := by
  induction cs generalizing c with
  | nil =>
      rw [collapse]
      split <;> rfl
  | cons d cs ih =>
      rw [collapse]
      by_cases hc : isBlank c = true
      · by_cases hd : isBlank d = true
        · simp [hc, hd, ih]
        · simp [hc, hd]
      · simp [hc]

/-- Collapsing a second time changes nothing. -/
@[simp] theorem collapse_collapse (cs : List Char) : collapse (collapse cs) = collapse cs := by
  induction cs with
  | nil => rfl
  | cons c cs ih =>
      rw [collapse]
      split
      · split
        · exact ih
        · next hnext =>
            have hhead : (collapse cs).head?.any isBlank = false := by
              cases cs with
              | nil => rfl
              | cons d cs =>
                  have hd : isBlank d = false := by simpa using hnext
                  simp [head?_collapse_cons, hd]
            rw [collapse, if_pos isBlank_space, if_neg (by simp [hhead]), ih]
      · next hc => rw [collapse, if_neg hc, ih]

/-- What collapsing keeps as it is, it keeps in every piece. -/
theorem collapse_eq_self_of_append (h : collapse (a ++ b) = a ++ b) :
    collapse a = a ∧ collapse b = b := by
  induction a with
  | nil => exact ⟨rfl, h⟩
  | cons c a ih =>
      rw [List.cons_append, collapse] at h
      rw [collapse]
      split at h
      · next hc =>
          rw [if_pos hc]
          split at h
          · -- The collapsed rest would be longer than the rest.
            have hlength := length_collapse_le (a ++ b)
            rw [h, List.length_cons] at hlength
            omega
          · next hnext =>
              obtain ⟨rfl, hrest⟩ := List.cons.inj h
              obtain ⟨ha, hb⟩ := ih hrest
              refine ⟨?_, hb⟩
              cases a with
              | nil => rfl
              | cons d a =>
                  rw [if_neg (by simpa using hnext), ha]
      · next hc =>
          obtain ⟨-, hrest⟩ := List.cons.inj h
          obtain ⟨ha, hb⟩ := ih hrest
          rw [if_neg hc, ha]
          exact ⟨rfl, hb⟩

/-- A text that normal spacing keeps wherever it stands. -/
structure Firm (t : List Char) : Prop where
  first : t.head?.any (!isBlank ·) = true
  last : t.getLast?.any (!isBlank ·) = true
  collapsed : collapse t = t

instance (t : List Char) : Decidable (Firm t) :=
  decidable_of_iff
    (t.head?.any (!isBlank ·) = true ∧ t.getLast?.any (!isBlank ·) = true ∧ collapse t = t)
    ⟨fun ⟨first, last, collapsed⟩ => ⟨first, last, collapsed⟩,
      fun ⟨first, last, collapsed⟩ => ⟨first, last, collapsed⟩⟩

/-- Normal spacing of a text that something visible follows. -/
def normalizeBefore (a : List Char) : List Char :=
  trimLeft (collapse a)

/-- Normal spacing of a text that follows something visible. -/
def normalizeAfter (b : List Char) : List Char :=
  trimRight (collapse b)

theorem Firm.exists_eq_cons (firm : Firm t) : ∃ c cs, t = c :: cs ∧ isBlank c = false := by
  cases t with
  | nil => cases firm.first
  | cons c cs => exact ⟨c, cs, rfl, by simpa using firm.first⟩

theorem Firm.exists_eq_concat (firm : Firm t) : ∃ cs c, t = cs ++ [c] ∧ isBlank c = false := by
  obtain rfl | ⟨cs, c, rfl⟩ := List.eq_nil_or_concat' t
  · cases firm.last
  · exact ⟨cs, c, rfl, by simpa using firm.last⟩

theorem collapse_around (firm : Firm t) (a b : List Char) :
    collapse (a ++ (t ++ b)) = collapse a ++ (t ++ collapse b) := by
  obtain ⟨c, cs, ht, hc⟩ := firm.exists_eq_cons
  obtain ⟨ds, d, ht', hd⟩ := firm.exists_eq_concat
  rw [collapse_append_of_head (by simp [ht, hc]), collapse_append_of_last (by simp [ht', hd]),
    firm.collapsed]

theorem trimLeft_around (firm : Firm t) (a b : List Char) :
    trimLeft (a ++ (t ++ b)) = trimLeft a ++ (t ++ b) := by
  obtain ⟨c, cs, rfl, hc⟩ := firm.exists_eq_cons
  induction a with
  | nil => simp [trimLeft, hc]
  | cons d a ih =>
      rw [List.cons_append, trimLeft, trimLeft, List.dropWhile_cons, List.dropWhile_cons]
      split
      · exact ih
      · rfl

theorem trimRight_around (firm : Firm t) (a b : List Char) :
    trimRight (a ++ (t ++ b)) = a ++ (t ++ trimRight b) := by
  -- Backwards, the last character of the firm text is the one at which trimming stops.
  obtain ⟨cs, c, rfl, hc⟩ := firm.exists_eq_concat
  have single : Firm [c] := ⟨by simp [hc], by simp [hc], by simp [collapse, hc]⟩
  have hdrop : trimLeft (b.reverse ++ (c :: (cs.reverse ++ a.reverse))) =
      trimLeft b.reverse ++ (c :: (cs.reverse ++ a.reverse)) :=
    trimLeft_around single b.reverse (cs.reverse ++ a.reverse)
  simp [trimRight, hdrop]

theorem Firm.collapse_append (firm : Firm t) (b : List Char) :
    collapse (t ++ b) = t ++ collapse b :=
  collapse_around firm [] b

theorem Firm.trimRight_append (firm : Firm t) (b : List Char) :
    trimRight (t ++ b) = t ++ trimRight b :=
  trimRight_around firm [] b

/-- Normal spacing leaves a firm text in its place. -/
theorem normalize_around (firm : Firm t) (a b : List Char) :
    normalize (a ++ (t ++ b)) = normalizeBefore a ++ (t ++ normalizeAfter b) := by
  rw [normalize, trim, collapse_around firm, trimLeft_around firm, trimRight_around firm]
  rfl

/-- Where nothing is visible nothing is left. -/
theorem normalizeBefore_eq_nil : normalizeBefore a = [] ↔ ∀ c ∈ a, isBlank c = true := by
  constructor
  · intro h
    have hvisible : visible (normalizeBefore a) = visible a := by simp [normalizeBefore]
    rw [h] at hvisible
    exact visible_eq_nil.mp hvisible.symm
  · intro h
    refine List.dropWhile_eq_nil_iff.mpr fun c hc => ?_
    obtain rfl | ⟨hmem, -⟩ := of_mem_collapse hc
    · exact isBlank_space
    · exact h c hmem

theorem normalizeAfter_eq_nil : normalizeAfter b = [] ↔ ∀ c ∈ b, isBlank c = true := by
  constructor
  · intro h
    have hvisible : visible (normalizeAfter b) = visible b := by simp [normalizeAfter]
    rw [h] at hvisible
    exact visible_eq_nil.mp hvisible.symm
  · intro h
    refine List.rdropWhile_eq_nil_iff.mpr fun c hc => ?_
    obtain rfl | ⟨hmem, -⟩ := of_mem_collapse hc
    · exact isBlank_space
    · exact h c hmem

@[simp] theorem normalizeBefore_idem (a : List Char) :
    normalizeBefore (normalizeBefore a) = normalizeBefore a := by
  obtain ⟨xs, hxs⟩ := List.dropWhile_suffix (l := collapse a) isBlank
  have hcollapse : collapse (trimLeft (collapse a)) = trimLeft (collapse a) :=
    (collapse_eq_self_of_append (a := xs) (by rw [trimLeft, hxs, collapse_collapse])).2
  rw [normalizeBefore, normalizeBefore, hcollapse, trimLeft, trimLeft,
    List.dropWhile_idempotent]

@[simp] theorem normalizeAfter_idem (b : List Char) :
    normalizeAfter (normalizeAfter b) = normalizeAfter b := by
  obtain ⟨ys, hys⟩ := List.rdropWhile_prefix isBlank (collapse b)
  have hcollapse : collapse (trimRight (collapse b)) = trimRight (collapse b) :=
    (collapse_eq_self_of_append (b := ys) (by
      change collapse (List.rdropWhile isBlank (collapse b) ++ ys) = List.rdropWhile _ _ ++ ys
      rw [hys, collapse_collapse])).1
  rw [normalizeAfter, normalizeAfter, hcollapse]
  exact List.rdropWhile_idempotent isBlank (collapse b)

end Bellman.Text
