import Bellman.Proofs.Pattern.Decomposition
import Bellman.Proofs.Rule.Regularity

/-!
# Returns that the expansion leaves behind

A return is expanded where it is a word of its own, with no word character behind it. Of two
returns in a row the first is none: the second stands behind it. But the second gives way to
a series, which begins with a backslash, and then the first one is a word of its own. This is
the only way in which a return can be left: `leaves_return_iff`.
-/

namespace Bellman.Catalog

open Text Pattern

/-- A return that is a word of its own, directly behind another return. -/
def returnsInRow : Pattern :=
  .andThen (exactly Latex.presentReturn) returnPattern

theorem solid_returnsInRow : returnsInRow.Solid :=
  (solid_exactly (by decide)).andThen

theorem determined_returnPattern : returnPattern.Determined :=
  (determined_exactly _).andThen determined_wordEnd

theorem determined_returnsInRow : returnsInRow.Determined :=
  (determined_exactly _).andThen determined_returnPattern

variable {cs rest : List Char}

/-- A return is read where no word character stands behind it. -/
theorem isSome_read?_returnPattern : (returnPattern.read? cs).isSome ↔
    ∃ rest, cs = Latex.presentReturn.toList ++ rest ∧ rest.head?.any isWordChar = false := by
  constructor
  · intro h
    obtain ⟨m, rest, rfl, a, b, rfl, rfl, rfl, hrest⟩ := exists_matches_of_isSome h
    exact ⟨rest, by simp, hrest⟩
  · rintro ⟨rest, rfl, hrest⟩
    have hm : returnPattern.Matches Latex.presentReturn.toList rest :=
      ⟨_, [], by simp, rfl, rfl, hrest⟩
    rw [determined_returnPattern _ _ hm]
    rfl

/-- Two returns in a row are read where a return is read behind a return. -/
theorem isSome_read?_returnsInRow : (returnsInRow.read? cs).isSome ↔
    ∃ rest, cs = Latex.presentReturn.toList ++ rest ∧ (returnPattern.read? rest).isSome := by
  constructor
  · intro h
    obtain ⟨m, after, rfl, a, b, rfl, rfl, hb⟩ := exists_matches_of_isSome h
    refine ⟨b ++ after, by simp, ?_⟩
    rw [determined_returnPattern _ _ hb]
    rfl
  · rintro ⟨rest, rfl, h⟩
    obtain ⟨⟨m, after⟩, hread⟩ := Option.isSome_iff_exists.mp h
    rw [returnsInRow, read?_andThen (determined_exactly _ _ rest rfl) hread]
    rfl

namespace Substitution

/-- What is written for a return, and the text behind it, begins with no word character. -/
theorem head?_rewrite_series (cs : List Char) :
    (series.rewrite cs).head?.any isWordChar = false ↔
      cs.head?.any isWordChar = false ∨ (returnPattern.read? cs).isSome := by
  have backslash : isWordChar '\\' = false := by decide +kernel
  cases cs using series.solid.scan with
  | nil => simp [rewrite]
  | found m rest hm hmatches hread ih =>
      have hread' : returnPattern.read? (m ++ rest) = some (m, rest) := hread
      rw [rewrite, rewrite_append hm hread]
      simp only [hread', Option.isSome_some, or_true, iff_true]
      exact backslash
  | kept c cs hread ih =>
      have hread' : returnPattern.read? (c :: cs) = none := hread
      rw [rewrite, rewrite_cons hread]
      simp [hread']

/-- What is written for a return is no part of another one, so the end of a return that is not
expanded is kept and was there before. -/
theorem rewrite_series_eq_append : series.rewrite cs = "_t".toList ++ rest ↔
    ∃ rest', cs = "_t".toList ++ rest' ∧ rest = series.rewrite rest' := by
  constructor
  · intro h
    obtain hkept | ⟨kept, reached, m, hw, hne, hagree⟩ :=
      series.solid.cases_of_rewrite_eq_append h
    · exact hkept
    · obtain ⟨d, ds, rfl⟩ := List.exists_cons_of_ne_nil hne
      have hd : d = '\\' := hagree.head_eq
      have hmem : '\\' ∈ "_t".toList := by simp [hw, hd]
      exact absurd hmem (by decide)
  · rintro ⟨rest', rfl, rfl⟩
    have avoids : ∀ f ∈ series.pattern.forms, Avoids f (visible "_t".toList) := by decide
    exact series.solid.rewrite_append_of_avoids avoids series.replacement rest'

/-- Where no return is expanded, one is left exactly if a return is expanded right behind
it. -/
theorem isSome_read?_rewrite_series {c : Char} (hread : returnPattern.read? (c :: cs) = none) :
    (returnPattern.read? (c :: series.rewrite cs)).isSome =
      (returnsInRow.read? (c :: cs)).isSome := by
  have opened (x y : List Char) : c :: x = Latex.presentReturn.toList ++ y ↔
      c = 'G' ∧ x = "_t".toList ++ y := List.cons_eq_cons
  rw [Bool.eq_iff_iff, isSome_read?_returnPattern, isSome_read?_returnsInRow]
  simp only [opened]
  constructor
  · rintro ⟨rest, ⟨rfl, hcs⟩, hrest⟩
    obtain ⟨rest', rfl, rfl⟩ := rewrite_series_eq_append.mp hcs
    refine ⟨rest', ⟨rfl, rfl⟩, ((head?_rewrite_series rest').mp hrest).resolve_left fun hword => ?_⟩
    have hsome := isSome_read?_returnPattern.mpr ⟨rest', rfl, hword⟩
    change (returnPattern.read? ('G' :: ("_t".toList ++ rest'))).isSome at hsome
    rw [hread] at hsome
    cases hsome
  · rintro ⟨rest, ⟨rfl, rfl⟩, hrest⟩
    exact ⟨_, ⟨rfl, rewrite_series_eq_append.mpr ⟨rest, rfl, rfl⟩⟩,
      (head?_rewrite_series rest).mpr (.inr hrest)⟩

/-- A return that is a word of its own does not stand in front of another one. -/
theorem occursIn_returnsInRow_append (hrest : rest.head?.any isWordChar = false) :
    returnsInRow.occursIn (Latex.presentReturn.toList ++ rest) = returnsInRow.occursIn rest := by
  have letter : isWordChar 'G' = true := by decide +kernel
  have start : (returnsInRow.read? (Latex.presentReturn.toList ++ rest)).isSome = false := by
    rw [← Bool.not_eq_true, isSome_read?_returnsInRow]
    rintro ⟨rest', heq, hsome⟩
    obtain rfl := List.append_cancel_left heq
    obtain ⟨tail, rfl, -⟩ := isSome_read?_returnPattern.mp hsome
    exact Bool.false_ne_true (hrest.symm.trans letter)
  have avoids : ∀ f ∈ returnsInRow.forms, Avoids f (visible "_t".toList) := by decide
  change returnsInRow.occursIn ('G' :: ("_t".toList ++ rest)) = _
  rw [occursIn, solid_returnsInRow.occursIn_append_of_avoids avoids]
  exact congrArg (· || _) start

/-- Expanding the returns of a text leaves one behind exactly if there are two in a row. -/
theorem occursIn_rewrite_series (cs : List Char) :
    returnPattern.occursIn (series.rewrite cs) = returnsInRow.occursIn cs := by
  induction cs using series.solid.scan with
  | nil => rfl
  | found m rest hm hmatches hread ih =>
      obtain ⟨a, b, rfl, rfl, rfl, hrest⟩ := hmatches
      have avoids : ∀ f ∈ returnPattern.forms, Avoids f (visible Latex.returnSeries.toList) := by
        decide
      rw [rewrite, rewrite_append hm hread, List.append_nil, occursIn_returnsInRow_append hrest,
        ← ih]
      exact series.solid.occursIn_append_of_avoids avoids _
  | kept c cs hread ih =>
      rw [rewrite, rewrite_cons hread, occursIn, occursIn, ← ih]
      exact congrArg (· || _) (isSome_read?_rewrite_series hread)

end Substitution

/-- Of the returns of an expression only one that stands directly in front of another, and
that one a word of its own, is a word of its own in the expansion. -/
theorem leaves_return_iff {e out : String} (h : defReturn.transform e = .ok out) :
    returnPattern.Stands out.toList ↔ returnsInRow.Stands e.toList := by
  obtain ⟨-, rfl⟩ := Substitution.series.transform_eq_ok.mp h
  rw [String.toList_ofList, ← determined_returnPattern.occursIn_iff_stands,
    ← determined_returnsInRow.occursIn_iff_stands, ← Substitution.occursIn_rewrite_series]
  exact iff_of_eq (congrArg (· = true) (Substitution.series.regular.occursIn_normalize _))

/-- Three returns in a row: the last one is expanded, and the one before it is left. -/
theorem leaves_second_return :
    defReturn.transform "G_tG_tG_t" = .ok ("G_tG_t" ++ Latex.returnSeries) ∧
      returnPattern.Stands ("G_tG_t" ++ Latex.returnSeries).toList := by
  have hrun : defReturn.transform "G_tG_tG_t" = .ok ("G_tG_t" ++ Latex.returnSeries) := by decide
  have hrow : returnsInRow.Stands "G_tG_tG_t".toList :=
    determined_returnsInRow.occursIn_iff_stands.mp (by decide)
  exact ⟨hrun, (leaves_return_iff hrun).mpr hrow⟩

/-- The expansion of two returns in a row still has a return that is a word of its own. -/
theorem return_left_before_series :
    defReturn.transform "G_tG_t" =
        .ok "G_t\\sum_\x7bk=0\x7d^\x7b\\infty\x7d \\gamma^k R_\x7bt+1+k\x7d" ∧
      ∃ before after : List Char,
        "G_t\\sum_\x7bk=0\x7d^\x7b\\infty\x7d \\gamma^k R_\x7bt+1+k\x7d".toList =
          before ++ ("G_t".toList ++ after) ∧ after.head?.any isWordChar = false :=
  ⟨by decide, [], _, rfl, by decide +kernel⟩

end Bellman.Catalog
