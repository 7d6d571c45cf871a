import Bellman.Proofs.Rule.Substitution

/-!
# How an expectation is split

`linearity` cuts a text at the first opening of an expectation, at the first bar behind it
and at the first bracket behind that, whatever these belong to. What it gives is made of the
parts, the condition twice.
-/

namespace Bellman.Catalog

open Text Pattern

variable {e out before inside condition after summand : List Char}

/-- The parts of an expression around its first expectation, and the summand that is split
off. -/
structure SplitAs (e before inside condition after summand : List Char) : Prop where
  opening : splitAt? Latex.expectation.toList e =
    some (before, inside ++ (Latex.bar.toList ++ (condition ++ ("]".toList ++ after))))
  bar : splitAt? Latex.bar.toList
      (inside ++ (Latex.bar.toList ++ (condition ++ ("]".toList ++ after)))) =
    some (inside, condition ++ ("]".toList ++ after))
  closing : splitAt? "]".toList (condition ++ ("]".toList ++ after)) = some (condition, after)
  discounted : discounted? (trim inside) = some summand

/-- What is written for the first expectation. -/
def splitText (condition summand : List Char) : List Char :=
  expect Latex.nextReward.toList (trim condition) ++
    (" + " ++ Latex.discount ++ Latex.thin).toList ++ expect summand (trim condition)

/-- An expectation is split into the parts that it is cut into. -/
theorem exists_splitAs (h : splitExpectation e = .ok out) :
    ∃ before inside condition after summand,
      SplitAs e before inside condition after summand ∧
        out = before ++ (splitText condition summand ++ after) := by
  unfold splitExpectation at h
  split at h
  next => cases h
  next before inner hopen =>
    split at h
    next => cases h
    next inside conditioned hbar =>
      split at h
      next => cases h
      next condition after hclose =>
        split at h
        next => cases h
        next summand hsummand =>
          obtain rfl := append_of_splitAt? hbar
          obtain rfl := append_of_splitAt? hclose
          refine ⟨before, inside, condition, after, summand, ⟨hopen, hbar, hclose, hsummand⟩, ?_⟩
          rw [← Except.ok.inj h]
          simp [splitText]

/-- What is written begins with the expected reward and its condition. -/
theorem exists_splitText_eq (condition summand : List Char) :
    ∃ rest, splitText condition summand = Latex.expectation.toList ++ (Latex.nextReward.toList ++
      (Latex.bar.toList ++ (" ".toList ++ (trim condition ++ ("]".toList ++ rest))))) :=
  ⟨(" + " ++ Latex.discount ++ Latex.thin).toList ++ expect summand (trim condition), by
    simp [splitText, expect]⟩

theorem SplitAs.splitExpectation_eq (h : SplitAs e before inside condition after summand) :
    splitExpectation e = .ok (before ++ (splitText condition summand ++ after)) := by
  unfold splitExpectation
  simp only [h.opening, h.bar, h.closing, h.discounted, splitText, List.append_assoc]

/-- The parts make up the expression. -/
theorem SplitAs.eq (h : SplitAs e before inside condition after summand) :
    e = before ++ (Latex.expectation.toList ++ (inside ++ (Latex.bar.toList ++
      (condition ++ ("]".toList ++ after))))) :=
  append_of_splitAt? h.opening

/-- No bracket closes inside the condition. -/
theorem SplitAs.closing_not_mem (h : SplitAs e before inside condition after summand) :
    ']' ∉ condition :=
  (splitAt?_singleton.mp h.closing).2

/-- Up to spacing the inside is the reward, the discount and the summand, with a thin space
before the summand or none. -/
theorem SplitAs.visible_inside (h : SplitAs e before inside condition after summand) :
    ∃ space ∈ [[], Latex.thin.toList], visible inside =
      (Latex.nextReward ++ "+" ++ Latex.discount).toList ++ (space ++ visible summand) := by
  have hread := h.discounted
  unfold discounted? at hread
  split at hread
  next => cases hread
  next sum rest hsum =>
    have hforms : visible sum = (Latex.nextReward ++ "+" ++ Latex.discount).toList :=
      List.mem_singleton.mp (visible_mem_forms (matches_of_read? hsum))
    have hinside : visible inside = visible sum ++ visible rest := by
      rw [← visible_append, ← append_of_read? hsum, visible_trim]
    rw [hinside, hforms]
    have whole : summand = trim rest → ∃ space ∈ [[], Latex.thin.toList],
        (Latex.nextReward ++ "+" ++ Latex.discount).toList ++ visible rest =
          (Latex.nextReward ++ "+" ++ Latex.discount).toList ++ (space ++ visible summand) := by
      rintro rfl
      exact ⟨[], by simp, by simp⟩
    split at hread
    · cases hread
    · split at hread
      next hthin =>
        obtain ⟨tail, rfl⟩ := List.isPrefixOf_iff_prefix.mp hthin
        have hsummand := (Option.some.inj hread).symm
        split at hsummand
        · exact whole hsummand
        · refine ⟨Latex.thin.toList, by simp, ?_⟩
          have hvisible : visible Latex.thin.toList = Latex.thin.toList := by decide
          rw [hsummand, visible_append, hvisible, visible_trim]
          rfl
      next => exact whole (Option.some.inj hread).symm

/-- A text is cut where a word ends it and begins nowhere before. -/
theorem splitAt?_of_avoids {w a : List Char} (ne : w ≠ []) (h : Avoids w a) (cs : List Char) :
    splitAt? w (a ++ (w ++ cs)) = some (a, cs) := by
  induction a with
  | nil => exact splitAt?_self ne cs
  | cons c a ih =>
      have hstart : ¬ w <+: c :: (a ++ (w ++ cs)) := by
        intro hp
        exact h.1 (agree_of_prefix_append (g := c :: a) hp)
      rw [List.cons_append, splitAt?_cons hstart, ih h.2]
      rfl

/-- A character at which no expectation opens is passed over. -/
theorem SplitAs.cons {c : Char} (kept : ¬ Latex.expectation.toList <+: c :: e)
    (h : SplitAs e before inside condition after summand) :
    SplitAs (c :: e) (c :: before) inside condition after summand :=
  ⟨by rw [splitAt?_cons kept, h.opening]; rfl, h.bar, h.closing, h.discounted⟩

/-- A text without backslashes is passed over. -/
theorem SplitAs.append {a : List Char} (ha : '\\' ∉ a)
    (h : SplitAs e before inside condition after summand) :
    SplitAs (a ++ e) (a ++ before) inside condition after summand := by
  induction a with
  | nil => exact h
  | cons c a ih =>
      rw [List.mem_cons, not_or] at ha
      exact (ih ha.2).cons fun hp => ha.1 (List.cons_prefix_cons.mp hp).1

theorem SplitAs.of_cons {c : Char} (kept : ¬ Latex.expectation.toList <+: c :: e)
    (h : SplitAs (c :: e) before inside condition after summand) :
    ∃ b, before = c :: b ∧ SplitAs e b inside condition after summand := by
  have hopening := h.opening
  rw [splitAt?_cons kept, Option.map_eq_some_iff] at hopening
  obtain ⟨⟨b, a⟩, hb, heq⟩ := hopening
  obtain ⟨rfl, rfl⟩ := Prod.mk.inj heq
  exact ⟨b, rfl, hb, h.bar, h.closing, h.discounted⟩

/-- An expectation at the start is the first one, its inside ends at its first bar, and its
condition at the first bracket behind that. -/
theorem splitAs_opening (hinside : Avoids Latex.bar.toList inside)
    (hcondition : Avoids "]".toList condition) (after : List Char)
    (hsum : discounted? (trim inside) = some summand) :
    SplitAs (Latex.expectation.toList ++ (inside ++ (Latex.bar.toList ++
      (condition ++ ("]".toList ++ after))))) [] inside condition after summand :=
  ⟨splitAt?_self (by decide) _, splitAt?_of_avoids (by decide) hinside _,
    splitAt?_of_avoids (by decide) hcondition _, hsum⟩

theorem SplitAs.of_opening {i cs : List Char} (hi : Avoids Latex.bar.toList i)
    (h : SplitAs (Latex.expectation.toList ++ (i ++ (Latex.bar.toList ++ cs)))
      before inside condition after summand) :
    before = [] ∧ inside = i ∧ splitAt? "]".toList cs = some (condition, after) := by
  have hopening := h.opening
  rw [splitAt?_self (by decide)] at hopening
  obtain ⟨rfl, hinner⟩ := Prod.mk.inj (Option.some.inj hopening)
  have hbar := h.bar
  rw [← hinner, splitAt?_of_avoids (by decide) hi] at hbar
  obtain ⟨rfl, hconditioned⟩ := Prod.mk.inj (Option.some.inj hbar)
  exact ⟨rfl, rfl, hconditioned ▸ h.closing⟩

end Bellman.Catalog
