import Bellman.Proofs.Numeral.Statements
import Bellman.Proofs.Numeral.Tables

/-!
# What becomes of further lines

A line break outside brackets ends a statement, and the number of a text is that of its
first statement. The lines after it are looked at all the same: they must be well formed,
not indented, and made of the characters of numerals. So a text with a further line is
read as the text before it is, if the further line could follow it at all, and refused
otherwise.
-/

namespace Bellman.Numeral

open Text

variable {c : Char} {cs bs : List Char} {depth : ℕ} {p : Phrase} {x : Binary64}

/-- Lines that may come after a number: they are not indented, hold nothing but characters
of numerals and no exponent of four digits, and every statement of them is well formed. -/
def Follows (bs : List Char) : Prop :=
  bs.all isNumeralChar = true ∧ hasLongExponent bs = false ∧ isIndented 0 bs = false ∧
    ∃ ss, readStatements bs = some ss ∧ ss.all Phrase.isWellFormed = true

theorem readPhrase_append (hc : isBlank c = false) (h : (c :: cs).foldl depthAfter 0 = 0) :
    readPhrase (c :: cs ++ '\n' :: bs) = some p ↔
      readPhrase (c :: cs) = some p ∧ isIndented 0 bs = false ∧
        ∃ ss, readStatements bs = some ss ∧ ss.all Phrase.isWellFormed = true := by
  rw [readPhrase, readPhrase, readStatements_append h]
  cases hcs : readStatements (c :: cs) with
  | none => simp
  | some ss =>
      obtain ⟨s, ss, rfl⟩ := List.exists_cons_of_ne_nil (statements_ne_nil hc hcs)
      by_cases hindent : isIndented 0 bs = true
      · simp [hindent]
      cases hbs : readStatements bs with
      | none => simp [hindent]
      | some us =>
          simp [hindent, and_assoc, and_comm]

theorem hasLongExponent_append (cs bs : List Char) :
    hasLongExponent (cs ++ '\n' :: bs) = (hasLongExponent cs || hasLongExponent bs) := by
  induction cs with
  | nil => simp [hasLongExponent]
  | cons c cs ih =>
      have hfour (r : List Char) :
          startsWithFourDigits (r ++ '\n' :: bs) = startsWithFourDigits r := by
        rw [startsWithFourDigits, takeWhile_append_newline rfl]
        rfl
      have hsigned : (((cs ++ '\n' :: bs).head?.any fun s => s == '+' || s == '-') &&
            startsWithFourDigits (cs ++ '\n' :: bs).tail) =
          ((cs.head?.any fun s => s == '+' || s == '-') && startsWithFourDigits cs.tail) := by
        cases cs with
        | nil => rfl
        | cons d cs => simp [hfour]
      rw [List.cons_append, hasLongExponent, hasLongExponent, hfour, hsigned, ih, Bool.or_assoc]

theorem says_append (hc : isBlank c = false) (h : (c :: cs).foldl depthAfter 0 = 0) :
    Says (c :: cs ++ '\n' :: bs) p ↔ Says (c :: cs) p ∧ Follows bs := by
  have hchars : (c :: cs ++ '\n' :: bs).all isNumeralChar =
      ((c :: cs).all isNumeralChar && bs.all isNumeralChar) := by
    rw [List.all_append, List.all_cons]
    rfl
  rw [Says, Says, Follows, readPhrase_append hc h, hchars, hasLongExponent_append]
  simp only [Bool.and_eq_true, Bool.or_eq_false_iff]
  constructor
  · rintro ⟨⟨hcs, hbs⟩, ⟨hshort, hshort'⟩, hphrase, hindent, hstatements⟩
    exact ⟨⟨hcs, hshort, hphrase⟩, hbs, hshort', hindent, hstatements⟩
  · rintro ⟨⟨hcs, hshort, hphrase⟩, hbs, hshort', hindent, hstatements⟩
    exact ⟨⟨hcs, hbs⟩, ⟨hshort, hshort'⟩, hphrase, hindent, hstatements⟩

/-- What is said before further lines is said alone. -/
theorem exists_says_append (hc : isBlank c = false) (h : (c :: cs).foldl depthAfter 0 = 0)
    (P : Phrase → Prop) :
    (∃ p, Says (c :: cs ++ '\n' :: bs) p ∧ P p) ↔
      (∃ p, Says (c :: cs) p ∧ P p) ∧ Follows bs := by
  simp only [says_append hc h, and_right_comm, exists_and_right]

theorem roundValue_eq_ok_iff {token : String} {v : Value} :
    roundValue token v = .ok x ↔
      v.knowledge.isReal = true ∧ v.knowledge.isFinite = true ∧
        v.toBinary64.isFinite = true ∧ v.toBinary64 = x := by
  cases hreal : v.knowledge.isReal <;> cases hfinite : v.knowledge.isFinite <;>
    cases hdouble : v.toBinary64.isFinite <;> simp [roundValue, hreal, hfinite, hdouble]

/-- The text that a phrase was read from is told only when there is no number. -/
theorem readMeaning_eq_ok_congr {token token' : String} (h : readMeaning token p = .ok x) :
    readMeaning token' p = .ok x := by
  have hbrackets : p ≠ .emptyBrackets := by rintro rfl; cases h
  have hellipsis : p ≠ .ellipsis := by rintro rfl; cases h
  have hfunction : p ≠ .bareFunction := by rintro rfl; cases h
  rw [readMeaning_of_ne hbrackets hellipsis hfunction] at h ⊢
  cases hf : Formula.ofPhrase? p with
  | none => simp [hf] at h
  | some f =>
      simp only [hf, readFormula] at h ⊢
      cases hv : f.evaluate with
      | error o => cases o <;> simp [hv] at h
      | ok v =>
          simp only [hv, roundValue_eq_ok_iff] at h ⊢
          exact h

theorem readToken_eq_ok_iff :
    readToken cs = .ok x ↔ ∃ p, Says cs p ∧ readMeaning "" p = .ok x := by
  obtain ⟨p, hsaid, hread⟩ | ⟨hnone, e, hread, -⟩ := readToken_cases cs
  · rw [hread]
    constructor
    · intro h
      exact ⟨p, hsaid, readMeaning_eq_ok_congr h⟩
    · rintro ⟨q, hq, h⟩
      rw [hsaid.phrase_eq hq]
      exact readMeaning_eq_ok_congr h
  · rw [hread]
    exact iff_of_false nofun fun ⟨p, hp, _⟩ => hnone p hp

/-- A text with further lines is read as the text before them, if they may follow. -/
theorem readToken_append (hc : isBlank c = false) (h : (c :: cs).foldl depthAfter 0 = 0) :
    (∀ x, readToken (c :: cs ++ '\n' :: bs) = .ok x ↔ readToken (c :: cs) = .ok x ∧ Follows bs) ∧
      (Refused (readToken (c :: cs ++ '\n' :: bs)) ↔
        Refused (readToken (c :: cs)) ∨ ¬ Follows bs) := by
  have hok (x : Binary64) : readToken (c :: cs ++ '\n' :: bs) = .ok x ↔
      readToken (c :: cs) = .ok x ∧ Follows bs := by
    rw [readToken_eq_ok_iff, readToken_eq_ok_iff, exists_says_append hc h]
  have hnone : readToken (c :: cs ++ '\n' :: bs) = .error .notANumber ↔
      readToken (c :: cs) = .error .notANumber ∧ Follows bs := by
    rw [readToken_eq_notANumber_iff, readToken_eq_notANumber_iff, exists_says_append hc h]
  refine ⟨hok, ?_⟩
  simp only [refused_iff, ne_eq, hok, hnone]
  by_cases hfollows : Follows bs <;> simp [hfollows]

/-- Every bracket is closed, and none before it is opened. -/
structure Balanced (cs : List Char) : Prop where
  opened : ∀ ds, ds <+: cs → ds.count ')' ≤ ds.count '('
  closed : cs.count ')' = cs.count '('

instance (cs : List Char) : Decidable (Balanced cs) :=
  decidable_of_iff
    ((∀ ds ∈ cs.inits, ds.count ')' ≤ ds.count '(') ∧ cs.count ')' = cs.count '(')
    ⟨fun h => ⟨fun ds hds => h.1 ds ((List.mem_inits ds cs).mpr hds), h.2⟩,
      fun h => ⟨fun ds hds => h.opened ds ((List.mem_inits ds cs).mp hds), h.closed⟩⟩

theorem foldl_depthAfter_add_count (h : ∀ ds, ds <+: cs → ds.count ')' ≤ depth + ds.count '(') :
    cs.foldl depthAfter depth + cs.count ')' = depth + cs.count '(' := by
  induction cs generalizing depth with
  | nil => rfl
  | cons c cs ih =>
      have hprefix (ds : List Char) (hds : ds <+: cs) :
          (c :: ds).count ')' ≤ depth + (c :: ds).count '(' :=
        h (c :: ds) ((List.prefix_cons_inj c).mpr hds)
      rw [List.foldl_cons]
      by_cases hopening : c = '('
      · subst hopening
        have hrest : cs.foldl depthAfter (depth + 1) + cs.count ')' = depth + 1 + cs.count '(' :=
          ih fun ds hds => by have := hprefix ds hds; simp at this; omega
        simp [Numeral.depthAfter, hrest]
        omega
      by_cases hclosing : c = ')'
      · subst hclosing
        have hpos := hprefix [] List.nil_prefix
        simp at hpos
        have hrest : cs.foldl depthAfter (depth - 1) + cs.count ')' = depth - 1 + cs.count '(' :=
          ih fun ds hds => by have := hprefix ds hds; simp at this; omega
        simp [Numeral.depthAfter]
        omega
      have hrest : cs.foldl depthAfter depth + cs.count ')' = depth + cs.count '(' :=
        ih fun ds hds => by simpa [hopening, hclosing] using hprefix ds hds
      simpa [Numeral.depthAfter, hopening, hclosing] using hrest

theorem Balanced.foldl_depthAfter (h : Balanced cs) : cs.foldl depthAfter 0 = 0 := by
  have hcount : cs.foldl depthAfter 0 + cs.count ')' = 0 + cs.count '(' :=
    foldl_depthAfter_add_count (by simpa using h.opened)
  have := h.closed
  omega

theorem trimLeft_ne_nil (h : ∃ c ∈ cs, isBlank c = false) : trimLeft cs ≠ [] := by
  obtain ⟨c, hc, hblank⟩ := h
  rw [trimLeft, ne_eq, List.dropWhile_eq_nil_iff]
  intro hall
  simp [hall c hc] at hblank

theorem trimLeft_append (h : ∃ c ∈ cs, isBlank c = false) (bs : List Char) :
    trimLeft (cs ++ bs) = trimLeft cs ++ bs := by
  have hne : cs.dropWhile isBlank ≠ [] := trimLeft_ne_nil h
  rw [trimLeft, List.dropWhile_append, if_neg (by simpa using hne)]
  rfl

/-- Blanks at the two ends of joined lines are those of the first at its start and of the
second at its end. -/
theorem trim_append_newline (hcs : ∃ c ∈ cs, isBlank c = false)
    (hbs : ∃ c ∈ bs, isBlank c = false) :
    trim (cs ++ '\n' :: bs) = trimLeft cs ++ '\n' :: trimRight bs := by
  have hbs' : ∃ c ∈ bs.reverse, isBlank c = false := by simpa using hbs
  rw [trim, trimLeft_append hcs, trimRight, List.reverse_append, List.reverse_cons,
    List.append_assoc, trimLeft_append hbs']
  simp [trimRight]

theorem exists_trimLeft_cons (h : ∃ c ∈ cs, isBlank c = false) :
    ∃ c ds, trimLeft cs = c :: ds ∧ isBlank c = false := by
  have hne : cs.dropWhile isBlank ≠ [] := trimLeft_ne_nil h
  obtain ⟨d, ds, hd⟩ := List.exists_cons_of_ne_nil hne
  refine ⟨d, ds, hd, ?_⟩
  have hhead := List.head_dropWhile_not isBlank hne
  simpa [hd] using hhead

/-- The text between two line breaks is read with the blanks at its end. -/
theorem readToken_trim_append (hcs : ∃ c ∈ cs, isBlank c = false)
    (hbs : ∃ c ∈ bs, isBlank c = false) (hbalanced : Balanced cs) :
    (∀ x, readToken (trim (cs ++ '\n' :: bs)) = .ok x ↔
        readToken (trimLeft cs) = .ok x ∧ Follows (trimRight bs)) ∧
      (Refused (readToken (trim (cs ++ '\n' :: bs))) ↔
        Refused (readToken (trimLeft cs)) ∨ ¬ Follows (trimRight bs)) := by
  obtain ⟨c, ds, hds, hc⟩ := exists_trimLeft_cons hcs
  have htakes : Takes cs (trimLeft cs) := .dropWhile rfl rfl cs
  have hdepth : (c :: ds).foldl depthAfter 0 = 0 := by
    rw [← hds, ← htakes.foldl_depthAfter, hbalanced.foldl_depthAfter]
  rw [trim_append_newline hcs hbs, hds]
  exact readToken_append hc hdepth

/-- A vector is read cell by cell, and blanks at the ends of its text do not matter. -/
theorem readVector_eq_ok_iff {text : String} {n : ℤ} {xs : List Binary64} :
    readVector text n = .ok xs ↔
      ((cells text.toList).length : ℤ) = n ∧
        List.Forall₂ (fun c x => readToken c = .ok x) ((cells text.toList).map trim) xs := by
  rw [readVector_eq, List.forall₂_map_left_iff]
  simp only [← readCell_eq, ← readCells_eq_ok_iff]
  split
  next hn => rw [and_iff_right hn]
  next hn => simp [hn]

theorem forall₂_concat_iff {α β : Type} {R : α → β → Prop} {l : List α} {a : α} {xs : List β} :
    List.Forall₂ R (l ++ [a]) xs ↔ ∃ ys y, List.Forall₂ R l ys ∧ R a y ∧ xs = ys ++ [y] := by
  induction l generalizing xs with
  | nil =>
      simp only [List.nil_append, List.forall₂_cons_left_iff, List.forall₂_nil_left_iff]
      constructor
      · rintro ⟨y, _, hy, rfl, rfl⟩
        exact ⟨[], y, rfl, hy, rfl⟩
      · rintro ⟨_, y, rfl, hy, rfl⟩
        exact ⟨y, [], hy, rfl, rfl⟩
  | cons b l ih =>
      simp only [List.cons_append, List.forall₂_cons_left_iff, ih]
      constructor
      · rintro ⟨z, _, hz, ⟨ys, y, hys, hy, rfl⟩, rfl⟩
        exact ⟨z :: ys, y, ⟨z, ys, hz, hys, rfl⟩, hy, rfl⟩
      · rintro ⟨_, y, ⟨z, ys, hz, hys, rfl⟩, hy, rfl⟩
        exact ⟨z, ys ++ [y], hz, ⟨ys, y, hys, hy, rfl⟩, rfl⟩

/-- A text of two lines is refused exactly when its first line is, or its second line cannot
come after a number; otherwise it is read as its first line is. The same goes for the last
entry of a vector. -/
theorem further_line_iff {a b : String} (ha : ∃ c ∈ a.toList, isBlank c = false)
    (hb : ∃ c ∈ b.toList, isBlank c = false) (hbalanced : Balanced a.toList) :
    (Refused (readScalar (a ++ "\n" ++ b)) ↔
      Refused (readToken (trimLeft a.toList)) ∨ ¬ Follows (trimRight b.toList)) ∧
    (∀ x, readScalar (a ++ "\n" ++ b) = .ok x ↔
      readToken (trimLeft a.toList) = .ok x ∧ Follows (trimRight b.toList)) ∧
    ∀ (rewards : String) (front : List (List Char)) (n : ℤ) (xs : List Binary64),
      cells rewards.toList = front ++ [a.toList] → ',' ∉ b.toList →
      (readVector (rewards ++ "\n" ++ b) n = .ok xs ↔
        front.length + 1 = n ∧ Follows (trimRight b.toList) ∧
          List.Forall₂ (fun c x => readToken c = .ok x)
            (front.map trim ++ [trimLeft a.toList]) xs) := by
  have hjoined (s t : String) : (s ++ "\n" ++ t).toList = s.toList ++ '\n' :: t.toList := by
    simp
  obtain ⟨hok, hrefused⟩ := readToken_trim_append ha hb hbalanced
  refine ⟨?_, ?_, ?_⟩
  · rw [readScalar, hjoined]
    exact hrefused
  · intro x
    rw [readScalar, hjoined]
    exact hok x
  · intro rewards front n xs hcells hcomma
    have hcells' : cells (rewards ++ "\n" ++ b).toList =
        front ++ [a.toList ++ '\n' :: b.toList] := by
      rw [hjoined]
      exact cells_append hcells (by simpa using hcomma)
    rw [readVector_eq_ok_iff, hcells', List.map_append, List.map_singleton,
      forall₂_concat_iff, forall₂_concat_iff]
    simp only [hok, List.length_append, List.length_singleton, Int.natCast_add, Int.natCast_one]
    constructor
    · rintro ⟨hn, ys, y, hys, ⟨hy, hfollows⟩, hxs⟩
      exact ⟨hn, hfollows, ys, y, hys, hy, hxs⟩
    · rintro ⟨hn, hfollows, ys, y, hys, hy, hxs⟩
      exact ⟨hn, ys, y, hys, ⟨hy, hfollows⟩, hxs⟩

/-- A second line of a number or of a vector's last entry is dropped if it is a number too. -/
theorem further_line_of_brackets :
    (∃ c ∈ "(1)".toList, isBlank c = false) ∧ (∃ c ∈ "(2)".toList, isBlank c = false) ∧
    Balanced "(1)".toList ∧ cells "0,(1)".toList = [['0']] ++ ["(1)".toList] ∧
    ',' ∉ "(2)".toList ∧
    readScalar ("(1)" ++ "\n" ++ "(2)") = .ok 1 ∧
    readVector ("0,(1)" ++ "\n" ++ "(2)") 2 = .ok [0, 1] := by
  have ha : ∃ c ∈ "(1)".toList, isBlank c = false := ⟨'(', by decide, by decide⟩
  have hb : ∃ c ∈ "(2)".toList, isBlank c = false := ⟨'(', by decide, by decide⟩
  have hbalanced : Balanced "(1)".toList := by decide +kernel
  have hcells : cells "0,(1)".toList = [['0']] ++ ["(1)".toList] := by decide +kernel
  have hcomma : ',' ∉ "(2)".toList := by decide
  have hfollows : Follows (trimRight "(2)".toList) :=
    ⟨by decide +kernel, by decide +kernel, by decide +kernel,
      [[.opening, .literal ⟨['2'], none, none⟩, .closing]], by decide +kernel, by decide +kernel⟩
  have hzero : readToken (trim ['0']) = .ok 0 := by decide +kernel
  have hone : readToken (trimLeft "(1)".toList) = .ok 1 := by decide +kernel
  obtain ⟨-, hscalar, hvector⟩ := further_line_iff ha hb hbalanced
  exact ⟨ha, hb, hbalanced, hcells, hcomma, (hscalar 1).mpr ⟨hone, hfollows⟩,
    (hvector "0,(1)" [['0']] 2 [0, 1] hcells hcomma).mpr
      ⟨rfl, hfollows, .cons hzero (.cons hone .nil)⟩⟩

/-- Two lines that are numbers and balanced are read as the first one. -/
theorem second_line_dropped :
    (∃ c ∈ "1".toList, isBlank c = false) ∧ (∃ c ∈ "2".toList, isBlank c = false) ∧
    Balanced "1".toList ∧ Balanced "2".toList ∧
    readScalar ("1" ++ "\n" ++ "2") = .ok 1 ∧ readVector ("1" ++ "\n" ++ "2") 1 = .ok [1] :=
  ⟨⟨'1', by decide, by decide⟩, ⟨'2', by decide, by decide⟩, by decide +kernel,
    by decide +kernel, by decide +kernel, by decide +kernel⟩

end Bellman.Numeral
