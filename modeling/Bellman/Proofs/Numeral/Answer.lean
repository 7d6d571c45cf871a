import Bellman.Proofs.Numeral.Obstacle

/-!
# Which texts are answered

Reading a number ends with a finite double or with a reason in words, except for texts
that say something well formed which is no number at all: the empty brackets, an
ellipsis, the name of a function, or a formula that comes to a product of the empty
brackets and a number. For those there is neither.
-/

namespace Bellman.Numeral

open Text

variable {cs : List Char} {token : String} {v : Value} {x : Binary64} {f : Formula} {p : Phrase}
  {e : ScalarError}

/-- Every reason but one is put into words. -/
theorem ScalarError.exists_message_iff : (∃ m, e.message? = some m) ↔ e ≠ .notANumber := by
  cases e <;> simp [message?]

/-- The reading ends with a reason in words. -/
def Refused (r : Except ScalarError Binary64) : Prop :=
  ∃ e m, r = .error e ∧ e.message? = some m

theorem refused_iff {r : Except ScalarError Binary64} :
    Refused r ↔ (∀ x, r ≠ .ok x) ∧ r ≠ .error .notANumber := by
  cases r with
  | ok x => simp [Refused]
  | error e => simpa [Refused] using e.exists_message_iff

theorem isFinite_of_roundValue (h : roundValue token v = .ok x) : x.isFinite = true := by
  simp only [roundValue] at h
  split at h
  · split at h
    · cases h
      assumption
    · cases h
  · cases h

theorem roundValue_ne_notANumber : roundValue token v ≠ .error .notANumber := by
  intro h
  simp only [roundValue] at h
  split at h
  · split at h <;> cases h
  · cases h

/-- A formula without symbols is evaluated by computing it. -/
theorem Formula.evaluate_eq_notANumber_iff :
    f.evaluate = .error .notANumber ↔
      f.hasSymbol = false ∧ ∃ g, Reached g f ∧ Stranded g := by
  rw [← compute_eq_notANumber_iff, evaluate]
  cases f.hasSymbol <;> simp

theorem readFormula_eq_notANumber_iff :
    readFormula token f = .error .notANumber ↔ f.evaluate = .error .notANumber := by
  simp only [readFormula]
  cases h : f.evaluate with
  | ok v => simp [roundValue_ne_notANumber]
  | error o => cases o <;> simp

theorem isFinite_of_readFormula (h : readFormula token f = .ok x) : x.isFinite = true := by
  simp only [readFormula] at h
  split at h
  · exact isFinite_of_roundValue h
  · cases h
  · cases h

/-- A well-formed phrase that is no number at all, nor anything a message is made of. -/
def Phrase.Unanswerable (p : Phrase) : Prop :=
  p = .emptyBrackets ∨ p = .ellipsis ∨ p = .bareFunction ∨
    ∃ f, Formula.ofPhrase? p = some f ∧ f.hasSymbol = false ∧
      ∃ g, Formula.Reached g f ∧ g.Stranded

/-- All other phrases are read as formulas. -/
theorem readMeaning_of_ne (hbrackets : p ≠ .emptyBrackets) (hellipsis : p ≠ .ellipsis)
    (hfunction : p ≠ .bareFunction) :
    readMeaning token p =
      match Formula.ofPhrase? p with
      | some f => readFormula token f
      | none => .error (.malformed token) := by
  cases p with
  | emptyBrackets => exact absurd rfl hbrackets
  | ellipsis => exact absurd rfl hellipsis
  | bareFunction => exact absurd rfl hfunction
  | _ => rfl

theorem readMeaning_eq_notANumber_iff :
    readMeaning token p = .error .notANumber ↔ p.Unanswerable := by
  by_cases hbrackets : p = .emptyBrackets
  · exact iff_of_true (by rw [hbrackets]; rfl) (.inl hbrackets)
  by_cases hellipsis : p = .ellipsis
  · exact iff_of_true (by rw [hellipsis]; rfl) (.inr (.inl hellipsis))
  by_cases hfunction : p = .bareFunction
  · exact iff_of_true (by rw [hfunction]; rfl) (.inr (.inr (.inl hfunction)))
  rw [readMeaning_of_ne hbrackets hellipsis hfunction]
  cases h : Formula.ofPhrase? p with
  | none => simp [Phrase.Unanswerable, hbrackets, hellipsis, hfunction, h]
  | some f =>
      simp [Phrase.Unanswerable, hbrackets, hellipsis, hfunction, h,
        readFormula_eq_notANumber_iff, Formula.evaluate_eq_notANumber_iff]

theorem isFinite_of_readMeaning (h : readMeaning token p = .ok x) : x.isFinite = true := by
  have hbrackets : p ≠ .emptyBrackets := by rintro rfl; cases h
  have hellipsis : p ≠ .ellipsis := by rintro rfl; cases h
  have hfunction : p ≠ .bareFunction := by rintro rfl; cases h
  rw [readMeaning_of_ne hbrackets hellipsis hfunction] at h
  split at h
  · exact isFinite_of_readFormula h
  · cases h

/-- A text without blanks at its ends says a phrase: it holds nothing but characters of
numerals, no exponent of four digits, and is well formed. -/
def Says (cs : List Char) (p : Phrase) : Prop :=
  cs.all isNumeralChar = true ∧ hasLongExponent cs = false ∧ readPhrase cs = some p

/-- A text that says a phrase is read by what it says; every other text is refused with a
reason in words. -/
theorem readToken_cases (cs : List Char) :
    (∃ p, Says cs p ∧ readToken cs = readMeaning (String.ofList cs) p) ∨
      (∀ p, ¬ Says cs p) ∧ ∃ e, readToken cs = .error e ∧ e ≠ .notANumber := by
  by_cases hblank : cs = []
  · subst hblank
    exact .inr ⟨fun p h => (by cases h.2.2), .blank, rfl, by simp⟩
  have hempty : cs.isEmpty = false := by simpa using hblank
  by_cases hchars : cs.all isNumeralChar = true
  · by_cases hlong : hasLongExponent cs = true
    · refine .inr ⟨?_, .outOfRange (String.ofList cs), ?_, by simp⟩
      · intro p h
        simp [h.2.1] at hlong
      · simp [readToken, hempty, hchars, hlong]
    · cases hphrase : readPhrase cs with
      | none =>
          refine .inr ⟨?_, .malformed (String.ofList cs), ?_, by simp⟩
          · intro p h
            simp [h.2.2] at hphrase
          · simp [readToken, hempty, hchars, hlong, hphrase]
      | some p =>
          refine .inl ⟨p, ⟨hchars, by simpa using hlong, hphrase⟩, ?_⟩
          simp [readToken, hempty, hchars, hlong, hphrase]
  · refine .inr ⟨fun p h => hchars h.1, .foreignCharacter (String.ofList cs), ?_, by simp⟩
    simp [readToken, hempty, hchars]

/-- A text says one phrase. -/
theorem Says.phrase_eq {q : Phrase} (h : Says cs p) (h' : Says cs q) : p = q :=
  Option.some.inj (h.2.2.symm.trans h'.2.2)

theorem readToken_eq_notANumber_iff :
    readToken cs = .error .notANumber ↔ ∃ p, Says cs p ∧ p.Unanswerable := by
  obtain ⟨p, hsaid, hread⟩ | ⟨hnone, e, hread, he⟩ := readToken_cases cs
  · rw [hread, readMeaning_eq_notANumber_iff]
    constructor
    · intro h
      exact ⟨p, hsaid, h⟩
    · rintro ⟨q, hq, h⟩
      rwa [hsaid.phrase_eq hq]
  · refine iff_of_false ?_ fun ⟨p, hp, _⟩ => hnone p hp
    rw [hread]
    simpa using he

theorem isFinite_of_readToken (h : readToken cs = .ok x) : x.isFinite = true := by
  obtain ⟨p, -, hread⟩ | ⟨-, e, hread, -⟩ := readToken_cases cs
  · exact isFinite_of_readMeaning (hread.symm.trans h)
  · cases hread.symm.trans h

end Bellman.Numeral
